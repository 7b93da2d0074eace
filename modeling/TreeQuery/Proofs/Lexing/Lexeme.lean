import Mathlib.Data.List.TakeWhile
import TreeQuery.XPath.Token

/-!
# Where a lexeme ends

`lexeme?` takes the longest lexeme at the front of a text. Whether a lexeme ends where it does
depends on the lexeme and on the one character that follows it: `extendedBy` says which characters
would have been part of it, and `lexeme?_append_iff` that nothing else matters. Most characters are
part of nothing before them (`standsAlone`), and all characters that a name can begin with are
alike (`extendedBy_of_isNameStart`).
-/

namespace TreeQuery.XPath

namespace TokenKind

/-- Kinds that can serve as a name. -/
def isName : TokenKind → Bool
  | name | nodeType | or | and | div | mod => true
  | _ => false

theorem ne_of_isName {k k' : TokenKind} (h : k.isName = true) (h' : k'.isName = false) :
    k ≠ k' := by
  rintro rfl
  rw [h] at h'
  cases h'

end TokenKind

theorem Token.isName_eq (t : Token) : t.isName = t.kind.isName := rfl

/-- Whether a character right after a lexeme would have been part of it. -/
def extendedBy (k : TokenKind) (t : List Char) (c : Char) : Bool :=
  match k with
  | .name | .nodeType | .or | .and | .div | .mod => Text.isNameChar c
  | .integer | .dot => Text.isDigit c || c == '.'
  | .float => Text.isDigit c
  | .slash => c == '/'
  | .colon => c == ':'
  | .relation => t.length == 1 && c == '='
  | _ => false

/-- Nothing that follows would have been part of a lexeme. -/
def Ended (k : TokenKind) (t rest : List Char) : Prop := ∀ c ∈ rest.head?, extendedBy k t c = false

theorem ended_of_never {k : TokenKind} {t rest : List Char} (h : ∀ c, extendedBy k t c = false) :
    Ended k t rest :=
  fun c _ => h c

/-! ## Characters -/

/-- A character that is part of no lexeme before it. -/
def standsAlone (c : Char) : Bool :=
  !(Text.isNameChar c || Text.isDigit c || c == '.' || c == '/' || c == ':' || c == '=')

theorem extendedBy_of_standsAlone {k : TokenKind} {t : List Char} {c : Char}
    (h : standsAlone c = true) : extendedBy k t c = false := by
  simp only [standsAlone, Bool.not_eq_true', Bool.or_eq_false_iff] at h
  obtain ⟨⟨⟨⟨⟨hn, hd⟩, hp⟩, hs⟩, hc⟩, he⟩ := h
  cases k <;> simp only [extendedBy, hn, hd, hp, hs, hc, he, Bool.or_self, Bool.and_false]

theorem standsAlone_of_isSpace {c : Char} (h : Text.isSpace c = true) : standsAlone c = true := by
  simp only [Text.isSpace, Bool.or_eq_true, beq_iff_eq] at h
  rcases h with ((rfl | rfl) | rfl) | rfl <;> decide

theorem extendedBy_slash (k : TokenKind) (t : List Char) :
    extendedBy k t '/' = (k == .slash) := by
  cases k <;> simp only [extendedBy] <;> first | rfl | decide | simp

theorem ne_of_isNameStart {c d : Char} (h : Text.isNameStart c = true)
    (hd : Text.isNameStart d = false) : c ≠ d := by
  rintro rfl
  rw [h] at hd
  cases hd

/-- What a name can begin with is part of a name before it, and of nothing else. -/
theorem extendedBy_of_isNameStart {k : TokenKind} {t : List Char} {c : Char}
    (h : Text.isNameStart c = true) (hd : Text.isDigit c = false) :
    extendedBy k t c = k.isName := by
  have hn := Text.isNameChar_of_isNameStart h
  have hp : (c == '.') = false := beq_false_of_ne (ne_of_isNameStart h (by decide))
  have hs : (c == '/') = false := beq_false_of_ne (ne_of_isNameStart h (by decide))
  have hc : (c == ':') = false := beq_false_of_ne (ne_of_isNameStart h (by decide))
  have he : (c == '=') = false := beq_false_of_ne (ne_of_isNameStart h (by decide))
  cases k <;>
    simp only [extendedBy, TokenKind.isName, hn, hd, hp, hs, hc, he, Bool.or_self, Bool.and_false]

theorem extendedBy_of_isName {k : TokenKind} {t : List Char} {c : Char} (h : k.isName = true) :
    extendedBy k t c = Text.isNameChar c := by
  cases k <;> first | rfl | cases h

theorem nameKind_isName (cs : List Char) : (nameKind cs).isName = true := by
  unfold nameKind
  split <;> rfl

/-! ## One kind of lexeme after the other -/

theorem takeWhile_append_eq_iff {α : Type} {p : α → Bool} {l r : List α} :
    (l ++ r).takeWhile p = l ↔ (∀ x ∈ l, p x = true) ∧ ∀ c ∈ r.head?, p c = false := by
  induction l with
  | nil => cases r <;> simp [List.takeWhile_cons]
  | cons a l ih =>
    rw [List.cons_append, List.takeWhile_cons]
    by_cases h : p a = true
    · simp [h, ih]
    · simp [h]

theorem literal?_append_iff {q : Char} {cs rest : List Char} :
    literal? q (cs ++ rest) = some (q :: cs) ↔ ∃ b, cs = b ++ [q] ∧ ∀ x ∈ b, x ≠ q := by
  constructor
  · intro h
    simp only [literal?] at h
    split at h
    · refine ⟨(cs ++ rest).takeWhile (· != q), by simpa using h.symm, fun x hx => ?_⟩
      simpa using List.mem_takeWhile_imp hx
    · cases h
  · rintro ⟨b, rfl, hb⟩
    have e : (b ++ [q] ++ rest).takeWhile (· != q) = b := by
      rw [List.append_assoc, takeWhile_append_eq_iff]
      simpa using hb
    simp only [literal?, e]
    simp

theorem not_isDigit_point : Text.isDigit '.' = false := by decide

theorem numeral_point {ds : List Char} (h : ∀ x ∈ ds, Text.isDigit x = true) (cs : List Char) :
    numeral (ds ++ '.' :: cs) = (.float, ds ++ '.' :: cs.takeWhile Text.isDigit) := by
  simp [numeral, List.takeWhile_append_of_pos h, List.dropWhile_append_of_pos h, not_isDigit_point]

theorem numeral_stop {ds cs : List Char} (h : ∀ x ∈ ds, Text.isDigit x = true)
    (hc : ∀ c ∈ cs.head?, Text.isDigit c = false ∧ c ≠ '.') :
    numeral (ds ++ cs) = (.integer, ds) := by
  unfold numeral
  rw [List.takeWhile_append_of_pos h, List.dropWhile_append_of_pos h]
  cases cs with
  | nil => simp
  | cons c cs =>
    obtain ⟨hd, hp⟩ := hc c rfl
    rw [List.dropWhile_cons_of_neg (by simp [hd]), List.takeWhile_cons_of_neg (by simp [hd])]
    split
    · rename_i h
      cases h
      exact absurd rfl hp
    · simp

theorem digits_cases (cs : List Char) : ∃ ds, (∀ x ∈ ds, Text.isDigit x = true) ∧
    ((∃ r, cs = ds ++ '.' :: r) ∨
      ∃ r, cs = ds ++ r ∧ ∀ c ∈ r.head?, Text.isDigit c = false ∧ c ≠ '.') := by
  refine ⟨cs.takeWhile Text.isDigit, fun x hx => List.mem_takeWhile_imp hx, ?_⟩
  have hs := List.takeWhile_append_dropWhile (p := Text.isDigit) (l := cs)
  have hn := List.head?_dropWhile_not Text.isDigit cs
  cases hr : cs.dropWhile Text.isDigit with
  | nil => exact .inr ⟨[], by rw [← hr, hs], by simp⟩
  | cons c r =>
    rw [hr] at hs hn
    by_cases hp : c = '.'
    · exact .inl ⟨r, by rw [← hp, hs]⟩
    · exact .inr ⟨c :: r, hs.symm, by simpa [hp] using hn⟩

/-- Digits followed by something are an integer if that is neither a digit nor a point. -/
theorem digits_append_iff {k : TokenKind} {ds rest : List Char}
    (hd : ∀ x ∈ ds, Text.isDigit x = true) :
    numeral (ds ++ rest) = (k, ds) ↔ numeral ds = (k, ds) ∧ Ended k ds rest := by
  have hn : numeral ds = (.integer, ds) := by
    rw [← List.append_nil ds, numeral_stop hd (by simp), List.append_nil]
  rw [hn]
  obtain ⟨es, he, h⟩ := digits_cases rest
  have hde : ∀ x ∈ ds ++ es, Text.isDigit x = true := by
    simpa [or_imp, forall_and] using ⟨hd, he⟩
  rcases h with ⟨r, rfl⟩ | ⟨r, rfl, hr⟩
  · rw [← List.append_assoc, numeral_point hde]
    constructor
    · simp
    · rintro ⟨h, hk⟩
      cases h
      cases es <;> simp_all [Ended, extendedBy]
  · rw [← List.append_assoc, numeral_stop hde hr]
    cases es with
    | nil =>
      simp only [List.append_nil, List.nil_append]
      refine ⟨fun h => ⟨h, ?_⟩, fun h => h.1⟩
      cases h
      intro c hc
      simpa [extendedBy] using hr c hc
    | cons e es =>
      constructor
      · simp
      · rintro ⟨h, hk⟩
        cases h
        simp_all [Ended, extendedBy]

theorem numeral_append_iff {k : TokenKind} {cs rest : List Char} :
    numeral (cs ++ rest) = (k, cs) ↔ numeral cs = (k, cs) ∧ Ended k cs rest := by
  obtain ⟨ds, hd, ⟨r, rfl⟩ | ⟨r, rfl, hr⟩⟩ := digits_cases cs
  · rw [List.append_assoc, List.cons_append, numeral_point hd, numeral_point hd]
    simp only [Prod.mk.injEq, List.append_cancel_left_eq, List.cons.injEq, true_and,
      takeWhile_append_eq_iff, List.takeWhile_eq_self_iff]
    constructor
    · rintro ⟨rfl, h, he⟩
      exact ⟨⟨rfl, h⟩, he⟩
    · rintro ⟨⟨rfl, h⟩, he⟩
      exact ⟨rfl, h, he⟩
  · cases r with
    | nil => simpa using digits_append_iff hd
    | cons c r =>
      rw [List.append_assoc, numeral_stop hd (by simpa using hr), numeral_stop hd hr]
      simp

theorem pointed_cons (c : Char) (cs : List Char) : pointed (c :: cs) =
    if Text.isDigit c = true then (.float, '.' :: c :: cs.takeWhile Text.isDigit)
    else if c = '.' then (.doubleDot, ['.', '.']) else (.dot, ['.']) := by
  unfold pointed
  by_cases hd : Text.isDigit c = true
  · simp [hd]
  · simp [hd]

theorem pointed_append_iff {k : TokenKind} {cs rest : List Char} :
    pointed (cs ++ rest) = (k, '.' :: cs) ↔
      pointed cs = (k, '.' :: cs) ∧ Ended k ('.' :: cs) rest := by
  cases cs with
  | nil =>
    have hn : pointed [] = (.dot, ['.']) := rfl
    rw [List.nil_append, hn]
    cases rest with
    | nil => simp [hn, Ended]
    | cons c rest =>
      rw [pointed_cons]
      constructor
      · intro h
        split at h
        · cases h
        · split at h <;> cases h
          exact ⟨rfl, by simp_all [Ended, extendedBy]⟩
      · rintro ⟨h, he⟩
        cases h
        simp_all [Ended, extendedBy]
  | cons c cs =>
    rw [List.cons_append, pointed_cons, pointed_cons]
    split
    · simp only [Prod.mk.injEq, List.cons.injEq, true_and, takeWhile_append_eq_iff,
        List.takeWhile_eq_self_iff]
      constructor
      · rintro ⟨rfl, h, he⟩
        exact ⟨⟨rfl, h⟩, he⟩
      · rintro ⟨⟨rfl, h⟩, he⟩
        exact ⟨rfl, h, he⟩
    · split
      · refine ⟨fun h => ⟨h, ?_⟩, fun h => h.1⟩
        cases h
        exact ended_of_never fun _ => rfl
      · simp

theorem oneOrTwo_append_iff {k one two : TokenKind} {c d : Char} {cs rest : List Char} :
    oneOrTwo one two c d (cs ++ rest) = (k, c :: cs) ↔
      oneOrTwo one two c d cs = (k, c :: cs) ∧ (cs = [] → rest.head? ≠ some d) := by
  cases cs with
  | nil => by_cases h : rest.head? = some d <;> simp [oneOrTwo, h]
  | cons e cs => simp [oneOrTwo]

theorem ended_oneOrTwo_iff {k one two : TokenKind} {c d : Char} {cs rest : List Char}
    (h : oneOrTwo one two c d cs = (k, c :: cs)) (h1 : ∀ x, extendedBy one [c] x = (x == d))
    (h2 : ∀ x, extendedBy two [c, d] x = false) :
    Ended k (c :: cs) rest ↔ (cs = [] → rest.head? ≠ some d) := by
  unfold oneOrTwo at h
  split at h <;> cases h
  · simp [Ended, h2]
  · cases rest <;> simp [Ended, h1]

theorem operator?_append_iff {k : TokenKind} {c : Char} {cs rest : List Char} :
    operator? c (cs ++ rest) = some (k, c :: cs) ↔
      operator? c cs = some (k, c :: cs) ∧ Ended k (c :: cs) rest := by
  unfold operator?
  split
  case h_1 | h_2 | h_3 | h_4 =>
    rw [Option.some_inj, Option.some_inj, oneOrTwo_append_iff]
    refine and_congr_right fun h => (ended_oneOrTwo_iff h ?_ ?_).symm <;> intro x <;> rfl
  case h_5 =>
    cases cs with
    | nil => simp
    | cons d cs =>
      simp only [List.cons_append, List.head?_cons]
      by_cases h : d = '='
      · simp only [h, ↓reduceIte, iff_self_and]
        intro h
        cases h
        exact ended_of_never fun _ => rfl
      · simp [h]
  all_goals
    simp only [Option.some_inj, Prod.mk.injEq, List.cons.injEq, true_and, iff_self_and,
      reduceCtorEq, false_and]
    try
      rintro ⟨rfl, -⟩
      exact ended_of_never fun _ => rfl

/-! ## The longest lexeme -/

/-- A lexeme is the longest one at the front of a text exactly if it is a lexeme by itself and what
follows it would not have been part of it. -/
theorem lexeme?_append_iff {k : TokenKind} {t rest : List Char} :
    lexeme? (t ++ rest) = some (k, t) ↔ lexeme? t = some (k, t) ∧ Ended k t rest := by
  cases t with
  | nil =>
    constructor
    · exact fun h => absurd rfl (lexeme?_ne_nil h)
    · exact fun h => absurd rfl (lexeme?_ne_nil h.1)
  | cons c cs =>
    simp only [List.cons_append, lexeme?]
    split
    · have := @literal?_append_iff c cs []
      rw [List.append_nil] at this
      simp only [Option.map_eq_some_iff, Prod.mk.injEq, exists_eq_right_right,
        literal?_append_iff, this]
      constructor
      · rintro ⟨h, rfl⟩
        exact ⟨⟨h, rfl⟩, ended_of_never fun _ => rfl⟩
      · exact fun h => h.1
    · split
      · rw [Option.some_inj, Option.some_inj, ← List.cons_append, numeral_append_iff]
      · split
        · rename_i hp
          rw [eq_of_beq hp, Option.some_inj, Option.some_inj, pointed_append_iff]
        · split
          · simp only [Option.some_inj, Prod.mk.injEq, List.cons.injEq, true_and,
              takeWhile_append_eq_iff, List.takeWhile_eq_self_iff]
            constructor
            · rintro ⟨hk, h, he⟩
              rw [takeWhile_append_eq_iff.2 ⟨h, he⟩] at hk
              subst hk
              refine ⟨⟨by rw [List.takeWhile_eq_self_iff.2 h], h⟩, fun c hc => ?_⟩
              rw [extendedBy_of_isName (nameKind_isName _)]
              exact he c hc
            · rintro ⟨⟨hk, h⟩, he⟩
              rw [List.takeWhile_eq_self_iff.2 h] at hk
              subst hk
              have he' : ∀ c ∈ rest.head?, Text.isNameChar c = false := by
                intro c hc
                rw [← extendedBy_of_isName (nameKind_isName _)]
                exact he c hc
              exact ⟨by rw [takeWhile_append_eq_iff.2 ⟨h, he'⟩], h, he'⟩
          · exact operator?_append_iff

/-! ## Lexemes stand at the front -/

theorem literal?_isPrefix {q : Char} {cs : List Char} {t : List Char}
    (h : literal? q cs = some t) : t <+: q :: cs := by
  simp only [literal?] at h
  split at h
  · cases h
    rename_i hl
    have hs := List.takeWhile_append_dropWhile (p := (· != q)) (l := cs)
    have hn := List.head?_dropWhile_not (· != q) cs
    cases hr : cs.dropWhile (· != q) with
    | nil =>
      rw [hr, List.append_nil] at hs
      rw [hs] at hl
      exact absurd hl (lt_irrefl _)
    | cons d r =>
      rw [hr] at hs hn
      obtain rfl : d = q := by simpa using hn
      refine ⟨r, ?_⟩
      show d :: (_ ++ [d] ++ r) = d :: cs
      rw [List.append_assoc]
      exact congrArg _ hs
  · cases h

theorem numeral_isPrefix (cs : List Char) : (numeral cs).2 <+: cs := by
  obtain ⟨ds, hd, ⟨r, rfl⟩ | ⟨r, rfl, hr⟩⟩ := digits_cases cs
  · rw [numeral_point hd]
    exact (List.prefix_append_right_inj ds).2 (List.cons_prefix_cons.2 ⟨rfl, List.takeWhile_prefix _⟩)
  · rw [numeral_stop hd hr]
    exact List.prefix_append ds r

theorem pointed_isPrefix (cs : List Char) : (pointed cs).2 <+: '.' :: cs := by
  cases cs with
  | nil => exact List.prefix_rfl
  | cons c cs =>
    rw [pointed_cons]
    split
    · exact List.cons_prefix_cons.2 ⟨rfl, List.cons_prefix_cons.2 ⟨rfl, List.takeWhile_prefix _⟩⟩
    · split
      · rename_i hc
        rw [hc]
        exact List.cons_prefix_cons.2 ⟨rfl, List.cons_prefix_cons.2 ⟨rfl, List.nil_prefix⟩⟩
      · exact List.cons_prefix_cons.2 ⟨rfl, List.nil_prefix⟩

theorem isPrefix_of_head? {c d : Char} {cs : List Char} (h : cs.head? = some d) :
    [c, d] <+: c :: cs := by
  cases cs with
  | nil => cases h
  | cons e cs =>
    cases h
    exact List.cons_prefix_cons.2 ⟨rfl, List.cons_prefix_cons.2 ⟨rfl, List.nil_prefix⟩⟩

theorem oneOrTwo_isPrefix (one two : TokenKind) (c d : Char) (cs : List Char) :
    (oneOrTwo one two c d cs).2 <+: c :: cs := by
  unfold oneOrTwo
  split
  · exact isPrefix_of_head? ‹_›
  · exact List.cons_prefix_cons.2 ⟨rfl, List.nil_prefix⟩

theorem operator?_isPrefix {c : Char} {cs : List Char} {r : TokenKind × List Char}
    (h : operator? c cs = some r) : r.2 <+: c :: cs := by
  unfold operator? at h
  split at h
  case h_1 | h_2 | h_3 | h_4 =>
    cases h
    exact oneOrTwo_isPrefix _ _ _ _ _
  case h_5 =>
    split at h
    · cases h
      exact isPrefix_of_head? ‹_›
    · cases h
  all_goals
    cases h
    try exact List.cons_prefix_cons.2 ⟨rfl, List.nil_prefix⟩

theorem lexeme?_isPrefix {cs t : List Char} {k : TokenKind} (h : lexeme? cs = some (k, t)) :
    t <+: cs := by
  cases cs with
  | nil => cases h
  | cons c cs =>
    simp only [lexeme?] at h
    split at h
    · obtain ⟨u, hu, he⟩ := Option.map_eq_some_iff.1 h
      cases he
      exact literal?_isPrefix hu
    · split at h
      · have := numeral_isPrefix (c :: cs)
        rwa [Option.some_inj.1 h] at this
      · split at h
        · rename_i hp
          obtain rfl : c = '.' := eq_of_beq hp
          have := pointed_isPrefix cs
          rwa [Option.some_inj.1 h] at this
        · split at h
          · cases h
            exact List.cons_prefix_cons.2 ⟨rfl, List.takeWhile_prefix _⟩
          · exact operator?_isPrefix h

end TreeQuery.XPath
