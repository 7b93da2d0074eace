import TreeQuery.Proofs.Grammar.Written
import TreeQuery.Proofs.Rewriting.Fitting

/-!
# Glue around colons

Anchors leave a colon next to the names around it: nothing is put in before or after it, and what
is put in elsewhere does not begin with white space (`glued_changed`).
-/

namespace TreeQuery.XPath

/-- A text that is a colon. -/
def IsColon (x : List Char) : Prop := (lexeme? x).map Prod.fst = some .colon

/-- No white space stands around the colons of a text that is spelled by some lexemes. -/
def Tight : List Char → List (List Char) → Prop
  | _, [] => True
  | cs, x :: xs =>
    let rest := (cs.dropWhile Text.isSpace).drop x.length
    ((∃ y ∈ xs.head?, IsColon x ∨ IsColon y) → Near rest) ∧ Tight rest xs

theorem isColon_iff {t : Token} (h : t.IsLexeme) : IsColon t.text ↔ t.kind = .colon := by
  obtain ⟨last, k, hk, ht⟩ := h
  rw [IsColon, ht.reads, Option.map_some, Option.some_inj, hk]
  by_cases hs : k = .star
  · subst hs
    refine iff_of_false nofun ?_
    unfold resolveStar
    split
    · split <;> exact nofun
    · next hne => exact nofun
  · unfold resolveStar
    split
    · exact absurd rfl hs
    · exact Iff.rfl

theorem dropWhile_blank {gap cs : List Char} (h : Blank gap) :
    (gap ++ cs).dropWhile Text.isSpace = cs.dropWhile Text.isSpace :=
  List.dropWhile_append_of_pos h

theorem Near.dropWhile {cs : List Char} (h : Near cs) : cs.dropWhile Text.isSpace = cs := by
  cases cs with
  | nil => rfl
  | cons c cs =>
    rw [List.dropWhile_cons, h c rfl]
    rfl

theorem tight_blank {gap cs : List Char} {xs : List (List Char)} (h : Blank gap) :
    Tight (gap ++ cs) xs ↔ Tight cs xs := by
  cases xs with
  | nil => exact Iff.rfl
  | cons x xs => rw [Tight, Tight, dropWhile_blank h]

theorem tight_lexeme {k : TokenKind} {x rest : List Char} {xs : List (List Char)}
    (h : IsLexeme k x) : Tight (x ++ rest) (x :: xs) ↔
      ((∃ y ∈ xs.head?, IsColon x ∨ IsColon y) → Near rest) ∧ Tight rest xs := by
  rw [Tight, (h.near rest).dropWhile, List.drop_left]

/-- A text without colons may stand before lexemes that do not begin with one. -/
theorem Spelled.tight {cs : List Char} {us : List (List Char)} (h : Spelled cs us)
    (hu : ∀ x ∈ us, ¬IsColon x) {rest : List Char} {xs : List (List Char)}
    (hx : ∀ x ∈ xs.head?, ¬IsColon x) (ht : Tight rest xs) : Tight (cs ++ rest) (us ++ xs) := by
  induction h with
  | nil blank => exact (tight_blank blank).2 ht
  | cons blank lexeme ended next ih =>
    rename_i k gap text rest' texts
    obtain ⟨htext, hu⟩ := List.forall_mem_cons.1 hu
    rw [List.append_assoc, List.append_assoc, tight_blank blank, List.cons_append,
      tight_lexeme lexeme]
    refine ⟨?_, ih hu⟩
    rintro ⟨y, hy, hc | hc⟩
    · exact absurd hc htext
    · cases texts with
      | nil => exact absurd hc (hx y hy)
      | cons z texts =>
        cases hy
        exact absurd hc (hu y List.mem_cons_self)

theorem Laid.glued {last : Option TokenKind} {pos : Nat} {cs : List Char} {ts : List Token}
    (h : Laid last pos cs ts) (ht : Tight cs (ts.map Token.text)) : Glued ts := by
  induction h with
  | nil => exact .nil
  | cons blank lexeme ended next ih =>
    rename_i last pos k gap text rest ts
    rw [List.append_assoc, tight_blank blank, List.map_cons, tight_lexeme lexeme] at ht
    refine List.isChain_cons.2 ⟨fun u hu hk => ?_, ih ht.2⟩
    have hlex : Token.IsLexeme ⟨resolveStar last k, text, pos + gap.length⟩ := ⟨_, _, rfl, lexeme⟩
    cases ts with
    | nil => cases hu
    | cons v ts =>
      cases hu
      have hnear : Near rest := by
        refine ht.1 ⟨u.text, rfl, hk.imp ?_ ?_⟩
        · exact (isColon_iff hlex).2
        · exact (isColon_iff (next.isLexeme u List.mem_cons_self)).2
      exact (next.near_iff rfl).1 hnear

/-! ## Insertions -/

/-- A text that anchors put before tokens. -/
def IsOpening (s : String) : Prop := s = "/" ∨ s = "(false() and "

/-- A text that anchors put after tokens. -/
def IsClosing (s : String) : Prop := s = "/" ∨ s = ")"

theorem IsOpening.not_colon {s : String} (h : IsOpening s) : ∀ x ∈ lexemesOf s, ¬IsColon x := by
  unfold IsColon
  rcases h with rfl | rfl
  · rw [lexemesOf_slash]
    decide
  · rw [lexemesOf_falseAnd]
    decide

theorem IsOpening.near {s : String} (h : IsOpening s) (rest : List Char) :
    Near (s.toList ++ rest) := by
  rcases h with rfl | rfl <;> intro c hc <;> cases hc <;> rfl

theorem IsClosing.lexeme {s : String} (h : IsClosing s) :
    ∃ k, IsLexeme k s.toList ∧ lexemesOf s = [s.toList] ∧ ¬IsColon s.toList := by
  unfold IsColon
  rcases h with rfl | rfl
  · exact ⟨.slash, ⟨rfl, by decide⟩, lexemesOf_slash, by decide⟩
  · exact ⟨.closeParen, ⟨rfl, by decide⟩, lexemesOf_closeParen, by decide⟩

theorem near_openings {ss : List String} (h : ∀ s ∈ ss, IsOpening s) {rest : List Char}
    (hr : Near rest) : Near (ss.flatMap String.toList ++ rest) := by
  cases ss with
  | nil => exact hr
  | cons s ss =>
    rw [List.flatMap_cons, List.append_assoc]
    exact (h s List.mem_cons_self).near _

theorem near_closings {ss : List String} (h : ∀ s ∈ ss, IsClosing s) {rest : List Char}
    (hr : ss = [] → Near rest) : Near (ss.flatMap String.toList ++ rest) := by
  cases ss with
  | nil => exact hr rfl
  | cons s ss =>
    obtain ⟨k, hk, -⟩ := (h s List.mem_cons_self).lexeme
    rw [List.flatMap_cons, List.append_assoc]
    exact hk.near _

theorem tight_closings {ss : List String} (h : ∀ s ∈ ss, IsClosing s) {rest : List Char}
    {xs : List (List Char)} (hx : (∃ x ∈ xs.head?, IsColon x) → Near rest) (ht : Tight rest xs) :
    Tight (ss.flatMap String.toList ++ rest) (ss.flatMap lexemesOf ++ xs) := by
  induction ss with
  | nil => exact ht
  | cons s ss ih =>
    obtain ⟨hs, h⟩ := List.forall_mem_cons.1 h
    obtain ⟨k, hk, hl, hn⟩ := hs.lexeme
    rw [List.flatMap_cons, List.flatMap_cons, List.append_assoc, List.append_assoc, hl,
      List.singleton_append, tight_lexeme hk]
    refine ⟨?_, ih h⟩
    rintro ⟨y, hy, hc | hc⟩
    · exact absurd hc hn
    · refine near_closings h fun he => hx ⟨y, ?_, hc⟩
      rwa [he] at hy

/-- What is put before and after tokens leaves colons alone. -/
structure Spares (change : Block → Change) (t : Token) : Prop where
  fits : (change (.single t)).Fits (.single t)
  before : ∀ s ∈ (change (.single t)).before, IsOpening s
  instead : (change (.single t)).instead = none
  after : ∀ s ∈ (change (.single t)).after, IsClosing s
  colon : t.kind = .colon → (change (.single t)).before = []

namespace Spares

variable {change : Block → Change} {t : Token} {out : List Char} {xs : List (List Char)}

theorem made_eq (h : Spares change t) : (change (.single t)).made t.text =
    (change (.single t)).before.flatMap String.toList ++
      (t.text ++ (change (.single t)).after.flatMap String.toList) := by
  rw [Change.made, h.instead, List.append_assoc]
  rfl

theorem lexemes_eq (h : Spares change t) : (change (.single t)).lexemes (.single t) =
    (change (.single t)).before.flatMap lexemesOf ++
      (t.text :: (change (.single t)).after.flatMap lexemesOf) := by
  rw [Change.lexemes, h.instead, List.append_assoc]
  rfl

theorem not_colon_before (h : Spares change t) :
    ∀ x ∈ (change (.single t)).before.flatMap lexemesOf, ¬IsColon x := by
  intro x hx
  obtain ⟨s, hs, hx⟩ := List.mem_flatMap.1 hx
  exact (h.before s hs).not_colon x hx

/-- A token and what is put after it are tight if what follows stands next to colons. -/
theorem tight_after (h : Spares change t) (hl : t.IsLexeme)
    (hnear : (∃ x ∈ xs.head?, t.kind = .colon ∨ IsColon x) → Near out) (ht : Tight out xs) :
    Tight (t.text ++ ((change (.single t)).after.flatMap String.toList ++ out))
      (t.text :: ((change (.single t)).after.flatMap lexemesOf ++ xs)) := by
  obtain ⟨k, hk⟩ : ∃ k, IsLexeme k t.text := by
    obtain ⟨last, k, -, hl⟩ := hl
    exact ⟨k, hl⟩
  refine (tight_lexeme hk).2 ⟨?_, tight_closings h.after (fun ⟨x, hx, hc⟩ => hnear ⟨x, hx, .inr hc⟩)
    ht⟩
  rintro ⟨y, hy, hc⟩
  refine near_closings h.after fun he => ?_
  rw [he] at hy
  exact hnear ⟨y, hy, hc.imp_left (isColon_iff hl).1⟩

theorem tight (h : Spares change t) (hl : t.IsLexeme)
    (hnear : (∃ x ∈ xs.head?, t.kind = .colon ∨ IsColon x) → Near out) (ht : Tight out xs) :
    Tight ((change (.single t)).made t.text ++ out)
      ((change (.single t)).lexemes (.single t) ++ xs) := by
  have htoken := h.tight_after hl hnear ht
  rw [h.made_eq, h.lexemes_eq, List.append_assoc, List.append_assoc, List.append_assoc]
  by_cases hb : (change (.single t)).before = []
  · rw [hb]
    exact htoken
  · have hspelled := (h.fits.spelled_before (.nil .nil) fun _ => Blank.nil.ended).1
    rw [List.append_nil, List.append_nil] at hspelled
    refine hspelled.tight h.not_colon_before (fun x hx hc => hb ?_) htoken
    cases hx
    exact h.colon ((isColon_iff hl).1 hc)

theorem near (h : Spares change t) (hl : t.IsLexeme) :
    Near ((change (.single t)).made t.text ++ out) := by
  obtain ⟨last, k, -, hk⟩ := hl
  rw [h.made_eq, List.append_assoc, List.append_assoc]
  exact near_openings h.before (hk.near _)

/-- What is put before a token makes no colon come first. -/
theorem colon_of_head (h : Spares change t) (hl : t.IsLexeme) {y : List Char}
    (hy : y ∈ ((change (.single t)).lexemes (.single t) ++ xs).head?) (hc : IsColon y) :
    t.kind = .colon := by
  rw [h.lexemes_eq, List.append_assoc, List.head?_append] at hy
  cases hh : ((change (.single t)).before.flatMap lexemesOf).head? with
  | none =>
    rw [hh] at hy
    cases hy
    exact (isColon_iff hl).1 hc
  | some z =>
    rw [hh] at hy
    cases hy
    exact absurd hc (h.not_colon_before y (List.mem_of_mem_head? hh))

end Spares

theorem tight_changed {change : Block → Change} {last : Option TokenKind} {pre cs : List Char}
    {ts : List Token} (h : Laid last pre.length cs ts) (hg : Glued ts)
    (hs : ∀ t ∈ ts, Spares change t) :
    let bs := ts.map Block.single
    let out := spliceFrom (pre ++ cs) pre.length
      (bs.flatMap fun b => (change b).replacements b.start b.stop)
    let texts := bs.flatMap fun b => (change b).lexemes b
    Tight out texts ∧ (Near cs → Near out) ∧
      ((∃ y ∈ texts.head?, IsColon y) → ∃ t ∈ ts.head?, t.kind = .colon) := by
  induction ts generalizing last pre cs with
  | nil =>
    intro bs out texts
    have hout : out = cs := by
      show (pre ++ cs).drop pre.length = cs
      rw [List.drop_left]
    rw [hout]
    refine ⟨trivial, id, ?_⟩
    rintro ⟨y, hy, -⟩
    cases hy
  | cons t ts ih =>
    intro bs out texts
    obtain ⟨hst, hs⟩ := List.forall_mem_cons.1 hs
    obtain ⟨hgt, hg⟩ := List.isChain_cons.1 hg
    have hl := h.isLexeme t List.mem_cons_self
    obtain ⟨gap, rest, rfl, hc⟩ := h.cut_one
    obtain ⟨ht, hn, hcolon⟩ := ih (hc.stop_eq ▸ hc.next) hg hs
    have hout : out = gap ++ ((change (.single t)).made t.text ++ spliceFrom
        (pre ++ (gap ++ t.text) ++ rest) (pre ++ (gap ++ t.text)).length
        ((ts.map Block.single).flatMap fun b => (change b).replacements b.start b.stop)) := by
      rw [← Block.tokens_singles ts] at hc
      rw [← List.append_assoc]
      exact Cut.spliceFrom_changed (b := .single t) hc
    rw [hout]
    refine ⟨(tight_blank hc.blank).2 (hst.tight hl ?_ ht), fun hnear => ?_, ?_⟩
    · rintro ⟨y, hy, hk⟩
      obtain ⟨u, hu, hk⟩ : ∃ u ∈ ts.head?, t.kind = .colon ∨ u.kind = .colon := by
        rcases hk with hk | hk
        · cases ts with
          | nil => cases hy
          | cons u ts => exact ⟨u, rfl, .inl hk⟩
        · obtain ⟨u, hu, hk⟩ := hcolon ⟨y, hy, hk⟩
          exact ⟨u, hu, .inr hk⟩
      exact hn ((hc.next.near_iff hu).2 (hgt u hu hk))
    · cases gap with
      | nil => exact hst.near hl
      | cons c gap =>
        have := hnear c rfl
        rw [hc.blank c List.mem_cons_self] at this
        cases this
    · rintro ⟨y, hy, hk⟩
      exact ⟨t, rfl, hst.colon_of_head hl hy hk⟩

end TreeQuery.XPath
