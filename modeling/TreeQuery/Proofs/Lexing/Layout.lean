import Mathlib.Data.List.Nodup
import TreeQuery.Proofs.Lexing.Lexeme

/-!
# How tokens lie in a text

A text is read as tokens exactly if it is laid out as these tokens: white space, a lexeme that what
follows does not go on with, and so forth (`tokensFrom_eq_ok_iff`). `Spelled` forgets where the
tokens lie and which `*` multiplies, so that a text can be shown to be readable without either.
-/

namespace TreeQuery.XPath

/-- Nothing but white space. -/
def Blank (cs : List Char) : Prop := ∀ c ∈ cs, Text.isSpace c = true

/-- A text that is one lexeme, and one that may be read. -/
structure IsLexeme (k : TokenKind) (text : List Char) : Prop where
  reads : lexeme? text = some (k, text)
  short : ¬(k = .integer ∧ maxDigits < text.length)

/-- The tokens `ts` lie in the text `cs`, which begins at `pos` and follows a token of kind
`last`. -/
inductive Laid : Option TokenKind → Nat → List Char → List Token → Prop where
  | nil {last : Option TokenKind} {pos : Nat} {gap : List Char} (blank : Blank gap) :
      Laid last pos gap []
  | cons {last : Option TokenKind} {pos : Nat} {k : TokenKind} {gap text rest : List Char}
      {ts : List Token} (blank : Blank gap) (lexeme : IsLexeme k text) (ended : Ended k text rest)
      (next : Laid (some (resolveStar last k)) (pos + gap.length + text.length) rest ts) :
      Laid last pos (gap ++ text ++ rest) (⟨resolveStar last k, text, pos + gap.length⟩ :: ts)

/-- A text is spelled by the lexemes `texts` in this order. -/
inductive Spelled : List Char → List (List Char) → Prop where
  | nil {gap : List Char} (blank : Blank gap) : Spelled gap []
  | cons {k : TokenKind} {gap text rest : List Char} {texts : List (List Char)}
      (blank : Blank gap) (lexeme : IsLexeme k text) (ended : Ended k text rest)
      (next : Spelled rest texts) : Spelled (gap ++ text ++ rest) (text :: texts)

/-! ## White space -/

theorem Blank.nil : Blank [] := by
  intro c hc
  cases hc

theorem Blank.cons {c : Char} {gap : List Char} (h : Text.isSpace c = true) (hg : Blank gap) :
    Blank (c :: gap) :=
  List.forall_mem_cons.2 ⟨h, hg⟩

theorem Blank.append {gap gap' : List Char} (h : Blank gap) (h' : Blank gap') :
    Blank (gap ++ gap') :=
  List.forall_mem_append.2 ⟨h, h'⟩

theorem Blank.ended {k : TokenKind} {t gap : List Char} (h : Blank gap) : Ended k t gap := by
  intro c hc
  exact extendedBy_of_standsAlone (standsAlone_of_isSpace (h c (List.mem_of_mem_head? hc)))

theorem IsLexeme.ne_nil {k : TokenKind} {text : List Char} (h : IsLexeme k text) : text ≠ [] :=
  lexeme?_ne_nil h.reads

theorem lexeme?_of_isSpace {c : Char} {cs : List Char} (h : Text.isSpace c = true) :
    lexeme? (c :: cs) = none := by
  simp only [Text.isSpace, Bool.or_eq_true, beq_iff_eq] at h
  rcases h with ((rfl | rfl) | rfl) | rfl <;> rfl

theorem IsLexeme.head {k : TokenKind} {text : List Char} (h : IsLexeme k text) :
    ∃ c cs, text = c :: cs ∧ Text.isSpace c = false := by
  obtain ⟨c, cs, rfl⟩ := List.exists_cons_of_ne_nil h.ne_nil
  refine ⟨c, cs, rfl, Bool.eq_false_iff.2 fun hs => ?_⟩
  have := h.reads
  rw [lexeme?_of_isSpace hs] at this
  cases this

/-! ## Reading -/

theorem resolveStar_of_ne {last : Option TokenKind} {k : TokenKind} (h : k ≠ .star) :
    resolveStar last k = k := by
  unfold resolveStar
  split
  · exact absurd rfl h
  · rfl

theorem tokensFrom_blank {last : Option TokenKind} {pos : Nat} {gap cs : List Char}
    (h : Blank gap) : tokensFrom last pos (gap ++ cs) = tokensFrom last (pos + gap.length) cs := by
  induction gap generalizing pos with
  | nil => rfl
  | cons c gap ih =>
    obtain ⟨hc, hg⟩ := List.forall_mem_cons.1 h
    rw [List.cons_append, tokensFrom, if_pos hc, ih hg, List.length_cons]
    congr 1
    omega

/-- What does not begin with white space is read lexeme by lexeme. -/
theorem tokensFrom_solid {last : Option TokenKind} {pos : Nat} {c : Char} {cs : List Char}
    (h : Text.isSpace c = false) : tokensFrom last pos (c :: cs) =
      match lexeme? (c :: cs) with
      | none => .error (.unknownText (String.ofList ((c :: cs).take 10)) pos)
      | some (k, t) =>
        if k = .integer ∧ maxDigits < t.length then .error (.tooManyDigits t.length)
        else
          (tokensFrom (some (resolveStar last k)) (pos + t.length) ((c :: cs).drop t.length)).map
            (⟨resolveStar last k, t, pos⟩ :: ·) := by
  rw [tokensFrom, if_neg (by simp [h])]
  split
  · next hl => rw [hl]
  · next hl => rw [hl]

theorem tokensFrom_lexeme {last : Option TokenKind} {pos : Nat} {k : TokenKind}
    {text rest : List Char} (h : IsLexeme k text) (he : Ended k text rest) :
    tokensFrom last pos (text ++ rest) =
      (tokensFrom (some (resolveStar last k)) (pos + text.length) rest).map
        (⟨resolveStar last k, text, pos⟩ :: ·) := by
  have hl := lexeme?_append_iff.2 ⟨h.reads, he⟩
  obtain ⟨c, cs, rfl, hc⟩ := h.head
  rw [List.cons_append] at hl ⊢
  rw [tokensFrom_solid hc, hl]
  dsimp only
  rw [if_neg h.short, ← List.cons_append, List.drop_left]

theorem Laid.tokensFrom_eq {last : Option TokenKind} {pos : Nat} {cs : List Char}
    {ts : List Token} (h : Laid last pos cs ts) : tokensFrom last pos cs = .ok ts := by
  induction h with
  | nil blank =>
    rename_i last pos gap
    rw [← List.append_nil gap, tokensFrom_blank blank, tokensFrom]
  | cons blank lexeme ended _ ih =>
    rw [List.append_assoc, tokensFrom_blank blank, tokensFrom_lexeme lexeme ended, ih]
    rfl

/-- White space before a text moves its tokens. -/
theorem Laid.blank_append {last : Option TokenKind} {pos : Nat} {c : Char} {cs : List Char}
    {ts : List Token} (hc : Text.isSpace c = true) (h : Laid last (pos + 1) cs ts) :
    Laid last pos (c :: cs) ts := by
  cases h with
  | nil blank => exact .nil (blank.cons hc)
  | cons blank lexeme ended next =>
    rename_i k gap text rest ts
    have e : pos + 1 + gap.length = pos + (c :: gap).length := by
      rw [List.length_cons]
      omega
    rw [e] at next ⊢
    show Laid last pos (c :: gap ++ text ++ rest) _
    exact .cons (blank.cons hc) lexeme ended next

theorem laid_of_tokensFrom {last : Option TokenKind} {pos : Nat} {cs : List Char}
    {ts : List Token} (h : tokensFrom last pos cs = .ok ts) : Laid last pos cs ts := by
  fun_induction tokensFrom last pos cs generalizing ts
  case case1 =>
    cases h
    exact .nil .nil
  case case2 hc ih => exact (ih h).blank_append hc
  case case3 => cases h
  case case4 => cases h
  case case5 last pos c rest hc k t hl hs kind ih =>
    obtain ⟨us, hu, he⟩ := map_eq_ok h
    obtain ⟨tail, ht⟩ := lexeme?_isPrefix hl
    have hk := ih hu
    rw [← ht, List.drop_left] at hk
    rw [← ht] at hl ⊢
    obtain ⟨hr, he'⟩ := lexeme?_append_iff.1 hl
    rw [← he]
    show Laid last pos ([] ++ t ++ tail) _
    exact .cons .nil ⟨hr, hs⟩ he' hk

/-- A text is read as the tokens it is laid out as, and as no others. -/
theorem tokensFrom_eq_ok_iff {last : Option TokenKind} {pos : Nat} {cs : List Char}
    {ts : List Token} : tokensFrom last pos cs = .ok ts ↔ Laid last pos cs ts :=
  ⟨laid_of_tokensFrom, Laid.tokensFrom_eq⟩

/-- Reads at most `fuel` lexemes and blanks, so that tokens can be computed. -/
def readFrom (last : Option TokenKind) (pos : Nat) : Nat → List Char → Option (List Token)
  | _, [] => some []
  | 0, _ => none
  | fuel + 1, c :: rest =>
    if Text.isSpace c then readFrom last (pos + 1) fuel rest
    else
      match lexeme? (c :: rest) with
      | none => none
      | some (k, t) =>
        if k = .integer ∧ maxDigits < t.length then none
        else
          (readFrom (some (resolveStar last k)) (pos + t.length) fuel
            ((c :: rest).drop t.length)).map (⟨resolveStar last k, t, pos⟩ :: ·)

theorem tokensFrom_of_readFrom {last : Option TokenKind} {pos fuel : Nat} {cs : List Char}
    {ts : List Token} (h : readFrom last pos fuel cs = some ts) :
    tokensFrom last pos cs = .ok ts := by
  fun_induction readFrom last pos fuel cs generalizing ts
  case case1 =>
    cases h
    rw [tokensFrom]
  case case2 => cases h
  case case3 hc ih =>
    rw [tokensFrom, if_pos hc]
    exact ih h
  case case4 => cases h
  case case5 => cases h
  case case6 hc k t hl hs ih =>
    obtain ⟨us, hu, rfl⟩ := Option.map_eq_some_iff.1 h
    rw [tokensFrom_solid (Bool.eq_false_iff.2 hc), hl]
    dsimp only
    rw [if_neg hs, ih hu]
    rfl

theorem tokenize_of_readFrom {expression : String} {ts : List Token}
    (h : readFrom none 0 expression.length expression.toList = some ts) :
    tokenize expression = .ok ts :=
  tokensFrom_of_readFrom h

/-! ## Texts that do not begin with white space -/

/-- A text that does not begin with white space. -/
def Near (cs : List Char) : Prop := ∀ c ∈ cs.head?, Text.isSpace c = false

theorem IsLexeme.near {k : TokenKind} {x : List Char} (h : IsLexeme k x) (rest : List Char) :
    Near (x ++ rest) := by
  obtain ⟨c, cs, rfl, hc⟩ := h.head
  intro d hd
  cases hd
  exact hc

theorem Laid.near_iff {last : Option TokenKind} {pos : Nat} {cs : List Char} {ts : List Token}
    (h : Laid last pos cs ts) {u : Token} (hu : u ∈ ts.head?) : Near cs ↔ pos = u.start := by
  cases h with
  | nil => cases hu
  | @cons last pos k gap text rest ts blank lexeme ended next =>
    cases hu
    cases gap with
    | nil => exact iff_of_true (lexeme.near rest) rfl
    | cons c gap =>
      refine iff_of_false (fun hn => ?_) (Nat.ne_of_lt (Nat.lt_add_of_pos_right (Nat.succ_pos _)))
      have hc := hn c rfl
      rw [blank c List.mem_cons_self] at hc
      cases hc

/-! ## Spelling -/

theorem Spelled.laid {cs : List Char} {texts : List (List Char)} (h : Spelled cs texts)
    (last : Option TokenKind) (pos : Nat) :
    ∃ ts, Laid last pos cs ts ∧ ts.map Token.text = texts := by
  induction h generalizing last pos with
  | nil blank => exact ⟨[], .nil blank, rfl⟩
  | cons blank lexeme ended _ ih =>
    obtain ⟨ts, hl, rfl⟩ := ih (some (resolveStar last _)) (pos + _ + _)
    exact ⟨_, .cons blank lexeme ended hl, rfl⟩

/-- A spelled text can be read, and its tokens are its lexemes. -/
theorem Spelled.tokenize {cs : List Char} {texts : List (List Char)} (h : Spelled cs texts) :
    ∃ ts, tokenize (String.ofList cs) = .ok ts ∧ ts.map Token.text = texts := by
  obtain ⟨ts, hl, ht⟩ := h.laid none 0
  refine ⟨ts, ?_, ht⟩
  rw [XPath.tokenize, String.toList_ofList]
  exact hl.tokensFrom_eq

theorem Spelled.blank_append {gap cs : List Char} {texts : List (List Char)} (hg : Blank gap)
    (h : Spelled cs texts) : Spelled (gap ++ cs) texts := by
  cases h with
  | nil blank => exact .nil (hg.append blank)
  | cons blank lexeme ended next =>
    rw [List.append_assoc, ← List.append_assoc, ← List.append_assoc]
    exact .cons (hg.append blank) lexeme ended next

theorem Spelled.lexeme_append {k : TokenKind} {text cs : List Char} {texts : List (List Char)}
    (ht : IsLexeme k text) (he : Ended k text cs) (h : Spelled cs texts) :
    Spelled (text ++ cs) (text :: texts) :=
  .cons .nil ht he h

/-- The lexemes of a text. -/
def lexemesOf (s : String) : List (List Char) :=
  match tokenize s with
  | .ok ts => ts.map Token.text
  | .error _ => []

theorem Spelled.lexemesOf_eq {s : String} {texts : List (List Char)} (h : Spelled s.toList texts) :
    lexemesOf s = texts := by
  obtain ⟨ts, ht, rfl⟩ := h.tokenize
  rw [String.ofList_toList] at ht
  rw [lexemesOf, ht]

/-! ## What ends a token -/

/-- Whether a `*` multiplies makes no difference to what follows it. -/
theorem extendedBy_resolveStar (last : Option TokenKind) (k : TokenKind) (t : List Char)
    (c : Char) : extendedBy (resolveStar last k) t c = extendedBy k t c := by
  unfold resolveStar
  split
  · split <;> rfl
  · rfl

theorem ended_resolveStar {last : Option TokenKind} {k : TokenKind} {t rest : List Char} :
    Ended (resolveStar last k) t rest ↔ Ended k t rest := by
  simp only [Ended, extendedBy_resolveStar]

/-- Only the first character matters. -/
theorem Ended.of_append {k : TokenKind} {t cs rest rest' : List Char} (hn : cs ≠ [])
    (h : Ended k t (cs ++ rest)) : Ended k t (cs ++ rest') := by
  obtain ⟨c, cs, rfl⟩ := List.exists_cons_of_ne_nil hn
  exact h

theorem ended_standsAlone {k : TokenKind} {t : List Char} {c : Char} {cs : List Char}
    (h : standsAlone c = true) : Ended k t (c :: cs) := by
  intro d hd
  obtain rfl : c = d := Option.some_inj.1 hd
  exact extendedBy_of_standsAlone h

theorem Ended.blank_append {k : TokenKind} {t gap cs : List Char} (hb : Blank gap)
    (h : Ended k t cs) : Ended k t (gap ++ cs) := by
  cases gap with
  | nil => exact h
  | cons c gap => exact ended_standsAlone (standsAlone_of_isSpace (hb c List.mem_cons_self))

theorem ended_slash {k : TokenKind} {t cs : List Char} (h : k ≠ .slash) :
    Ended k t ('/' :: cs) := by
  intro d hd
  obtain rfl : '/' = d := Option.some_inj.1 hd
  rw [extendedBy_slash, beq_false_of_ne h]

/-! ## Tokens in order -/

/-- Tokens that are not empty and follow each other. -/
structure Ordered (ts : List Token) : Prop where
  sorted : ts.Pairwise fun a b => a.stop ≤ b.start
  proper : ∀ t ∈ ts, t.start < t.stop

theorem Laid.ordered {last : Option TokenKind} {pos : Nat} {cs : List Char} {ts : List Token}
    (h : Laid last pos cs ts) : Ordered ts ∧ ∀ t ∈ ts, pos ≤ t.start := by
  induction h with
  | nil => exact ⟨⟨.nil, by simp⟩, by simp⟩
  | cons blank lexeme ended next ih =>
    rename_i pos k gap text rest ts
    obtain ⟨⟨hs, hp⟩, hb⟩ := ih
    have hl := List.length_pos_iff.2 lexeme.ne_nil
    refine ⟨⟨List.pairwise_cons.2 ⟨hb, hs⟩, List.forall_mem_cons.2 ⟨?_, hp⟩⟩, ?_⟩
    · show pos + gap.length < pos + gap.length + text.length
      omega
    · refine List.forall_mem_cons.2 ⟨Nat.le_add_right _ _, fun t ht => ?_⟩
      have := hb t ht
      omega

namespace Ordered

variable {ts us vs : List Token} {t u : Token}

theorem of_cons (h : Ordered (t :: ts)) : Ordered ts :=
  ⟨(List.pairwise_cons.1 h.sorted).2, fun u hu => h.proper u (List.mem_cons_of_mem _ hu)⟩

theorem start_lt (h : Ordered (t :: ts)) (hu : u ∈ ts) : t.start < u.start := by
  have hs := (List.pairwise_cons.1 h.sorted).1 u hu
  have hp := h.proper t List.mem_cons_self
  omega

theorem starts (h : Ordered ts) : (ts.map Token.start).Pairwise (· < ·) := by
  rw [List.pairwise_map]
  refine h.sorted.imp_of_mem fun ha _ hab => ?_
  have := h.proper _ ha
  omega

theorem stops (h : Ordered ts) : (ts.map Token.stop).Pairwise (· < ·) := by
  rw [List.pairwise_map]
  refine h.sorted.imp_of_mem fun _ hb hab => ?_
  have := h.proper _ hb
  omega

theorem eq_of_stop (h : Ordered ts) (ht : t ∈ ts) (hu : u ∈ ts) (hs : t.stop = u.stop) : t = u :=
  List.inj_on_of_nodup_map (h.stops.imp Nat.ne_of_lt) ht hu hs

theorem eq_of_start (h : Ordered ts) {us' vs' : List Token} (he : ts = us ++ t :: vs)
    (he' : ts = us' ++ u :: vs') (hs : t.start = u.start) : us = us' ∧ t = u ∧ vs = vs' := by
  subst he
  induction us generalizing us' with
  | nil =>
    cases us' with
    | nil =>
      cases he'
      exact ⟨rfl, rfl, rfl⟩
    | cons a us' =>
      cases he'
      have := h.start_lt (u := u) (by simp)
      omega
  | cons a us ih =>
    cases us' with
    | nil =>
      cases he'
      have := h.start_lt (u := t) (by simp)
      omega
    | cons b us' =>
      obtain ⟨rfl, htail⟩ := List.cons.inj he'
      have hi := ih h.of_cons htail
      exact ⟨congrArg (a :: ·) hi.1, hi.2⟩

theorem getLast?_of_stop (h : Ordered (us ++ t :: vs)) (hu : u ∈ us ++ t :: vs)
    (hs : u.stop = t.start) : us.getLast? = some u := by
  induction us with
  | nil =>
    have hp := h.proper u hu
    rcases List.mem_cons.1 hu with rfl | hu
    · omega
    · have := h.start_lt hu
      omega
  | cons a us ih =>
    rcases List.mem_cons.1 hu with rfl | hu
    · cases us with
      | nil => rfl
      | cons b us =>
        have hb := (List.pairwise_cons.1 h.sorted).1 b List.mem_cons_self
        have := h.of_cons.start_lt (u := t) (by simp)
        omega
    · rw [List.getLast?_cons, ih h.of_cons hu]
      rfl

theorem eq_cons_of_stop (h : Ordered ts) {us' vs' : List Token} (he : ts = us ++ t :: vs)
    (he' : ts = us' ++ u :: vs') (hs : u.stop = t.start) : vs' = t :: vs := by
  have hl := (he ▸ h).getLast?_of_stop (u := u) (by rw [← he, he']; simp) hs
  obtain ⟨ws, rfl⟩ := List.getLast?_eq_some_iff.1 hl
  rw [List.append_assoc] at he
  exact (h.eq_of_start he' he rfl).2.2

end Ordered

end TreeQuery.XPath
