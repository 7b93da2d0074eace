import TreeQuery.Proofs.Lexing.Coverage
import TreeQuery.Proofs.Lexing.Operand

/-!
# Texts parted by white space

No lexeme goes on across white space, so what stands after it is read as it would be by itself, only
further on (`tokenize_parted`). The one thing that a text takes over from what is before it is
whether an operand is expected, and that is forgotten after the stars at its front (`Resumed`).
-/

namespace TreeQuery.XPath

/-- The same token `n` characters further on. -/
def Token.moved (n : Nat) (t : Token) : Token := { t with start := n + t.start }

/-- What is wrong with a text that begins `n` characters further on. -/
def movedFault (n : Nat) : Failure → Failure
  | .unknownText text p => .unknownText text (n + p)
  | fault => fault

/-- The tokens of a text, and what they are `n` characters further on after a token of kind `last`.
Each `*` at the front goes by the token before it; all that follows stays as it is. -/
inductive Resumed (n : Nat) : Option TokenKind → List Token → List Token → Prop where
  | rest {last : Option TokenKind} {ts : List Token} (solid : ∀ t ∈ ts.head?, t.text ≠ ['*']) :
      Resumed n last ts (ts.map (Token.moved n))
  | star {last : Option TokenKind} {t t' : Token} {ts ts' : List Token} (text : t.text = ['*'])
      (text' : t'.text = ['*']) (start : t'.start = n + t.start) (value : t'.value = t.value)
      (kind : t'.kind = if expectsOperand last then .star else .times)
      (next : Resumed n (some t'.kind) ts ts') : Resumed n last (t :: ts) (t' :: ts')

/-- What reading a text comes to, and what it comes to `n` characters further on after a token of
kind `last`. -/
inductive Resumption (n : Nat) (last : Option TokenKind) :
    Except Failure (List Token) → Except Failure (List Token) → Prop where
  | ok {ts ts' : List Token} (tokens : Resumed n last ts ts') : Resumption n last (.ok ts) (.ok ts')
  | error (fault : Failure) : Resumption n last (.error fault) (.error (movedFault n fault))

variable {last last' : Option TokenKind} {pos n : Nat} {cs rest : List Char} {ts : List Token}
  {answer answer' : Except Failure (List Token)}

/-! ## Reading further on -/

/-- After the same token a text is read in the same way wherever it begins. -/
theorem tokensFrom_moved (n : Nat) (last : Option TokenKind) (pos : Nat) (cs : List Char) :
    tokensFrom last (n + pos) cs =
      ((tokensFrom last pos cs).map (List.map (Token.moved n))).mapError (movedFault n) := by
  fun_induction tokensFrom last pos cs with
  | case1 =>
    rw [tokensFrom]
    rfl
  | case2 last pos c cs hc ih =>
    rw [tokensFrom, if_pos hc]
    exact ih
  | case3 last pos c cs hc hl =>
    rw [tokensFrom_solid (Bool.eq_false_iff.2 hc), hl]
    rfl
  | case4 last pos c cs hc k t hl hlong =>
    rw [tokensFrom_solid (Bool.eq_false_iff.2 hc), hl]
    dsimp only
    rw [if_pos hlong]
    rfl
  | case5 last pos c cs hc k t hl hshort kind ih =>
    rw [tokensFrom_solid (Bool.eq_false_iff.2 hc), hl]
    dsimp only
    rw [if_neg hshort, Nat.add_assoc, ih]
    cases tokensFrom (some kind) (pos + t.length) ((c :: cs).drop t.length) <;> rfl

/-- After a token that is no `*` it makes no difference what was before. -/
theorem resumption_cons {t : Token} (ht : t.text ≠ ['*']) (answer : Except Failure (List Token)) :
    Resumption n last (answer.map (t :: ·))
      (((answer.map (List.map (Token.moved n))).mapError (movedFault n)).map (t.moved n :: ·)) := by
  cases answer with
  | error fault => exact .error fault
  | ok ts =>
    have htokens : Resumed n last (t :: ts) ((t :: ts).map (Token.moved n)) :=
      .rest fun u hu => Option.some_inj.1 hu ▸ ht
    exact .ok htokens

theorem resolveStar_star (last : Option TokenKind) :
    resolveStar last .star = if expectsOperand last then .star else .times := by
  cases last <;> rfl

theorem value_resolveStar_star (last : Option TokenKind) (start : Nat) :
    Token.value ⟨resolveStar last .star, ['*'], start⟩ = .text "*" := by
  rcases (times_iff_expectsOperand last).2 with h | h <;> rw [h] <;> rfl

/-- A `*` goes by what was before, and what follows goes by it. -/
theorem Resumption.star_cons (h : Resumption n (some (resolveStar last' .star)) answer answer') :
    Resumption n last' (answer.map (⟨resolveStar last .star, ['*'], pos⟩ :: ·))
      (answer'.map (⟨resolveStar last' .star, ['*'], n + pos⟩ :: ·)) := by
  cases h with
  | error fault => exact .error fault
  | ok tokens =>
    have hvalue := (value_resolveStar_star last' (n + pos)).trans (value_resolveStar_star last pos).symm
    exact .ok (.star rfl rfl rfl hvalue (resolveStar_star last') tokens)

/-- After another token a text is read in the same way, but for the stars at its front. -/
theorem resumption_tokensFrom (n : Nat) (last' last : Option TokenKind) (pos : Nat)
    (cs : List Char) :
    Resumption n last' (tokensFrom last pos cs) (tokensFrom last' (n + pos) cs) := by
  fun_induction tokensFrom last pos cs generalizing last' with
  | case1 =>
    rw [tokensFrom]
    exact .ok (.rest (by simp))
  | case2 last pos c cs hc ih =>
    rw [tokensFrom, if_pos hc]
    exact ih last'
  | case3 last pos c cs hc hl =>
    rw [tokensFrom_solid (Bool.eq_false_iff.2 hc), hl]
    exact .error (.unknownText _ _)
  | case4 last pos c cs hc k t hl hlong =>
    rw [tokensFrom_solid (Bool.eq_false_iff.2 hc), hl]
    dsimp only
    rw [if_pos hlong]
    exact .error (.tooManyDigits _)
  | case5 last pos c cs hc k t hl hshort kind ih =>
    rw [tokensFrom_solid (Bool.eq_false_iff.2 hc), hl]
    dsimp only
    rw [if_neg hshort, Nat.add_assoc]
    obtain ⟨tail, htail⟩ := lexeme?_isPrefix hl
    have hk : IsLexeme k t := ⟨(lexeme?_append_iff.1 (htail ▸ hl)).1, hshort⟩
    by_cases ht : t = ['*']
    · subst ht
      obtain rfl := hk.eq_star
      exact (ih _).star_cons
    · have hkind : kind = k := resolveStar_of_ne (hk.told ht).1
      rw [resolveStar_of_ne (hk.told ht).1, hkind, tokensFrom_moved n]
      exact resumption_cons (t := ⟨k, t, pos⟩) ht _

/-! ## Reading on -/

theorem Ended.append {k : TokenKind} {t : List Char} (h : Ended k t cs) (h' : Ended k t rest) :
    Ended k t (cs ++ rest) := by
  cases cs with
  | nil => exact h'
  | cons c cs =>
    rw [← List.append_nil (c :: cs)] at h
    exact h.of_append (List.cons_ne_nil c cs)

theorem or_getLast?_cons (t : Token) (ts : List Token) (last : Option TokenKind) :
    ((t :: ts).getLast?.map Token.kind).or last =
      (ts.getLast?.map Token.kind).or (some t.kind) := by
  rw [List.getLast?_cons]
  cases ts.getLast? <;> rfl

/-- A text is read to its end, and then what follows, if no token goes on there. -/
theorem Laid.tokensFrom_append (h : Laid last pos cs ts) (hr : ∀ k t, Ended k t rest) :
    tokensFrom last pos (cs ++ rest) =
      (tokensFrom ((ts.getLast?.map Token.kind).or last) (pos + cs.length) rest).map
        (ts ++ ·) := by
  induction h with
  | @nil last pos gap blank =>
    rw [tokensFrom_blank blank]
    show tokensFrom last (pos + gap.length) rest = (tokensFrom last (pos + gap.length) rest).map _
    cases tokensFrom last (pos + gap.length) rest <;> rfl
  | @cons last pos k gap text cs ts blank lexeme ended next ih =>
    have hlength : pos + (gap ++ text ++ cs).length =
        pos + gap.length + text.length + cs.length := by
      rw [List.length_append, List.length_append]
      omega
    rw [List.append_assoc, List.append_assoc, tokensFrom_blank blank,
      tokensFrom_lexeme lexeme (ended.append (hr k text)), ih, or_getLast?_cons, hlength]
    cases tokensFrom _ _ rest <;> rfl

/-! ## White space -/

theorem Blank.ended_append {gap : List Char} (hb : Blank gap) (hne : gap ≠ []) (k : TokenKind)
    (t : List Char) : Ended k t (gap ++ rest) := by
  obtain ⟨c, gap, rfl⟩ := List.exists_cons_of_ne_nil hne
  exact ended_standsAlone (standsAlone_of_isSpace (hb c List.mem_cons_self))

/-- What stands after white space is read on from there. -/
theorem tokenize_append {a w : String} {us : List Token} (ha : tokenize a = .ok us)
    (hne : w ≠ "") (hw : Blank w.toList) (b : String) : tokenize (a ++ w ++ b) =
      (tokensFrom (us.getLast?.map Token.kind) (a.length + w.length) b.toList).map (us ++ ·) := by
  have hgap : w.toList ≠ [] := fun h => hne (String.toList_eq_nil_iff.1 h)
  rw [tokenize, String.toList_append, String.toList_append, List.append_assoc,
    (laid_of_tokensFrom ha).tokensFrom_append (hw.ended_append hgap), Option.or_none,
    tokensFrom_blank hw, Nat.zero_add, String.length_toList, String.length_toList]

/-- White space parts a text: what stands before it is read as by itself, and so is what stands
after it, but for the stars at its front, which go by the token before them. If nothing can be read
after it, that is for the same reason and further on. -/
theorem tokenize_parted {a w : String} {us : List Token} (ha : tokenize a = .ok us)
    (hne : w ≠ "") (hw : ∀ c ∈ w.toList, c ∈ [' ', '\t', '\r', '\n']) (b : String) :
    let n := a.length + w.length
    ((∃ ts, tokenize (a ++ w ++ b) = .ok ts) ↔ ∃ vs, tokenize b = .ok vs) ∧
      (∀ vs, tokenize b = .ok vs → ∃ vs', tokenize (a ++ w ++ b) = .ok (us ++ vs') ∧
        Resumed n (us.getLast?.map Token.kind) vs vs') ∧
      ∀ text p, tokenize b = .error (.unknownText text p) →
        tokenize (a ++ w ++ b) = .error (.unknownText text (n + p)) := by
  intro n
  have hr := resumption_tokensFrom n (us.getLast?.map Token.kind) none 0 b.toList
  rw [Nat.add_zero] at hr
  rw [tokenize_append ha hne (fun c hc => mem_spaces_iff.1 (hw c hc)) b, tokenize]
  generalize tokensFrom none 0 b.toList = answer at hr ⊢
  generalize tokensFrom (us.getLast?.map Token.kind) n b.toList = answer' at hr ⊢
  cases hr with
  | error fault =>
    refine ⟨iff_of_false ?_ ?_, fun vs h => ?_, fun text p h => ?_⟩
    · rintro ⟨ts, h⟩
      cases h
    · rintro ⟨vs, h⟩
      cases h
    · cases h
    · cases h
      rfl
  | @ok vs vs' tokens =>
    refine ⟨iff_of_true ⟨us ++ vs', rfl⟩ ⟨vs, rfl⟩, fun ts h => ?_, fun text p h => ?_⟩
    · cases h
      exact ⟨vs', rfl, tokens⟩
    · cases h

/-- After an operand the first of two stars multiplies and the second is a name test; by themselves
they are the other way round. -/
theorem tokenize_parted_stars :
    let us : List Token := [⟨.name, ['a'], 0⟩]
    let vs : List Token := [⟨.star, ['*'], 0⟩, ⟨.times, ['*'], 1⟩, ⟨.slash, ['/'], 2⟩,
      ⟨.star, ['*'], 3⟩]
    let vs' : List Token := [⟨.times, ['*'], 3⟩, ⟨.star, ['*'], 4⟩, ⟨.slash, ['/'], 5⟩,
      ⟨.star, ['*'], 6⟩]
    tokenize "a" = .ok us ∧ tokenize "**/*" = .ok vs ∧
      tokenize ("a" ++ " \n" ++ "**/*") = .ok (us ++ vs') ∧
      Resumed 3 (us.getLast?.map Token.kind) vs vs' := by
  intro us vs vs'
  have ha : tokenize "a" = .ok us := tokenize_of_readFrom (by decide +kernel)
  have hb : tokenize "**/*" = .ok vs := tokenize_of_readFrom (by decide +kernel)
  have hall : tokenize ("a" ++ " \n" ++ "**/*") = .ok (us ++ vs') :=
    tokenize_of_readFrom (by decide +kernel)
  have hblank : ∀ c ∈ " \n".toList, c ∈ [' ', '\t', '\r', '\n'] := by simp
  have hparted := tokenize_parted ha (by decide) hblank "**/*"
  obtain ⟨vs'', h, hr⟩ := hparted.2.1 vs hb
  obtain rfl : vs' = vs'' := List.append_cancel_left (Except.ok.inj (hall.symm.trans h))
  exact ⟨ha, hb, hall, hr⟩

end TreeQuery.XPath
