import TreeQuery.Proofs.Lexing.Layout

/-!
# Names among lexemes

All names are alike to what stands next to them: each begins with a character that begins nothing
else, and each goes on as long as names can.
-/

namespace TreeQuery.XPath

theorem isNameChar_of_isDigit {c : Char} (h : c.isDigit = true) : Text.isNameChar c = true := by
  have hr : Text.nameExtraRanges.has c = true := by
    refine Text.Ranges.has_iff.2 ⟨(0x30, 0x39), by decide, ?_⟩
    simp only [Char.isDigit, Bool.and_eq_true, decide_eq_true_eq] at h
    exact ⟨h.1, h.2⟩
  rw [Text.isNameChar, hr, Bool.or_true]

/-- Where a name can begin there is one, as long as names go on. -/
theorem lexeme?_of_isNameStart {c : Char} (h : Text.isNameStart c = true)
    (hd : Text.isDigit c = false) (cs : List Char) :
    lexeme? (c :: cs) = some (nameKind (c :: cs.takeWhile Text.isNameChar),
      c :: cs.takeWhile Text.isNameChar) := by
  have hq : (c == '"' || c == '\'') = false := by
    rw [Bool.or_eq_false_iff]
    exact ⟨beq_false_of_ne (ne_of_isNameStart h (by decide)),
      beq_false_of_ne (ne_of_isNameStart h (by decide))⟩
  have hp : (c == '.') = false := beq_false_of_ne (ne_of_isNameStart h (by decide))
  simp only [lexeme?, hq, hd, hp, h, Bool.false_eq_true, ↓reduceIte]

theorem isLexeme_nameKind {c : Char} {cs : List Char} (h : Text.isNameStart c = true)
    (hd : Text.isDigit c = false) (hcs : ∀ d ∈ cs, Text.isNameChar d = true) :
    IsLexeme (nameKind (c :: cs)) (c :: cs) := by
  constructor
  · rw [lexeme?_of_isNameStart h hd, List.takeWhile_eq_self_iff.2 hcs]
  · rintro ⟨hk, -⟩
    have := nameKind_isName (c :: cs)
    rw [hk] at this
    cases this

theorem numeral_not_isName (cs : List Char) : (numeral cs).1.isName = false := by
  unfold numeral
  dsimp only
  split <;> rfl

theorem pointed_not_isName (cs : List Char) : (pointed cs).1.isName = false := by
  unfold pointed
  dsimp only
  split
  · split <;> rfl
  · rfl

theorem operator?_not_isName {c : Char} {cs : List Char} {r : TokenKind × List Char}
    (h : operator? c cs = some r) : r.1.isName = false := by
  unfold operator? at h
  split at h
  case h_1 | h_2 | h_3 | h_4 =>
    cases h
    unfold oneOrTwo
    split <;> rfl
  case h_5 =>
    split at h <;> cases h
    rfl
  all_goals
    cases h
    try rfl

theorem IsLexeme.head_of_isName {k : TokenKind} {text : List Char} (h : IsLexeme k text)
    (hk : k.isName = true) :
    ∃ c cs, text = c :: cs ∧ Text.isNameStart c = true ∧ Text.isDigit c = false := by
  obtain ⟨c, cs, rfl⟩ := List.exists_cons_of_ne_nil h.ne_nil
  have hne {r : TokenKind × List Char} (hr : r = (k, c :: cs)) (hn : r.1.isName = false) :
      False := by
    rw [hr, hk] at hn
    cases hn
  refine ⟨c, cs, rfl, ?_⟩
  have hr := h.reads
  simp only [lexeme?] at hr
  split at hr
  · obtain ⟨t, -, ht⟩ := Option.map_eq_some_iff.1 hr
    exact (hne ht rfl).elim
  · split at hr
    · exact (hne (Option.some_inj.1 hr) (numeral_not_isName _)).elim
    · rename_i hd
      split at hr
      · exact (hne (Option.some_inj.1 hr) (pointed_not_isName _)).elim
      · split at hr
        · rename_i hs
          exact ⟨hs, by simpa using hd⟩
        · exact (hne rfl (operator?_not_isName hr)).elim

/-- A name has the kind that its spelling says, and consists of characters of names. -/
theorem IsLexeme.eq_nameKind {k : TokenKind} {text : List Char} (h : IsLexeme k text)
    (hk : k.isName = true) :
    k = nameKind text ∧ ∀ c ∈ text, Text.isNameChar c = true := by
  obtain ⟨c, cs, rfl, hc, hd⟩ := h.head_of_isName hk
  have hr := h.reads
  rw [lexeme?_of_isNameStart hc hd, Option.some_inj, Prod.mk.injEq, List.cons.injEq] at hr
  obtain ⟨hkind, -, htext⟩ := hr
  refine ⟨?_, List.forall_mem_cons.2 ⟨Text.isNameChar_of_isNameStart hc, ?_⟩⟩
  · rw [← hkind, htext]
  · exact List.takeWhile_eq_self_iff.1 htext

/-- All names end what comes before them alike. -/
theorem ended_of_names {k k₁ k₂ : TokenKind} {t a b rest rest' : List Char}
    (ha : IsLexeme k₁ a) (hb : IsLexeme k₂ b) (hk₁ : k₁.isName = true) (hk₂ : k₂.isName = true)
    (h : Ended k t (a ++ rest)) : Ended k t (b ++ rest') := by
  obtain ⟨c, cs, rfl, hc, hcd⟩ := ha.head_of_isName hk₁
  obtain ⟨d, ds, rfl, hd, hdd⟩ := hb.head_of_isName hk₂
  intro e he
  obtain rfl : d = e := Option.some_inj.1 he
  have := h c rfl
  rw [extendedBy_of_isNameStart hc hcd] at this
  rw [extendedBy_of_isNameStart hd hdd, this]

theorem Ended.of_isName {k k' : TokenKind} {t t' rest : List Char} (hk : k.isName = true)
    (hk' : k'.isName = true) (h : Ended k t rest) : Ended k' t' rest := by
  intro c hc
  have := h c hc
  rw [extendedBy_of_isName hk] at this
  rwa [extendedBy_of_isName hk']

end TreeQuery.XPath
