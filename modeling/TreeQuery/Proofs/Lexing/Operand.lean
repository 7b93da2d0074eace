import TreeQuery.Proofs.Lexing.Rule

/-!
# Which stars multiply

XPath 1.0 tells the two meanings of a `*` by what precedes it: where an operand is due it is a name
test, elsewhere it multiplies. In the same way it tells an operator such as `div` from a name
(`operandDue`). The lexer takes `div` for an operator wherever it stands, so it is wrong about the
stars right after a name like that, and about no others (`multiplies_unless_named`).
-/

namespace TreeQuery.XPath

/-! ## What is due -/

/-- Signs after which an operand is due. -/
def operandSigns : List String :=
  ["@", "::", "(", "[", ",", ":", "/", "//", "|", "+", "-", "=", "!=", "<", "<=", ">", ">="]

/-- Words that can be operators. -/
def operatorWords : List String := ["and", "or", "div", "mod"]

/-- Whether an operand is due after tokens that are written so, the nearest first. A `*` multiplies
where none is due, and so a word is an operator unless it is the name of a variable. -/
def operandDue : List String → Bool
  | [] => true
  | s :: before =>
    if s = "*" then !operandDue before
    else if s ∈ operatorWords then !operandDue before && before.head? != some "$"
    else s ∈ operandSigns

/-- Whether the nearest of some tokens that is no `*` is a word that could be an operator but is a
name. -/
def afterNamedWord : List String → Bool
  | [] => false
  | s :: before =>
    if s = "*" then afterNamedWord before
    else s ∈ operatorWords && (operandDue before || before.head? == some "$")

/-! ## What the lexer goes by -/

/-- Whether the lexer expects an operand after a token. -/
def expectsOperand (last : Option TokenKind) : Bool := last.all forcesStar

theorem forcesStar_resolveStar (last : Option TokenKind) :
    forcesStar (resolveStar last .star) = !expectsOperand last := by
  cases last with
  | none => rfl
  | some l =>
    show forcesStar (if forcesStar l then .star else .times) = !forcesStar l
    cases forcesStar l <;> rfl

theorem times_iff_expectsOperand (last : Option TokenKind) :
    (resolveStar last .star = .times ↔ expectsOperand last = false) ∧
      (resolveStar last .star = .times ∨ resolveStar last .star = .star) := by
  cases last with
  | none => exact ⟨iff_of_false nofun nofun, .inr rfl⟩
  | some l =>
    show ((if forcesStar l then TokenKind.star else .times) = .times ↔ forcesStar l = false) ∧
      ((if forcesStar l then TokenKind.star else .times) = .times ∨
        (if forcesStar l then TokenKind.star else .times) = .star)
    cases forcesStar l
    · exact ⟨iff_of_true rfl rfl, .inl rfl⟩
    · exact ⟨iff_of_false nofun nofun, .inr rfl⟩

/-- The kind of a token depends on its text and on the token before. -/
theorem Laid.kind_eq {last : Option TokenKind} {pos : Nat} {cs : List Char} {us vs : List Token}
    {t : Token} (h : Laid last pos cs (us ++ t :: vs)) :
    ∃ k, IsLexeme k t.text ∧ t.kind = resolveStar ((us.getLast?.map Token.kind).or last) k := by
  induction us generalizing last pos cs with
  | nil =>
    cases h with
    | cons blank lexeme ended next => exact ⟨_, lexeme, rfl⟩
  | cons u us ih =>
    rw [List.cons_append] at h
    cases h with
    | cons blank lexeme ended next =>
      obtain ⟨k, hk, he⟩ := ih next
      refine ⟨k, hk, he.trans ?_⟩
      cases us with
      | nil => rfl
      | cons v us => rw [List.getLast?_cons_cons, List.getLast?_cons]; rfl

theorem IsLexeme.eq_star {k : TokenKind} (h : IsLexeme k ['*']) : k = .star := by
  have hs : lexeme? ['*'] = some (.star, ['*']) := rfl
  have hr := h.reads
  rw [hs] at hr
  cases hr
  rfl

/-! ## Signs and words -/

/-- The kinds of operator words. -/
def TokenKind.isWord : TokenKind → Bool
  | or | and | div | mod => true
  | _ => false

theorem not_mem_of_head {c : Char} {cs : List Char} {l : List String} {p : Char → Bool}
    (hl : (l.all fun s => s.toList.head?.all p) = true) (h : p c = false) :
    String.ofList (c :: cs) ∉ l := by
  intro hm
  have hc := List.all_eq_true.1 hl _ hm
  rw [String.toList_ofList] at hc
  have hc : p c = true := hc
  rw [h] at hc
  cases hc

theorem not_mem_of_open {c : Char} {cs : List Char}
    (h : Text.isDigit c = true ∨ c = '.' ∨ c = '"' ∨ c = '\'') :
    String.ofList (c :: cs) ∉ "*" :: (operandSigns ++ operatorWords) := by
  refine not_mem_of_head
    (p := fun c => !(Text.isDigit c || c == '.' || c == '"' || c == '\'')) ?_ ?_
  · decide +kernel
  · rcases h with h | rfl | rfl | rfl
    · rw [h]
      rfl
    all_goals decide

theorem not_mem_of_isName {cs : List Char} (h : Text.isName cs = true) :
    String.ofList cs ∉ "*" :: operandSigns := by
  cases cs with
  | nil => cases h
  | cons c cs =>
    rw [Text.isName, Bool.and_eq_true] at h
    refine not_mem_of_head (p := fun c => !Text.isNameStart c) (by decide +kernel) ?_
    rw [h.1]
    rfl

theorem not_mem_of_free {cs : List Char}
    (h : ∀ k : TokenKind, k.isName = true → String.ofList cs ∉ k.spellings) :
    String.ofList cs ∉ operatorWords := by
  intro hm
  simp only [operatorWords, List.mem_cons, List.not_mem_nil, or_false] at hm
  rcases hm with hm | hm | hm | hm
  · exact h .and rfl (by rw [hm]; decide)
  · exact h .or rfl (by rw [hm]; decide)
  · exact h .div rfl (by rw [hm]; decide)
  · exact h .mod rfl (by rw [hm]; decide)

/-- What the lexer goes by can be told by how a token is written. -/
structure Told (k : TokenKind) (s : String) : Prop where
  ne_star : s ≠ "*"
  isWord : k.isWord = decide (s ∈ operatorWords)
  forcesStar : forcesStar k = (k.isWord || decide (s ∈ operandSigns))

theorem told_of_not_mem {k : TokenKind} {s : String}
    (h : s ∉ "*" :: (operandSigns ++ operatorWords)) (hw : k.isWord = false)
    (hf : forcesStar k = false) : Told k s := by
  obtain ⟨hne, h⟩ := not_or.1 (fun hm => h (List.mem_cons.2 hm))
  obtain ⟨hsign, hword⟩ := not_or.1 (fun hm => h (List.mem_append.2 hm))
  refine ⟨hne, ?_, ?_⟩
  · rw [hw, decide_eq_false hword]
  · rw [hw, hf, decide_eq_false hsign]
    rfl

theorem Rule.told {k : TokenKind} {cs : List Char} {v : Value} (h : Rule k cs v)
    (hk : k ≠ .star ∧ k ≠ .times) : Told k (String.ofList cs) := by
  cases h with
  | @sign k s spelled =>
    rw [String.ofList_toList]
    cases k
    case star => exact absurd rfl hk.1
    case times => exact absurd rfl hk.2
    all_goals
      simp only [TokenKind.spellings, List.mem_cons, List.not_mem_nil, or_false] at spelled
    case equality => rcases spelled with rfl | rfl <;> constructor <;> decide
    case relation | nodeType =>
      rcases spelled with rfl | rfl | rfl | rfl <;> constructor <;> decide
    all_goals
      subst spelled
      constructor <;> decide
  | literal quote closed => exact told_of_not_mem (not_mem_of_open (.inr (.inr quote))) rfl rfl
  | integer filled digits =>
    obtain ⟨c, cs, rfl⟩ := List.exists_cons_of_ne_nil filled
    exact told_of_not_mem (not_mem_of_open (.inl (digits c List.mem_cons_self))) rfl rfl
  | @float whole fraction filled digits =>
    cases whole with
    | nil => exact told_of_not_mem (not_mem_of_open (.inr (.inl rfl))) rfl rfl
    | cons c whole =>
      exact told_of_not_mem (not_mem_of_open (.inl (digits c List.mem_cons_self))) rfl rfl
  | name named free =>
    refine told_of_not_mem (fun hm => ?_) rfl rfl
    rw [← List.cons_append, List.mem_append] at hm
    exact hm.elim (not_mem_of_isName named) (not_mem_of_free free)

theorem IsLexeme.told {k : TokenKind} {text : List Char} (h : IsLexeme k text)
    (ht : text ≠ ['*']) : k ≠ .star ∧ Told k (String.ofList text) := by
  have hr := rule_of_lexeme? h.reads 0
  have hk : k ≠ .star ∧ k ≠ .times := by
    refine not_or.1 fun hs => ht ?_
    have hm : String.ofList text ∈ ["*"] := by
      rcases hs with rfl | rfl <;> exact hr.spelled (by decide)
    exact String.ofList_injective (List.mem_singleton.1 hm)
  exact ⟨hk.1, hr.told hk⟩

/-! ## The lexer and the recommendation -/

/-- After some tokens the lexer expects an operand if one is due, unless they end in a word that is
a name and stars after it. -/
theorem expectsOperand_eq {pos : Nat} {cs : List Char} {us vs : List Token}
    (h : Laid none pos cs (us ++ vs)) : expectsOperand (us.getLast?.map Token.kind) =
      (operandDue (us.reverse.map Token.string) ^^
        afterNamedWord (us.reverse.map Token.string)) := by
  induction us using List.reverseRecOn generalizing vs with
  | nil => rfl
  | append_singleton us t ih =>
    rw [List.append_assoc, List.singleton_append] at h
    have ih := ih h
    obtain ⟨k, hk, he⟩ := h.kind_eq
    rw [Option.or_none] at he
    rw [List.getLast?_concat, List.reverse_append, List.reverse_singleton, List.singleton_append,
      List.map_cons, Option.map_some]
    generalize us.reverse.map Token.string = before at ih ⊢
    show forcesStar t.kind = _
    by_cases ht : t.text = ['*']
    · obtain rfl : k = .star := (ht ▸ hk).eq_star
      have hs : t.string = "*" := by rw [Token.string, ht]
      rw [he, forcesStar_resolveStar, ih, operandDue, afterNamedWord, if_pos hs, if_pos hs,
        Bool.not_xor]
    · obtain ⟨hne, hs, hw, hf⟩ := hk.told ht
      have hs : t.string ≠ "*" := hs
      have hw : k.isWord = decide (t.string ∈ operatorWords) := hw
      have hf : forcesStar k = (k.isWord || decide (t.string ∈ operandSigns)) := hf
      rw [he, resolveStar_of_ne hne, hf, operandDue, afterNamedWord, if_neg hs, if_neg hs]
      by_cases hmem : t.string ∈ operatorWords
      · -- A word is an operator or a name, and the lexer expects an operand after it in any case.
        rw [hw, decide_eq_true hmem, if_pos hmem, Bool.true_and, bne]
        cases operandDue before <;> cases before.head? == some "$" <;> rfl
      · rw [hw, decide_eq_false hmem, if_neg hmem, Bool.false_or, Bool.false_and, Bool.xor_false]

/-- A `*` multiplies exactly where no operand is due, as XPath 1.0 demands, unless there stands
before it, with at most other stars between, a word such as `div` that is a name: then it
multiplies exactly where an operand is due. -/
theorem multiplies_unless_named {s : String} {us vs : List Token} {t : Token}
    (h : tokenize s = .ok (us ++ t :: vs)) (ht : t.text = ['*']) :
    let before := us.reverse.map Token.string
    (t.kind = .times ∨ t.kind = .star) ∧
      (afterNamedWord before = false → (t.kind = .times ↔ operandDue before = false)) ∧
      (afterNamedWord before = true → (t.kind = .times ↔ operandDue before = true)) := by
  intro before
  have hl := laid_of_tokensFrom h
  obtain ⟨k, hk, he⟩ := hl.kind_eq
  obtain rfl : k = .star := (ht ▸ hk).eq_star
  rw [Option.or_none] at he
  obtain ⟨htimes, hcases⟩ := times_iff_expectsOperand (us.getLast?.map Token.kind)
  have hexpects := expectsOperand_eq hl
  rw [hexpects] at htimes
  rw [he]
  refine ⟨hcases, fun hn => ?_, fun hn => ?_⟩
  · rw [htimes, hn, Bool.xor_false]
  · rw [htimes, hn, Bool.xor_true, Bool.not_eq_false']

/-- The attribute `div` times all children: each `*` is taken for the other. -/
theorem multiplies_unless_named_attribute :
    let us : List Token := [⟨.integer, ['3'], 0⟩, ⟨.times, ['*'], 2⟩, ⟨.atSign, ['@'], 4⟩,
      ⟨.div, ['d', 'i', 'v'], 5⟩, ⟨.star, ['*'], 9⟩]
    let t : Token := ⟨.times, ['*'], 11⟩
    tokenize "3 * @div * *" = .ok (us ++ t :: []) ∧ t.text = ['*'] ∧
      afterNamedWord (us.reverse.map Token.string) = true ∧
      (t.kind = .times ↔ operandDue (us.reverse.map Token.string) = true) := by
  intro us t
  have h : tokenize "3 * @div * *" = .ok (us ++ t :: []) :=
    tokenize_of_readFrom (by decide +kernel)
  have hn : afterNamedWord (us.reverse.map Token.string) = true := by decide
  exact ⟨h, rfl, hn, (multiplies_unless_named h rfl).2.2 hn⟩

/-- Not every `*` is taken for what it is: after the attribute `div` no operand is due. -/
theorem star_misread : ¬∀ (s : String) (us vs : List Token) (t : Token),
    tokenize s = .ok (us ++ t :: vs) → t.text = ['*'] →
      (t.kind = .times ↔ operandDue (us.reverse.map Token.string) = false) := by
  intro h
  have ht : tokenize "@div * 2" = .ok ([⟨.atSign, ['@'], 0⟩, ⟨.div, ['d', 'i', 'v'], 1⟩] ++
      ⟨.star, ['*'], 5⟩ :: [⟨.integer, ['2'], 7⟩]) :=
    tokenize_of_readFrom (by decide +kernel)
  have hdue : operandDue ["div", "@"] = false := by decide
  cases (h _ _ _ _ ht rfl).2 hdue

end TreeQuery.XPath
