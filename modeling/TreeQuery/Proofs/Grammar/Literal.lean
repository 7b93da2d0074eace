import TreeQuery.Proofs.Grammar.Spacing
import TreeQuery.XPath.Literal

/-!
# Quoted texts

What `literal` writes for a text is read as a literal of this text, or as a call of `concat` of
literals that make it up (`literalTree`). Texts without `$` and colons (`SelfContained`) are put
together from such pieces. Main statement: `literal_read_back`.
-/

namespace TreeQuery.XPath

/-! ## Texts that refer to nothing -/

/-- Symbols in a text of which none needs a binding: there is no `$` and no colon. -/
structure SelfContained (ss : List Symbol) (cs : List Char) : Prop where
  spaced : Spaced ss cs
  free : ∀ s ∈ ss, s.kind ≠ .dollar ∧ s.kind ≠ .colon

/-- Kinds of lexemes that no character goes on with. -/
def TokenKind.isClosed : TokenKind → Bool
  | .name | .nodeType | .or | .and | .div | .mod | .integer | .float | .dot | .slash | .colon
  | .relation => false
  | _ => true

theorem ended_of_isClosed {k : TokenKind} {t rest : List Char} (h : k.isClosed = true) :
    Ended k t rest :=
  ended_of_never fun c => by cases k <;> first | rfl | cases h

section SelfContained

variable {s : Symbol} {ss ss' : List Symbol} {cs cs' : List Char}

theorem SelfContained.append (h : SelfContained ss cs) (h' : SelfContained ss' cs')
    (ended : ∀ s ∈ ss.getLast?, ∀ t, Ended s.plain.kind t cs') :
    SelfContained (ss ++ ss') (cs ++ cs') where
  spaced := h.spaced.append h'.spaced ended (fun s hs => (h.free s (List.mem_of_getLast? hs)).2)
    fun s hs => (h'.free s (List.mem_of_head? hs)).2
  free := List.forall_mem_append.2 ⟨h.free, h'.free⟩

/-- What comes last cannot go on. -/
theorem SelfContained.append_closed (h : SelfContained ss cs) (h' : SelfContained ss' cs')
    (closed : ∀ s ∈ ss.getLast?, s.plain.kind.isClosed = true) :
    SelfContained (ss ++ ss') (cs ++ cs') :=
  h.append h' fun s hs _ => ended_of_isClosed (closed s hs)

/-- What comes next is part of no lexeme before it. -/
theorem SelfContained.append_alone (h : SelfContained ss cs) (h' : SelfContained ss' cs')
    (alone : ∀ c ∈ cs'.head?, standsAlone c = true) : SelfContained (ss ++ ss') (cs ++ cs') :=
  h.append h' fun _ _ _ c hc => extendedBy_of_standsAlone (alone c hc)

theorem selfContained_of_readFrom (text : String)
    (h : ∃ ts ∈ readFrom none 0 text.length text.toList, StandFor ts ss ∧ Glued ts)
    (free : ∀ s ∈ ss, s.kind ≠ .dollar ∧ s.kind ≠ .colon) : SelfContained ss text.toList :=
  ⟨spaced_of_readFrom h, free⟩

end SelfContained

theorem free_nameSymbol (s : String) :
    ∀ x ∈ [nameSymbol s], x.kind ≠ .dollar ∧ x.kind ≠ .colon := by
  intro x hx
  rw [List.mem_singleton.1 hx]
  exact ⟨TokenKind.ne_of_isName (isName_nameSymbol s) rfl,
    TokenKind.ne_of_isName (isName_nameSymbol s) rfl⟩

/-! ## Parts -/

/-- A literal without its quotes. -/
def unquoted (part : List Char) : List Char := (part.drop 1).dropLast

theorem unquoted_quoted (q : Char) (cs : List Char) : unquoted (q :: (cs ++ [q])) = cs := by
  simp [unquoted]

/-- What is between quotes of one kind and has none of them inside. -/
def IsQuoted (part : List Char) : Prop :=
  ∃ q cs, (q = '"' ∨ q = '\'') ∧ q ∉ cs ∧ part = q :: (cs ++ [q])

theorem isQuoted_literalParts (cs : List Char) : ∀ p ∈ literalParts cs, IsQuoted p := by
  fun_induction literalParts cs with
  | case1 => exact nofun
  | case2 c rest hc ih => exact List.forall_mem_cons.2 ⟨⟨'"', ['\''], .inl rfl, by decide, rfl⟩, ih⟩
  | case3 c rest hc ih =>
    refine List.forall_mem_cons.2 ⟨⟨'\'', c :: rest.takeWhile (· != '\''), .inr rfl, ?_, rfl⟩, ih⟩
    rintro hm
    rcases List.mem_cons.1 hm with rfl | hm
    · exact hc rfl
    · have := List.mem_takeWhile_imp hm
      simp at this

theorem flatten_literalParts (cs : List Char) : ((literalParts cs).map unquoted).flatten = cs := by
  fun_induction literalParts cs with
  | case1 => rfl
  | case2 c rest hc ih =>
    rw [List.map_cons, List.flatten_cons, ih, eq_of_beq hc]
    rfl
  | case3 c rest hc ih =>
    rw [List.map_cons, List.flatten_cons, ih, List.cons_append, unquoted_quoted,
      List.cons_append, List.takeWhile_append_dropWhile]

/-- The texts that are quoted one by one. -/
def literalTexts (s : String) : List String :=
  (literalParts s.toList).map fun p => .ofList (unquoted p)

theorem join_literalTexts (s : String) : String.join (literalTexts s) = s := by
  have hparts : (literalTexts s).flatMap String.toList =
      ((literalParts s.toList).map unquoted).flatten := by
    rw [literalTexts, List.flatMap_map, List.flatMap_def]
    simp only [String.toList_ofList]
  rw [← String.toList_inj, String.toList_join, hparts, flatten_literalParts]

/-- With both kinds of quote in it a text is not quoted as one. -/
theorem two_le_literalTexts {s : String} (hs : '\'' ∈ s.toList) (hd : '"' ∈ s.toList) :
    2 ≤ (literalTexts s).length := by
  rw [literalTexts, List.length_map]
  have hflat := flatten_literalParts s.toList
  have hquoted := isQuoted_literalParts s.toList
  rcases hparts : literalParts s.toList with _ | ⟨p, _ | ⟨p', ps⟩⟩
  · rw [hparts] at hflat
    rw [← hflat] at hs
    cases hs
  · rw [hparts] at hflat hquoted
    obtain ⟨q, body, hq, hb, rfl⟩ := hquoted p List.mem_cons_self
    rw [List.map_singleton, List.flatten_singleton, unquoted_quoted] at hflat
    rw [hflat] at hb
    rcases hq with rfl | rfl
    · exact absurd hd hb
    · exact absurd hs hb
  · exact Nat.le_add_left 2 ps.length

/-! ## Literals as trees -/

/-- The tree that a quoted text is read as. -/
def literalTree (s : String) : Expr :=
  if '\'' ∈ s.toList ∧ '"' ∈ s.toList then
    .call ⟨none, "concat"⟩ ((literalTexts s).map .literal)
  else .literal s

theorem selfContained_quoted {q : Char} {body : List Char} (hq : q = '"' ∨ q = '\'')
    (hb : q ∉ body) : SelfContained [⟨.literal, body⟩] (q :: (body ++ [q])) :=
  ⟨.single (.quoted hq hb), by simp⟩

theorem SelfContained.literal_append {q : Char} {body rest : List Char} {ss : List Symbol}
    (hq : q = '"' ∨ q = '\'') (hb : q ∉ body) (h : SelfContained ss rest) :
    SelfContained (⟨.literal, body⟩ :: ss) (q :: (body ++ [q]) ++ rest) :=
  (selfContained_quoted hq hb).append_closed h (by rintro s ⟨⟩; rfl)

theorem selfContained_comma : SelfContained [sign .comma ","] [',', ' '] :=
  selfContained_of_readFrom ", " (by decide) (by decide)

theorem selfContained_closeParen : SelfContained [sign .closeParen ")"] [')'] :=
  selfContained_of_readFrom ")" (by decide) (by decide)

theorem selfContained_concat : SelfContained [nameSymbol "concat", sign .openParen "("]
    "concat(".toList :=
  selfContained_of_readFrom _ (by decide) (by decide)

theorem selfContained_arguments {ps : List (List Char)} (h : ∀ p ∈ ps, IsQuoted p) :
    SelfContained (argumentSymbols ((ps.map fun p => .ofList (unquoted p)).map .literal) ++
      [sign .closeParen ")"]) ([',', ' '].intercalate ps ++ [')']) := by
  match ps with
  | [] => exact selfContained_closeParen
  | [p] =>
    obtain ⟨q, body, hq, hb, rfl⟩ := h p List.mem_cons_self
    rw [List.intercalate_singleton, List.map_singleton, List.map_singleton, argumentSymbols,
      Expr.symbols, unquoted_quoted, String.toList_ofList]
    exact selfContained_closeParen.literal_append hq hb
  | p :: p' :: ps =>
    obtain ⟨⟨q, body, hq, hb, rfl⟩, hps⟩ := List.forall_mem_cons.1 h
    have hrest := selfContained_comma.append_closed (selfContained_arguments hps) (by decide)
    rw [List.intercalate_cons_cons, List.append_assoc, List.append_assoc, List.map_cons,
      List.map_cons, argumentSymbols, Expr.symbols, unquoted_quoted, String.toList_ofList]
    · exact hrest.literal_append hq hb
    · nofun

theorem toList_concat (ps : List (List Char)) :
    ("concat(" ++ ", ".intercalate (ps.map String.ofList) ++ ")").toList =
      "concat(".toList ++ ([',', ' '].intercalate ps ++ [')']) := by
  have hps : (ps.map String.ofList).map String.toList = ps := by
    rw [List.map_map]
    exact List.map_id'' (fun p => String.toList_ofList) ps
  rw [String.toList_append, String.toList_append, String.toList_intercalate, hps,
    List.append_assoc]
  rfl

/-- A quoted text is written as the tree that it should be read as. -/
theorem selfContained_literal (s : String) :
    SelfContained (literalTree s).symbols (literal s).toList := by
  have hone {q : Char} (hq : q = '"' ∨ q = '\'') (hs : q ∉ s.toList) :
      SelfContained (Expr.literal s).symbols (q :: (s.toList ++ [q])) := by
    rw [Expr.symbols]
    exact selfContained_quoted hq hs
  unfold literal literalTree
  simp only [List.contains_iff_mem, Bool.not_eq_true', Bool.eq_false_iff, ne_eq]
  by_cases hs : '\'' ∈ s.toList
  · by_cases hd : '"' ∈ s.toList
    · rw [if_neg (not_not_intro hs), if_neg (not_not_intro hd), if_pos ⟨hs, hd⟩, toList_concat,
        Expr.symbols]
      exact selfContained_concat.append_closed
        (selfContained_arguments (isQuoted_literalParts s.toList)) (by decide)
    · rw [if_neg (not_not_intro hs), if_pos hd, if_neg fun h => hd h.2, String.toList_append,
        String.toList_append]
      exact hone (.inl rfl) hd
  · rw [if_pos hs, if_neg fun h => hs h.1, String.toList_append, String.toList_append]
    exact hone (.inr rfl) hs

theorem literals_formed (texts : List String) : AllFormed (texts.map .literal) := by
  induction texts with
  | nil => exact trivial
  | cons s texts ih => exact ⟨trivial, ih⟩

theorem literalTree_formed (s : String) : (literalTree s).Formed := by
  unfold literalTree
  split
  · rw [Expr.Formed]
    exact ⟨show nameKind "concat".toList = .name by decide, literals_formed _⟩
  · exact trivial

/-! ## Literals as tokens -/

/-- The values of the literals among some tokens. -/
def literalValues (ts : List Token) : List Value :=
  (ts.filter (·.kind = .literal)).map Token.value

theorem Token.value_of_literal {t : Token} (h : t.kind = .literal) :
    t.value = .text (.ofList t.symbol.text) := by
  rw [Token.value, h, Token.symbol, if_pos h]

/-- The symbols of tokens tell what the literals among them stand for. -/
theorem literalValues_eq (ts : List Token) : literalValues ts =
    ((ts.map Token.symbol).filter (·.kind = .literal)).map fun s => .text (.ofList s.text) := by
  rw [List.filter_map, List.map_map]
  refine List.map_congr_left fun t ht => ?_
  exact Token.value_of_literal (of_decide_eq_true (List.mem_filter.1 ht).2)

theorem literals_of_arguments (texts : List String) :
    (argumentSymbols (texts.map .literal)).filter (·.kind = .literal) =
      texts.map fun s => ⟨.literal, s.toList⟩ := by
  match texts with
  | [] => rfl
  | [s] =>
    rw [List.map_singleton, argumentSymbols, Expr.symbols]
    rfl
  | s :: s' :: texts =>
    have hrest := literals_of_arguments (s' :: texts)
    rw [List.map_cons, argumentSymbols, Expr.symbols, List.singleton_append,
      List.filter_cons_of_pos (by rfl), List.filter_cons_of_neg (by decide), hrest]
    · rfl
    · nofun

theorem literals_of_concat (texts : List String) :
    (Expr.call ⟨none, "concat"⟩ (texts.map .literal)).symbols.filter (·.kind = .literal) =
      texts.map fun s => ⟨.literal, s.toList⟩ := by
  rw [Expr.symbols, Name.symbols, List.singleton_append, List.filter_cons_of_neg (by decide),
    List.filter_cons_of_neg (by decide), List.filter_append, literals_of_arguments,
    List.filter_cons_of_neg (by decide)]
  exact List.append_nil _

/-- Every text is read back from what is written for it: as one literal, or, exactly if both kinds
of quote are in it, as a call of `concat` with two literals or more that make it up in order. -/
theorem literal_read_back (s : String) : ∃ ts, tokenize (literal s) = .ok ts ∧
    if '\'' ∈ s.toList ∧ '"' ∈ s.toList then
      ∃ texts : List String, 2 ≤ texts.length ∧ String.join texts = s ∧
        ts.map Token.symbol = (Expr.call ⟨none, "concat"⟩ (texts.map .literal)).symbols ∧
        literalValues ts = texts.map .text
    else ∃ t, ts = [t] ∧ t.kind = .literal ∧ t.value = .text s := by
  obtain ⟨ts, ht, hr⟩ := spaced_iff.1 (selfContained_literal s).spaced
  have hsymbols := map_symbol_of_readsAs (laid_of_tokensFrom ht) (literalTree_formed s) hr
  refine ⟨ts, ht, ?_⟩
  unfold literalTree at hsymbols
  split
  · next hq =>
    rw [if_pos hq] at hsymbols
    refine ⟨literalTexts s, two_le_literalTexts hq.1 hq.2, join_literalTexts s, hsymbols, ?_⟩
    rw [literalValues_eq, hsymbols, literals_of_concat, List.map_map]
    exact List.map_congr_left fun p _ => congrArg Value.text String.ofList_toList
  · next hq =>
    rw [if_neg hq, Expr.symbols] at hsymbols
    obtain ⟨t, rfl, hsymbol⟩ := List.map_eq_singleton_iff.1 hsymbols
    have hk : t.kind = .literal := congrArg Symbol.kind hsymbol
    refine ⟨t, rfl, hk, ?_⟩
    rw [Token.value_of_literal hk, hsymbol, String.ofList_toList]

end TreeQuery.XPath
