import TreeQuery.Proofs.Grammar.Written
import TreeQuery.Proofs.Lexing.Layout

/-!
# Stars in trees

The tokens of a text read as a tree only if each `*` was taken for what it is in the tree
(`map_symbol_of_readsAs`): the lexer tells multiplication from a name test by the token before.
-/

namespace TreeQuery.XPath

/-! ## Stars told by what precedes them -/

/-- Every `*` is what it would be taken for. -/
def Resolved : Option TokenKind → List Symbol → Prop
  | _, [] => True
  | last, s :: ss => s.kind = resolveStar last s.plain.kind ∧ Resolved (some s.kind) ss

/-- The kind of the last of some symbols, or of what precedes them. -/
def lastKind (last : Option TokenKind) (ss : List Symbol) : Option TokenKind :=
  (ss.getLast?.map Symbol.kind).or last

theorem lastKind_cons (last : Option TokenKind) (s : Symbol) (ss : List Symbol) :
    lastKind last (s :: ss) = lastKind (some s.kind) ss := by
  cases ss with
  | nil => rfl
  | cons a ss =>
    unfold lastKind
    rw [List.getLast?_cons_cons, List.getLast?_cons]
    rfl

theorem resolved_append {last : Option TokenKind} {ss ss' : List Symbol} :
    Resolved last (ss ++ ss') ↔ Resolved last ss ∧ Resolved (lastKind last ss) ss' := by
  induction ss generalizing last with
  | nil => exact ⟨fun h => ⟨trivial, h⟩, And.right⟩
  | cons s ss ih =>
    rw [List.cons_append, Resolved, Resolved, ih, lastKind_cons, and_assoc]

theorem eq_of_resolved {last : Option TokenKind} {ss ss' : List Symbol} (h : Resolved last ss)
    (h' : Resolved last ss') (hp : ss.map Symbol.plain = ss'.map Symbol.plain) : ss = ss' := by
  induction ss generalizing last ss' with
  | nil => exact (List.map_eq_nil_iff.1 hp.symm).symm
  | cons s ss ih =>
    cases ss' with
    | nil => cases hp
    | cons s' ss' =>
      obtain ⟨hs, hss⟩ := List.cons.inj hp
      have hk : s.kind = s'.kind := by rw [h.1, h'.1, hs]
      have ht : s.plain.text = s'.plain.text := congrArg Symbol.text hs
      obtain rfl : s = s' := by
        cases s
        cases s'
        cases hk
        cases ht
        rfl
      rw [ih h.2 h'.2 hss]

theorem resolved_of_ne {last : Option TokenKind} {ss : List Symbol}
    (h : ∀ s ∈ ss, s.kind ≠ .star ∧ s.kind ≠ .times) : Resolved last ss := by
  induction ss generalizing last with
  | nil => trivial
  | cons s ss ih =>
    obtain ⟨⟨hs, ht⟩, h⟩ := List.forall_mem_cons.1 h
    refine ⟨?_, ih h⟩
    rw [Symbol.plain, if_neg ht, resolveStar_of_ne hs]

/-! ## Stars of tokens -/

theorem oneOrTwo_ne_times {one two : TokenKind} {c d : Char} {cs : List Char}
    (h : one ≠ .times) (h' : two ≠ .times) : (oneOrTwo one two c d cs).1 ≠ .times := by
  unfold oneOrTwo
  split
  · exact h'
  · exact h

theorem operator?_ne_times {c : Char} {cs : List Char} {r : TokenKind × List Char}
    (h : operator? c cs = some r) : r.1 ≠ .times := by
  unfold operator? at h
  split at h <;> (try split at h) <;> cases h <;> first
    | exact oneOrTwo_ne_times nofun nofun
    | exact nofun

/-- The lexer leaves open whether a `*` multiplies. -/
theorem IsLexeme.ne_times {k : TokenKind} {text : List Char} (h : IsLexeme k text) :
    k ≠ .times := by
  have hr := h.reads
  cases text with
  | nil => cases hr
  | cons c cs =>
    simp only [lexeme?] at hr
    split at hr
    · obtain ⟨t, -, he⟩ := Option.map_eq_some_iff.1 hr
      cases he
      decide
    · split at hr
      · have hk : k = (numeral (c :: cs)).1 := congrArg Prod.fst (Option.some_inj.1 hr).symm
        rw [hk]
        unfold numeral
        dsimp only
        split <;> rintro ⟨⟩
      · split at hr
        · have hk : k = (pointed cs).1 := congrArg Prod.fst (Option.some_inj.1 hr).symm
          rw [hk]
          unfold pointed
          dsimp only
          split
          · split <;> rintro ⟨⟩
          · rintro ⟨⟩
        · split at hr
          · have hk : k = nameKind (c :: cs.takeWhile Text.isNameChar) :=
              congrArg Prod.fst (Option.some_inj.1 hr).symm
            have hn := nameKind_isName (c :: cs.takeWhile Text.isNameChar)
            intro ht
            rw [← hk, ht] at hn
            cases hn
          · exact operator?_ne_times hr

theorem plain_resolveStar {last : Option TokenKind} {k : TokenKind} (h : k ≠ .times) :
    (if resolveStar last k = .times then .star else resolveStar last k) = k := by
  by_cases hk : k = .star
  · subst hk
    cases last with
    | none => rfl
    | some l =>
      show (if (if forcesStar l then TokenKind.star else .times) = .times then TokenKind.star else
        if forcesStar l then .star else .times) = .star
      cases forcesStar l <;> rfl
  · rw [resolveStar_of_ne hk, if_neg h]

/-- A token is the symbol that its lexeme is, whatever a `*` was taken for. -/
theorem IsLexeme.plain_symbol {k : TokenKind} {text : List Char} (h : IsLexeme k text)
    (last : Option TokenKind) (start : Nat) :
    (Token.mk (resolveStar last k) text start).symbol.plain =
      ⟨k, if k = .literal then (text.drop 1).dropLast else text⟩ := by
  have hkind : (if resolveStar last k = .times then .star else resolveStar last k) = k :=
    plain_resolveStar h.ne_times
  have hlit : resolveStar last k = .literal ↔ k = .literal := by
    by_cases ht : resolveStar last k = .times
    · rw [if_pos ht] at hkind
      rw [ht, ← hkind]
      exact iff_of_false nofun nofun
    · rw [if_neg ht] at hkind
      rw [hkind]
  simp only [Symbol.plain, Token.symbol, hkind, hlit]

theorem resolved_of_laid {last : Option TokenKind} {pos : Nat} {cs : List Char} {ts : List Token}
    (h : Laid last pos cs ts) : Resolved last (ts.map Token.symbol) := by
  induction h with
  | nil => trivial
  | cons blank lexeme ended next ih =>
    exact ⟨congrArg (resolveStar _) (plain_resolveStar lexeme.ne_times).symm, ih⟩

/-! ## Stars of trees -/

/-- Before an operand stands nothing or what calls for one. -/
def BeforeOperand (last : Option TokenKind) : Prop := ∀ k ∈ last, forcesStar k = true

/-- An operand is at its end. -/
def AfterOperand (last : Option TokenKind) : Prop := ∃ k, last = some k ∧ forcesStar k = false

theorem lastKind_append (last : Option TokenKind) (ss ss' : List Symbol) :
    lastKind last (ss ++ ss') = lastKind (lastKind last ss) ss' := by
  induction ss generalizing last with
  | nil => rfl
  | cons s ss ih => rw [List.cons_append, lastKind_cons, lastKind_cons, ih]

theorem beforeOperand_some {k : TokenKind} (h : forcesStar k = true) : BeforeOperand (some k) := by
  intro k' hk
  cases hk
  exact h

theorem kind_nameSymbol {s : String} (h : IsPlainName s) :
    (nameSymbol s).kind = .name ∨ (nameSymbol s).kind = .nodeType := h

theorem afterOperand_nameSymbol {s : String} (h : IsPlainName s) :
    AfterOperand (some (nameSymbol s).kind) := by
  rcases kind_nameSymbol h with hk | hk <;> exact ⟨_, rfl, by rw [hk]; rfl⟩

theorem isName_nameSymbol (s : String) : (nameSymbol s).kind.isName = true :=
  nameKind_isName s.toList

theorem ne_star_nameSymbol (s : String) :
    (nameSymbol s).kind ≠ .star ∧ (nameSymbol s).kind ≠ .times :=
  ⟨TokenKind.ne_of_isName (isName_nameSymbol s) rfl,
    TokenKind.ne_of_isName (isName_nameSymbol s) rfl⟩

theorem Name.resolved (n : Name) (last : Option TokenKind) : Resolved last n.symbols := by
  refine resolved_of_ne fun s hs => ?_
  unfold Name.symbols at hs
  split at hs
  · rw [List.mem_singleton.1 hs]
    exact ne_star_nameSymbol _
  · rcases List.mem_cons.1 hs with rfl | hs
    · exact ne_star_nameSymbol _
    · rcases List.mem_cons.1 hs with rfl | hs
      · exact ⟨nofun, nofun⟩
      · rw [List.mem_singleton.1 hs]
        exact ne_star_nameSymbol _

theorem Name.afterOperand {n : Name} (h : IsPlainName n.localName) (last : Option TokenKind) :
    AfterOperand (lastKind last n.symbols) := by
  unfold Name.symbols
  split <;> exact afterOperand_nameSymbol h

theorem AxisSpec.resolved (a : AxisSpec) {last : Option TokenKind} (h : BeforeOperand last) :
    Resolved last a.symbols ∧ BeforeOperand (lastKind last a.symbols) := by
  cases a with
  | implied => exact ⟨trivial, h⟩
  | atSign => exact ⟨⟨rfl, trivial⟩, beforeOperand_some rfl⟩
  | named a =>
    refine ⟨resolved_of_ne fun s hs => ?_, beforeOperand_some rfl⟩
    rcases List.mem_cons.1 hs with rfl | hs
    · exact ne_star_nameSymbol _
    · rw [List.mem_singleton.1 hs]
      exact ⟨nofun, nofun⟩

theorem resolved_star {last : Option TokenKind} (h : BeforeOperand last) :
    Resolved last [sign .star "*"] := by
  refine ⟨?_, trivial⟩
  cases last with
  | none => rfl
  | some k =>
    show TokenKind.star = if forcesStar k then .star else .times
    rw [h k rfl, if_pos rfl]

theorem NodeTest.resolved (t : NodeTest) {last : Option TokenKind} (h : BeforeOperand last) :
    Resolved last t.symbols := by
  cases t with
  | node | text | comment => exact ⟨rfl, rfl, rfl, trivial⟩
  | instruction target =>
    cases target with
    | none => exact ⟨rfl, rfl, rfl, trivial⟩
    | some s => exact ⟨rfl, rfl, rfl, rfl, trivial⟩
  | any pfx =>
    cases pfx with
    | none => exact resolved_star h
    | some p =>
      have hp : Resolved last ([nameSymbol p, sign .colon ":"] ++ [sign .star "*"]) := by
        refine resolved_append.2 ⟨resolved_of_ne fun s hs => ?_, resolved_star
          (beforeOperand_some rfl)⟩
        rcases List.mem_cons.1 hs with rfl | hs
        · exact ne_star_nameSymbol _
        · rw [List.mem_singleton.1 hs]
          exact ⟨nofun, nofun⟩
      exact hp
  | name n => exact n.resolved last

theorem NodeTest.afterOperand {t : NodeTest} (h : t.Formed) (last : Option TokenKind) :
    AfterOperand (lastKind last t.symbols) := by
  cases t with
  | node | text | comment => exact ⟨_, rfl, rfl⟩
  | instruction target => cases target <;> exact ⟨_, rfl, rfl⟩
  | any pfx => cases pfx <;> exact ⟨_, rfl, rfl⟩
  | name n => exact Name.afterOperand h.2 last

theorem lastKind_append_singleton (last : Option TokenKind) (ss : List Symbol) (s : Symbol) :
    lastKind last (ss ++ [s]) = some s.kind := by
  rw [lastKind_append]
  rfl

theorem predicates_afterOperand {last : Option TokenKind} (h : AfterOperand last)
    (ps : List Expr) : AfterOperand (lastKind last (predicateSymbols ps)) := by
  induction ps generalizing last with
  | nil => rwa [predicateSymbols]
  | cons p ps ih =>
    rw [predicateSymbols, lastKind_cons, lastKind_append, lastKind_cons]
    exact ih ⟨_, rfl, rfl⟩

theorem Step.afterOperand {s : Step} (h : s.Formed) (last : Option TokenKind) :
    AfterOperand (lastKind last s.symbols) := by
  cases s with
  | here | up =>
    rw [Step.symbols]
    exact ⟨_, rfl, rfl⟩
  | along axis t predicates =>
    rw [Step.Formed] at h
    rw [Step.symbols, lastKind_append, lastKind_append]
    exact predicates_afterOperand (NodeTest.afterOperand h.1 _) predicates

theorem Steps.afterOperand (s : Steps) (h : s.Formed) {last : Option TokenKind}
    (hl : s = .done → AfterOperand last) : AfterOperand (lastKind last s.symbols) := by
  match s with
  | .done =>
    rw [Steps.symbols]
    exact hl rfl
  | .next sep step rest =>
    rw [Steps.Formed] at h
    rw [Steps.symbols, lastKind_cons, lastKind_append]
    exact rest.afterOperand h.2 fun _ => Step.afterOperand h.1 _

/-- At the end of an expression nothing is expected, unless that is a `/` by itself. -/
theorem Expr.afterOperand (e : Expr) (h : e.Formed) (hr : e.endsInRoot = false)
    (last : Option TokenKind) : AfterOperand (lastKind last e.symbols) := by
  match e with
  | .binary op a b =>
    rw [Expr.Formed] at h
    rw [Expr.endsInRoot] at hr
    rw [Expr.symbols, lastKind_append, lastKind_cons]
    exact b.afterOperand h.2.1 hr _
  | .negate e =>
    rw [Expr.Formed] at h
    rw [Expr.endsInRoot] at hr
    rw [Expr.symbols, lastKind_cons]
    exact e.afterOperand h.1 hr _
  | .group e =>
    rw [Expr.symbols, lastKind_cons, lastKind_append_singleton]
    exact ⟨_, rfl, rfl⟩
  | .literal s =>
    rw [Expr.symbols]
    exact ⟨_, rfl, rfl⟩
  | .number s =>
    rw [Expr.symbols]
    refine ⟨_, rfl, ?_⟩
    unfold numeralKind
    split <;> rfl
  | .variable n =>
    rw [Expr.Formed] at h
    rw [Expr.symbols, lastKind_cons]
    exact Name.afterOperand h.2 _
  | .call n args =>
    rw [Expr.symbols, lastKind_append, lastKind_cons, lastKind_append_singleton]
    exact ⟨_, rfl, rfl⟩
  | .filter e p =>
    rw [Expr.symbols, lastKind_append, lastKind_cons, lastKind_append_singleton]
    exact ⟨_, rfl, rfl⟩
  | .relative first rest =>
    rw [Expr.Formed] at h
    rw [Expr.symbols, lastKind_append]
    exact rest.afterOperand h.2 fun _ => Step.afterOperand h.1 _
  | .absolute .done =>
    rw [Expr.endsInRoot] at hr
    cases hr
  | .absolute (.next sep step rest) =>
    rw [Expr.Formed] at h
    rw [Expr.symbols]
    · refine Steps.afterOperand _ h ?_
      rintro ⟨⟩
    · rintro ⟨⟩
  | .through e steps =>
    rw [Expr.Formed] at h
    rw [Expr.symbols, lastKind_append]
    exact steps.afterOperand h.2.2.1 fun hd => absurd hd h.2.2.2

theorem Operator.forcesStar_symbol (op : Operator) : forcesStar op.symbol.kind = true := by
  cases op <;> rfl

theorem Separator.forcesStar_symbol (sep : Separator) : forcesStar sep.symbol.kind = true := by
  cases sep <;> rfl

theorem Operator.resolved {op : Operator} {last : Option TokenKind}
    (h : op.isStepLike = true → AfterOperand last) :
    op.symbol.kind = resolveStar last op.symbol.plain.kind := by
  cases op with
  | times =>
    obtain ⟨k, rfl, hk⟩ := h rfl
    show TokenKind.times = if forcesStar k then .star else .times
    rw [hk]
    rfl
  | _ => rfl

theorem Separator.resolved (sep : Separator) (last : Option TokenKind) :
    sep.symbol.kind = resolveStar last sep.symbol.plain.kind := by
  cases sep <;> rfl

mutual

/-- Where an operand is expected, every `*` of an expression is taken for what it is. -/
theorem Expr.resolved (e : Expr) (h : e.Formed) {last : Option TokenKind}
    (ho : BeforeOperand last) : Resolved last e.symbols := by
  match e with
  | .binary op a b =>
    rw [Expr.Formed] at h
    obtain ⟨ha, hb, -, -, hr⟩ := h
    rw [Expr.symbols, resolved_append]
    refine ⟨a.resolved ha ho, Operator.resolved fun hs => a.afterOperand ha (hr hs) _, ?_⟩
    exact b.resolved hb (beforeOperand_some op.forcesStar_symbol)
  | .negate e =>
    rw [Expr.Formed] at h
    rw [Expr.symbols]
    exact ⟨rfl, e.resolved h.1 (beforeOperand_some rfl)⟩
  | .group e =>
    rw [Expr.Formed] at h
    rw [Expr.symbols]
    exact ⟨rfl, resolved_append.2 ⟨e.resolved h (beforeOperand_some rfl), rfl, trivial⟩⟩
  | .literal s =>
    rw [Expr.symbols]
    exact ⟨rfl, trivial⟩
  | .number s =>
    rw [Expr.symbols]
    refine resolved_of_ne fun t ht => ?_
    rw [List.mem_singleton.1 ht]
    show numeralKind s ≠ .star ∧ numeralKind s ≠ .times
    unfold numeralKind
    split <;> exact ⟨nofun, nofun⟩
  | .variable n =>
    rw [Expr.symbols]
    exact ⟨rfl, n.resolved _⟩
  | .call n args =>
    rw [Expr.Formed] at h
    rw [Expr.symbols, resolved_append]
    refine ⟨n.resolved _, rfl, resolved_append.2 ⟨?_, rfl, trivial⟩⟩
    exact arguments_resolved args h.2 (beforeOperand_some rfl)
  | .filter e p =>
    rw [Expr.Formed] at h
    rw [Expr.symbols, resolved_append]
    refine ⟨e.resolved h.1 ho, rfl, resolved_append.2 ⟨?_, rfl, trivial⟩⟩
    exact p.resolved h.2.2 (beforeOperand_some rfl)
  | .relative first rest =>
    rw [Expr.Formed] at h
    rw [Expr.symbols, resolved_append]
    exact ⟨first.resolved h.1 ho, rest.resolved h.2⟩
  | .absolute .done =>
    rw [Expr.symbols]
    exact ⟨rfl, trivial⟩
  | .absolute (.next sep step rest) =>
    rw [Expr.Formed] at h
    rw [Expr.symbols]
    · exact Steps.resolved _ h
    · nofun
  | .through e steps =>
    rw [Expr.Formed] at h
    rw [Expr.symbols, resolved_append]
    exact ⟨e.resolved h.1 ho, steps.resolved h.2.2.1⟩

theorem arguments_resolved (es : List Expr) (h : AllFormed es) {last : Option TokenKind}
    (ho : BeforeOperand last) : Resolved last (argumentSymbols es) := by
  match es with
  | [] =>
    rw [argumentSymbols]
    trivial
  | [e] =>
    rw [AllFormed] at h
    rw [argumentSymbols]
    exact e.resolved h.1 ho
  | e :: e' :: es =>
    rw [AllFormed] at h
    rw [argumentSymbols, resolved_append]
    · exact ⟨e.resolved h.1 ho, rfl, arguments_resolved (e' :: es) h.2 (beforeOperand_some rfl)⟩
    · nofun

theorem predicates_resolved (ps : List Expr) (h : AllFormed ps) {last : Option TokenKind} :
    Resolved last (predicateSymbols ps) := by
  match ps with
  | [] =>
    rw [predicateSymbols]
    trivial
  | p :: ps =>
    rw [AllFormed] at h
    rw [predicateSymbols]
    refine ⟨rfl, resolved_append.2 ⟨p.resolved h.1 (beforeOperand_some rfl), rfl, ?_⟩⟩
    exact predicates_resolved ps h.2

theorem Step.resolved (s : Step) (h : s.Formed) {last : Option TokenKind}
    (ho : BeforeOperand last) : Resolved last s.symbols := by
  match s with
  | .here | .up =>
    rw [Step.symbols]
    exact ⟨rfl, trivial⟩
  | .along axis t predicates =>
    rw [Step.Formed] at h
    rw [Step.symbols, resolved_append, resolved_append]
    obtain ⟨ha, hb⟩ := axis.resolved ho
    exact ⟨⟨ha, t.resolved hb⟩, predicates_resolved predicates h.2⟩

theorem Steps.resolved (s : Steps) (h : s.Formed) {last : Option TokenKind} :
    Resolved last s.symbols := by
  match s with
  | .done =>
    rw [Steps.symbols]
    trivial
  | .next sep step rest =>
    rw [Steps.Formed] at h
    rw [Steps.symbols]
    exact ⟨sep.resolved last, resolved_append.2
      ⟨step.resolved h.1 (beforeOperand_some sep.forcesStar_symbol), rest.resolved h.2⟩⟩

end

/-- Tokens that read as a tree have the symbols of the tree. -/
theorem map_symbol_of_readsAs {pos : Nat} {cs : List Char} {ts : List Token} {e : Expr}
    (hl : Laid none pos cs ts) (h : e.Formed) (hr : ReadsAs ts e) :
    ts.map Token.symbol = e.symbols := by
  refine eq_of_resolved (resolved_of_laid hl) (e.resolved h nofun) ?_
  rw [List.map_map]
  exact hr.symbols

end TreeQuery.XPath
