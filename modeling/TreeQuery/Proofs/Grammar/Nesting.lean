import TreeQuery.Proofs.Grammar.Written
import TreeQuery.Proofs.Lexing.Lexeme

/-!
# Nesting in trees

Parentheses and brackets of a tree are properly nested (`Expr.nested`), so a scan that counts them
passes over the symbols of a whole tree unchanged.
-/

namespace TreeQuery.XPath

/-- Opening and closing kinds match up. -/
inductive Nested (o c : TokenKind) : List TokenKind → Prop where
  | nil : Nested o c []
  | single {k : TokenKind} (opens : k ≠ o) (closes : k ≠ c) : Nested o c [k]
  | append {ks ks' : List TokenKind} (left : Nested o c ks) (right : Nested o c ks') :
      Nested o c (ks ++ ks')
  | wrap {ks : List TokenKind} (inside : Nested o c ks) : Nested o c (o :: (ks ++ [c]))

/-- What a scan counts: parentheses or brackets. -/
def IsPair (o c : TokenKind) : Prop :=
  o = .openParen ∧ c = .closeParen ∨ o = .openBracket ∧ c = .closeBracket

/-- Kinds of tokens that open or close nothing. -/
def TokenKind.isPlain : TokenKind → Bool
  | .openParen | .closeParen | .openBracket | .closeBracket => false
  | _ => true

section Pair

variable {o c k : TokenKind} {ks : List TokenKind}

theorem nested_plain (h : IsPair o c) (hk : k.isPlain = true) : Nested o c [k] := by
  rcases h with ⟨rfl, rfl⟩ | ⟨rfl, rfl⟩ <;> refine .single ?_ ?_ <;> rintro rfl <;> cases hk

theorem Nested.cons_plain (h : IsPair o c) (hk : k.isPlain = true) (hs : Nested o c ks) :
    Nested o c (k :: ks) :=
  (nested_plain h hk).append hs

theorem Nested.surround {a b : TokenKind} (ha : a ≠ o ∧ a ≠ c) (hb : b ≠ o ∧ b ≠ c)
    (hs : Nested o c ks) : Nested o c (a :: (ks ++ [b])) :=
  (Nested.single ha.1 ha.2).append (hs.append (.single hb.1 hb.2))

theorem Nested.parens (h : IsPair o c) (hs : Nested o c ks) :
    Nested o c (.openParen :: (ks ++ [.closeParen])) := by
  rcases h with ⟨rfl, rfl⟩ | ⟨rfl, rfl⟩
  · exact hs.wrap
  · exact hs.surround (by decide) (by decide)

theorem Nested.brackets (h : IsPair o c) (hs : Nested o c ks) :
    Nested o c (.openBracket :: (ks ++ [.closeBracket])) := by
  rcases h with ⟨rfl, rfl⟩ | ⟨rfl, rfl⟩
  · exact hs.surround (by decide) (by decide)
  · exact hs.wrap

theorem Nested.head?_ne (h : Nested o c ks) (hne : o ≠ c) : ks.head? ≠ some c := by
  induction h with
  | nil => exact nofun
  | single _ closes => exact fun he => closes (Option.some_inj.1 he)
  | append left right ihl ihr =>
    rename_i ks ks'
    cases ks with
    | nil => exact ihr
    | cons k ks => exact ihl
  | wrap => exact fun he => hne (Option.some_inj.1 he)

end Pair

/-! ## Symbols -/

theorem isPlain_of_isName {k : TokenKind} (h : k.isName = true) : k.isPlain = true := by
  cases k <;> first | rfl | cases h

theorem isPlain_nameSymbol (s : String) : (nameSymbol s).kind.isPlain = true :=
  isPlain_of_isName (nameKind_isName s.toList)

theorem Operator.isPlain_symbol (op : Operator) : op.symbol.kind.isPlain = true := by
  cases op <;> rfl

theorem Separator.isPlain_symbol (sep : Separator) : sep.symbol.kind.isPlain = true := by
  cases sep <;> rfl

theorem isPlain_numeralKind (s : String) : (numeralKind s).isPlain = true := by
  unfold numeralKind
  split <;> rfl

section Trees

variable {o c : TokenKind} (hp : IsPair o c)

include hp

theorem Name.nested (n : Name) : Nested o c (n.symbols.map Symbol.kind) := by
  unfold Name.symbols
  split
  · exact nested_plain hp (isPlain_nameSymbol _)
  · exact .cons_plain hp (isPlain_nameSymbol _) (.cons_plain hp rfl
      (nested_plain hp (isPlain_nameSymbol _)))

theorem AxisSpec.nested (a : AxisSpec) : Nested o c (a.symbols.map Symbol.kind) := by
  cases a with
  | implied => exact .nil
  | atSign => exact nested_plain hp rfl
  | named a => exact .cons_plain hp (isPlain_nameSymbol _) (nested_plain hp rfl)

theorem nodeType_nested (name : String) {inside : List Symbol}
    (h : Nested o c (inside.map Symbol.kind)) :
    Nested o c ((nodeTypeSymbols name inside).map Symbol.kind) := by
  rw [nodeTypeSymbols, List.map_cons, List.map_cons, List.map_append]
  exact .cons_plain hp rfl (h.parens hp)

theorem NodeTest.nested (t : NodeTest) : Nested o c (t.symbols.map Symbol.kind) := by
  cases t with
  | node | text | comment => exact nodeType_nested hp _ .nil
  | instruction target =>
    cases target with
    | none => exact nodeType_nested hp _ .nil
    | some s => exact nodeType_nested hp _ (nested_plain hp rfl)
  | any pfx =>
    cases pfx with
    | none => exact nested_plain hp rfl
    | some p =>
      exact .cons_plain hp (isPlain_nameSymbol _) (.cons_plain hp rfl (nested_plain hp rfl))
  | name n => exact n.nested hp

mutual

/-- What a tree opens it closes. -/
theorem Expr.nested (e : Expr) : Nested o c (e.symbols.map Symbol.kind) := by
  match e with
  | .binary op a b =>
    rw [Expr.symbols, List.map_append, List.map_cons]
    exact a.nested.append (.cons_plain hp op.isPlain_symbol b.nested)
  | .negate e =>
    rw [Expr.symbols, List.map_cons]
    exact .cons_plain hp rfl e.nested
  | .group e =>
    rw [Expr.symbols, List.map_cons, List.map_append]
    exact e.nested.parens hp
  | .literal s =>
    rw [Expr.symbols]
    exact nested_plain hp rfl
  | .number s =>
    rw [Expr.symbols]
    exact nested_plain hp (isPlain_numeralKind s)
  | .variable n =>
    rw [Expr.symbols, List.map_cons]
    exact .cons_plain hp rfl (n.nested hp)
  | .call n args =>
    rw [Expr.symbols, List.map_append, List.map_cons, List.map_append]
    exact (n.nested hp).append ((arguments_nested args).parens hp)
  | .filter e p =>
    rw [Expr.symbols, List.map_append, List.map_cons, List.map_append]
    exact e.nested.append (p.nested.brackets hp)
  | .relative first rest =>
    rw [Expr.symbols, List.map_append]
    exact first.nested.append rest.nested
  | .absolute .done =>
    rw [Expr.symbols]
    exact nested_plain hp rfl
  | .absolute (.next sep step rest) =>
    rw [Expr.symbols]
    · exact Steps.nested _
    · nofun
  | .through e steps =>
    rw [Expr.symbols, List.map_append]
    exact e.nested.append steps.nested

theorem arguments_nested (es : List Expr) :
    Nested o c ((argumentSymbols es).map Symbol.kind) := by
  match es with
  | [] =>
    rw [argumentSymbols]
    exact .nil
  | [e] =>
    rw [argumentSymbols]
    exact e.nested
  | e :: e' :: es =>
    rw [argumentSymbols, List.map_append, List.map_cons]
    · exact e.nested.append (.cons_plain hp rfl (arguments_nested (e' :: es)))
    · nofun

theorem predicates_nested (ps : List Expr) :
    Nested o c ((predicateSymbols ps).map Symbol.kind) := by
  match ps with
  | [] =>
    rw [predicateSymbols]
    exact .nil
  | p :: ps =>
    rw [predicateSymbols, List.map_cons, List.map_append, List.map_cons, List.append_cons,
      ← List.cons_append]
    exact (p.nested.brackets hp).append (predicates_nested ps)

theorem Step.nested (s : Step) : Nested o c (s.symbols.map Symbol.kind) := by
  match s with
  | .here | .up =>
    rw [Step.symbols]
    exact nested_plain hp rfl
  | .along axis t predicates =>
    rw [Step.symbols, List.map_append, List.map_append]
    exact ((axis.nested hp).append (t.nested hp)).append (predicates_nested predicates)

theorem Steps.nested (s : Steps) : Nested o c (s.symbols.map Symbol.kind) := by
  match s with
  | .done =>
    rw [Steps.symbols]
    exact .nil
  | .next sep step rest =>
    rw [Steps.symbols, List.map_cons, List.map_append]
    exact .cons_plain hp sep.isPlain_symbol (step.nested.append rest.nested)

end

end Trees

end TreeQuery.XPath
