import Mathlib.Data.List.Chain
import TreeQuery.XPath.Syntax
import TreeQuery.XPath.Token

/-!
# How trees are written

The symbols by which the grammar of XPath 1.0 writes a syntax tree (`Expr.symbols`), and the trees
that it writes (`Expr.Formed`): operands bind as tightly as their places ask for, no name spells an
operator, functions are not named like node types, and what follows a `/` by itself is no step.
Tokens read as a tree if they are its symbols and no white space stands within a name (`ReadsAs`).
-/

namespace TreeQuery.XPath

/-! ## Symbols -/

/-- A token without its place, a literal without its quotes. -/
structure Symbol where
  kind : TokenKind
  text : List Char
  deriving DecidableEq, Repr

/-- A symbol regardless of whether a `*` multiplies. -/
def Symbol.plain (s : Symbol) : Symbol :=
  { s with kind := if s.kind = .times then .star else s.kind }

def Token.symbol (t : Token) : Symbol where
  kind := t.kind
  text := if t.kind = .literal then (t.text.drop 1).dropLast else t.text

def nameSymbol (s : String) : Symbol := ⟨nameKind s.toList, s.toList⟩

/-- A symbol that is written in one way only. -/
def sign (kind : TokenKind) (text : String) : Symbol := ⟨kind, text.toList⟩

def Name.symbols (n : Name) : List Symbol :=
  match n.pfx with
  | none => [nameSymbol n.localName]
  | some p => [nameSymbol p, sign .colon ":", nameSymbol n.localName]

def AxisSpec.symbols : AxisSpec → List Symbol
  | implied => []
  | atSign => [sign .atSign "@"]
  | named a => [nameSymbol a.text, sign .axisSep "::"]

/-- A node type, with what its parentheses hold. -/
def nodeTypeSymbols (name : String) (inside : List Symbol) : List Symbol :=
  sign .nodeType name :: sign .openParen "(" :: (inside ++ [sign .closeParen ")"])

def NodeTest.symbols : NodeTest → List Symbol
  | node => nodeTypeSymbols "node" []
  | text => nodeTypeSymbols "text" []
  | comment => nodeTypeSymbols "comment" []
  | instruction none => nodeTypeSymbols "processing-instruction" []
  | instruction (some s) => nodeTypeSymbols "processing-instruction" [⟨.literal, s.toList⟩]
  | any none => [sign .star "*"]
  | any (some p) => [nameSymbol p, sign .colon ":", sign .star "*"]
  | name n => n.symbols

def Operator.symbol : Operator → Symbol
  | or => sign .or "or"
  | and => sign .and "and"
  | eq => sign .equality "="
  | ne => sign .equality "!="
  | lt => sign .relation "<"
  | le => sign .relation "<="
  | gt => sign .relation ">"
  | ge => sign .relation ">="
  | plus => sign .plus "+"
  | minus => sign .minus "-"
  | times => sign .times "*"
  | div => sign .div "div"
  | mod => sign .mod "mod"
  | union => sign .bar "|"

def Separator.symbol : Separator → Symbol
  | slash => sign .slash "/"
  | doubleSlash => sign .doubleSlash "//"

/-- A numeral with a point is not an integer. -/
def numeralKind (s : String) : TokenKind := if '.' ∈ s.toList then .float else .integer

mutual

def Expr.symbols : Expr → List Symbol
  | .binary op a b => a.symbols ++ op.symbol :: b.symbols
  | .negate e => sign .minus "-" :: e.symbols
  | .group e => sign .openParen "(" :: (e.symbols ++ [sign .closeParen ")"])
  | .literal s => [⟨.literal, s.toList⟩]
  | .number s => [⟨numeralKind s, s.toList⟩]
  | .variable n => sign .dollar "$" :: n.symbols
  | .call n args =>
    n.symbols ++ sign .openParen "(" :: (argumentSymbols args ++ [sign .closeParen ")"])
  | .filter e p =>
    e.symbols ++ sign .openBracket "[" :: (p.symbols ++ [sign .closeBracket "]"])
  | .relative first rest => first.symbols ++ rest.symbols
  | .absolute .done => [sign .slash "/"]
  | .absolute steps => steps.symbols
  | .through e steps => e.symbols ++ steps.symbols

/-- Arguments with commas between them. -/
def argumentSymbols : List Expr → List Symbol
  | [] => []
  | [e] => e.symbols
  | e :: es => e.symbols ++ sign .comma "," :: argumentSymbols es

def predicateSymbols : List Expr → List Symbol
  | [] => []
  | p :: ps =>
    sign .openBracket "[" :: (p.symbols ++ sign .closeBracket "]" :: predicateSymbols ps)

def Step.symbols : Step → List Symbol
  | .here => [sign .dot "."]
  | .up => [sign .doubleDot ".."]
  | .along axis t predicates => axis.symbols ++ t.symbols ++ predicateSymbols predicates

def Steps.symbols : Steps → List Symbol
  | .done => []
  | .next sep step rest => sep.symbol :: (step.symbols ++ rest.symbols)

end

/-! ## Well-formed trees -/

/-- How tightly an operator binds its operands. -/
def Operator.level : Operator → Nat
  | or => 1
  | and => 2
  | eq | ne => 3
  | lt | le | gt | ge => 4
  | plus | minus => 5
  | times | div | mod => 6
  | union => 8

/-- Whether an operator could be a step after a `/`. -/
def Operator.isStepLike : Operator → Bool
  | or | and | times | div | mod => true
  | _ => false

/-- How tightly an expression binds: negations bind more tightly than other operators except
unions, then come paths, filters and what needs no parentheses. -/
def Expr.level : Expr → Nat
  | .binary op _ _ => op.level
  | .negate _ => 7
  | .relative .. | .absolute _ | .through .. => 9
  | .filter .. => 10
  | _ => 11

/-- Whether a tree ends in a `/` by itself. -/
def Expr.endsInRoot : Expr → Bool
  | .binary _ _ b => b.endsInRoot
  | .negate e => e.endsInRoot
  | .absolute .done => true
  | _ => false

/-- A name that spells no operator. -/
def IsPlainName (s : String) : Prop :=
  nameKind s.toList = .name ∨ nameKind s.toList = .nodeType

/-- A name with a prefix or without. -/
def Name.Formed (n : Name) : Prop :=
  (∀ p ∈ n.pfx, IsPlainName p) ∧ IsPlainName n.localName

/-- A name that a function can have: no node type, and no node type for a prefix. -/
def Name.IsFunction (n : Name) : Prop :=
  match n.pfx with
  | none => nameKind n.localName.toList = .name
  | some p => nameKind p.toList = .name ∧ IsPlainName n.localName

def NodeTest.Formed : NodeTest → Prop
  | any (some p) => IsPlainName p
  | name n => n.Formed
  | _ => True

mutual

def Expr.Formed : Expr → Prop
  | .binary op a b =>
    a.Formed ∧ b.Formed ∧ op.level ≤ a.level ∧ op.level < b.level ∧
      (op.isStepLike = true → a.endsInRoot = false)
  | .negate e => e.Formed ∧ 7 ≤ e.level
  | .group e => e.Formed
  | .literal _ | .number _ => True
  | .variable n => n.Formed
  | .call n args => n.IsFunction ∧ AllFormed args
  | .filter e p => e.Formed ∧ 10 ≤ e.level ∧ p.Formed
  | .relative first rest => first.Formed ∧ rest.Formed
  | .absolute steps => steps.Formed
  | .through e steps => e.Formed ∧ 10 ≤ e.level ∧ steps.Formed ∧ steps ≠ .done

def AllFormed : List Expr → Prop
  | [] => True
  | e :: es => e.Formed ∧ AllFormed es

def Step.Formed : Step → Prop
  | .along _ t predicates => t.Formed ∧ AllFormed predicates
  | _ => True

def Steps.Formed : Steps → Prop
  | .done => True
  | .next _ step rest => step.Formed ∧ rest.Formed

end

/-! ## Reading -/

/-- A colon stands next to the names around it. -/
def Glued (ts : List Token) : Prop :=
  ts.IsChain fun a b => a.kind = .colon ∨ b.kind = .colon → a.stop = b.start

instance (ts : List Token) : Decidable (Glued ts) :=
  inferInstanceAs (Decidable (ts.IsChain _))

/-- Tokens that are read as a tree. The grammar says which `*` multiplies. -/
structure ReadsAs (ts : List Token) (e : Expr) : Prop where
  symbols : ts.map (fun t => t.symbol.plain) = e.symbols.map Symbol.plain
  glued : Glued ts

end TreeQuery.XPath
