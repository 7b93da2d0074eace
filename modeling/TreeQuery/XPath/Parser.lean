import TreeQuery.Text.Blank
import TreeQuery.Text.Name
import TreeQuery.XPath.Syntax

/-!
# Parsing of expressions

Reads an expression from its characters without a lexer. The operators `or`, `and`, `div` and `mod`
are read wherever an operator can stand, whatever follows their letters. Expressions within
expressions are read up to a given depth.
-/

namespace TreeQuery.XPath

/-- Reads something at the front of a text and gives what follows it. -/
abbrev Parser (α : Type) := List Char → Option (α × List Char)

namespace Parser

def blanks (cs : List Char) : List Char := cs.dropWhile Text.isSpace

/-- What follows a character at the front. -/
def after (c : Char) (cs : List Char) : Option (List Char) :=
  match cs with
  | d :: rest => if c = d then some rest else none
  | [] => none

/-! ## Lexical parts -/

def ncName : Parser String
  | c :: cs =>
    if Text.isNameStart c then
      some (String.ofList (c :: cs.takeWhile Text.isNameChar), cs.dropWhile Text.isNameChar)
    else none
  | [] => none

def qualifiedName : Parser Name := fun cs => do
  let (first, rest) ← ncName cs
  match rest with
  | ':' :: rest =>
    let (second, rest) ← ncName rest
    return (⟨some first, second⟩, rest)
  | _ => return (⟨none, first⟩, rest)

def quoted : Parser String
  | q :: cs =>
    if q = '"' ∨ q = '\'' then
      match cs.dropWhile (· != q) with
      | _ :: rest => some (String.ofList (cs.takeWhile (· != q)), rest)
      | [] => none
    else none
  | [] => none

/-- The exponent of a numeral with its sign, if there is one. -/
def exponent (cs : List Char) : List Char × List Char :=
  let digits (mark sign rest : List Char) : List Char × List Char :=
    (mark ++ sign ++ rest.takeWhile Char.isDigit, rest.dropWhile Char.isDigit)
  match cs with
  | e :: rest =>
    if e = 'e' ∨ e = 'E' then
      match rest with
      | '-' :: rest => digits [e] ['-'] rest
      | '+' :: rest => digits [e] ['+'] rest
      | _ => digits [e] [] rest
    else ([], cs)
  | [] => ([], cs)

def numeral : Parser String := fun cs =>
  let whole := cs.takeWhile Char.isDigit
  let rest := cs.dropWhile Char.isDigit
  match rest with
  | '.' :: rest =>
    let fraction := rest.takeWhile Char.isDigit
    if whole.isEmpty && fraction.isEmpty then none
    else
      let (e, rest) := exponent (rest.dropWhile Char.isDigit)
      some (String.ofList (whole ++ '.' :: fraction ++ e), rest)
  | _ =>
    if whole.isEmpty then none
    else
      let (e, rest) := exponent rest
      some (String.ofList (whole ++ e), rest)

/-! ## Repetition -/

/-- Reads as often as it can be read; what is read takes up at least one character. -/
def repeated {α : Type} (p : List Char → Option (Option (α × List Char))) (cs : List Char) :
    Option (List α × List Char) :=
  upTo (cs.length + 1) cs
where
  upTo : Nat → List Char → Option (List α × List Char)
    | 0, _ => none
    | n + 1, cs =>
      match p cs with
      | none => some ([], cs)
      | some none => none
      | some (some (a, rest)) => (upTo n rest).map fun r => (a :: r.1, r.2)

/-- Reads an operand and then, as long as there is an operator, the operator and its operand. -/
def chain (operator : Parser Operator) (operand : Parser Expr) : Parser Expr := fun cs => do
  let (first, rest) ← operand cs
  let (more, rest) ← repeated (fun cs =>
    (operator (blanks cs)).map fun r => (operand (blanks r.2)).map fun e => ((r.1, e.1), e.2)) rest
  return (more.foldl (fun left r => .binary r.1 left r.2) first, blanks rest)

/-- The first of some spellings that stands at the front. -/
def spelled (spellings : List (String × Operator)) : Parser Operator := fun cs =>
  spellings.findSome? fun s => (s.1.toList.isPrefixOf? cs).map fun rest => (s.2, rest)

/-! ## Steps -/

def isNodeType (s : String) : Bool :=
  s == "node" || s == "text" || s == "comment" || s == "processing-instruction"

/-- The inside and the end of a node type test. -/
def nodeType (name : String) (cs : List Char) : Option (NodeTest × List Char) :=
  let close (t : NodeTest) (cs : List Char) : Option (NodeTest × List Char) :=
    (after ')' (blanks cs)).map fun rest => (t, rest)
  match name with
  | "node" => close .node cs
  | "text" => close .text cs
  | "comment" => close .comment cs
  | "processing-instruction" =>
    match after ')' (blanks cs) with
    | some rest => some (.instruction none, rest)
    | none => do
      let (target, rest) ← quoted (blanks cs)
      close (.instruction (some target)) rest
  | _ => none

/-- The rest of a node test that begins with a name. -/
def namedTest (name : String) (cs : List Char) : Option (NodeTest × List Char) :=
  match blanks cs with
  | '(' :: rest => nodeType name rest
  | _ =>
    match cs with
    | ':' :: '*' :: rest => some (.any (some name), rest)
    | ':' :: rest => (ncName rest).map fun r => (.name ⟨some name, r.1⟩, r.2)
    | _ => some (.name ⟨none, name⟩, blanks cs)

def nodeTest : Parser NodeTest := fun cs =>
  match blanks cs with
  | '*' :: rest => some (.any none, rest)
  | cs => do
    let (name, rest) ← ncName cs
    namedTest name rest

/-- The axis and the node test of a step. -/
def axisAndTest : Parser (AxisSpec × NodeTest) := fun cs =>
  match ncName cs with
  | some (name, rest) =>
    match Axis.ofText? name with
    | some a =>
      match blanks rest with
      | ':' :: ':' :: rest => (nodeTest rest).map fun r => ((.named a, r.1), r.2)
      | rest => (namedTest name rest).map fun r => ((.implied, r.1), r.2)
    | none => (namedTest name rest).map fun r => ((.implied, r.1), r.2)
  | none =>
    match cs with
    | '@' :: rest => (nodeTest rest).map fun r => ((.atSign, r.1), r.2)
    | _ => (nodeTest cs).map fun r => ((.implied, r.1), r.2)

/-- A predicate, if one begins here. -/
def predicate (inner : Parser Expr) (cs : List Char) : Option (Option (Expr × List Char)) :=
  (after '[' (blanks cs)).map fun rest => do
    let (e, rest) ← inner (blanks rest)
    let rest ← after ']' rest
    return (e, blanks rest)

def step (inner : Parser Expr) : Parser Step := fun cs =>
  match blanks cs with
  | '.' :: '.' :: rest => some (.up, blanks rest)
  | '.' :: rest => some (.here, blanks rest)
  | cs => do
    let ((axis, test), rest) ← axisAndTest cs
    let (predicates, rest) ← repeated (predicate inner) (blanks rest)
    return (.along axis test predicates, rest)

/-- A separator and a step, if there is a separator. -/
def separated (inner : Parser Expr) (cs : List Char) :
    Option (Option ((Separator × Step) × List Char)) :=
  match blanks cs with
  | '/' :: '/' :: rest => some ((step inner rest).map fun r => ((.doubleSlash, r.1), r.2))
  | '/' :: rest => some ((step inner rest).map fun r => ((.slash, r.1), r.2))
  | _ => none

def stepsOf (parts : List (Separator × Step)) : Steps :=
  parts.foldr (fun p rest => .next p.1 p.2 rest) .done

/-- The step at the front and those after it. -/
def stepAndMore (inner : Parser Expr) : Parser (Step × Steps) := fun cs => do
  let (first, rest) ← step inner cs
  let (more, rest) ← repeated (separated inner) rest
  return ((first, stepsOf more), blanks rest)

/-- The steps after `sep`. One more separator may stand before the first of them, as if `.` stood
between the two. -/
def stepsAfter (inner : Parser Expr) (sep : Separator) : Parser Steps := fun cs =>
  let more (before : Steps → Steps) (sep : Separator) (cs : List Char) :=
    (stepAndMore inner cs).map fun r => (before (.next sep r.1.1 r.1.2), r.2)
  match blanks cs with
  | '/' :: '/' :: rest => more (.next sep .here) .doubleSlash rest
  | '/' :: rest => more (.next sep .here) .slash rest
  | cs => more id sep cs

/-- Whether a character after `/` begins a step. -/
def beginsRelative (c : Char) : Bool :=
  c.isAlpha || 0x80 ≤ c.toNat || c == '_' || c == '.' || c == '@' || c == '*'

/-- A path from the root. A `/` without a step may be repeated. -/
def fromRoot (inner : Parser Expr) : Nat → Parser Steps
  | 0, _ => none
  | n + 1, cs =>
    match cs with
    | '/' :: '/' :: rest => stepsAfter inner .doubleSlash rest
    | '/' :: rest =>
      match blanks rest with
      | c :: rest =>
        if beginsRelative c then
          (stepAndMore inner (c :: rest)).map fun r => (.next .slash r.1.1 r.1.2, r.2)
        else fromRoot inner n (c :: rest)
      | [] => some (.done, [])
    | _ => some (.done, cs)

/-! ## Expressions -/

/-- The arguments of a call after its opening parenthesis. The text may end in place of an
argument. -/
def arguments (inner : Parser Expr) : Nat → Parser (List Expr)
  | 0, _ => none
  | n + 1, cs =>
    match cs with
    | [] => some ([], [])
    | cs => do
      let (e, rest) ← inner cs
      match rest with
      | ')' :: rest => return ([e], blanks rest)
      | ',' :: rest =>
        let (es, rest) ← arguments inner n (blanks rest)
        return (e :: es, rest)
      | _ => none

def call (inner : Parser Expr) : Parser Expr := fun cs => do
  let (name, rest) ← qualifiedName cs
  let rest ← after '(' (blanks rest)
  match blanks rest with
  | ')' :: rest => return (.call name [], blanks rest)
  | rest =>
    let (es, rest) ← arguments inner (rest.length + 1) rest
    return (.call name es, rest)

def primary (inner : Parser Expr) : Parser Expr := fun cs =>
  match cs with
  | '$' :: rest => (qualifiedName rest).map fun r => (.variable r.1, r.2)
  | '(' :: rest => do
    let (e, rest) ← inner (blanks rest)
    let rest ← after ')' rest
    return (.group e, rest)
  | '"' :: _ | '\'' :: _ => (quoted cs).map fun r => (.literal r.1, r.2)
  | c :: _ =>
    if c.isDigit || c == '.' then (numeral cs).map fun r => (.number r.1, r.2) else call inner cs
  | [] => none

/-- A primary expression with its predicates and the steps that go on from it. -/
def filtered (inner : Parser Expr) : Parser Expr := fun cs => do
  let (e, rest) ← primary inner cs
  let (predicates, rest) ← repeated (predicate inner) (blanks rest)
  let e := predicates.foldl .filter e
  match blanks rest with
  | '/' :: '/' :: rest =>
    let (steps, rest) ← stepsAfter inner .doubleSlash rest
    return (.through e steps, rest)
  | '/' :: rest =>
    let (more, rest) ← stepAndMore inner rest
    return (.through e (.next .slash more.1 more.2), rest)
  | rest => return (e, rest)

/-- Whether a primary expression begins here that is no call. -/
def beginsPrimary : List Char → Bool
  | '.' :: c :: _ => c.isDigit
  | c :: _ => c == '$' || c == '(' || c == '\'' || c == '"' || c.isDigit
  | [] => false

/-- Whether a name and its colons are followed by the parenthesis of a call. -/
def beginsCall (cs : List Char) : Bool :=
  let inName (c : Char) : Bool := Text.isNameChar c || c == ':'
  let name := cs.takeWhile inName
  let rec hasAxis : List Char → Bool
    | ':' :: ':' :: _ => true
    | _ :: rest => hasAxis rest
    | [] => false
  !hasAxis name && (blanks (cs.dropWhile inName)).head? == some '(' &&
    !isNodeType (String.ofList name)

def pathExpr (inner : Parser Expr) : Parser Expr := fun cs =>
  match blanks cs with
  | [] => none
  | c :: rest =>
    if beginsPrimary (c :: rest) then filtered inner (c :: rest)
    else if c == '/' then
      (fromRoot inner (rest.length + 2) (c :: rest)).map fun r => (.absolute r.1, blanks r.2)
    else if c == '*' || c == '@' || c == '.' then relative (c :: rest)
    else if Text.isNameStart c || c == ':' then
      if beginsCall (c :: rest) then filtered inner (c :: rest) else relative (c :: rest)
    else none
where
  relative (cs : List Char) : Option (Expr × List Char) :=
    (stepAndMore inner cs).map fun r => (.relative r.1.1 r.1.2, r.2)

def unionExpr (inner : Parser Expr) : Parser Expr :=
  chain (spelled [("|", .union)]) (pathExpr inner)

def unaryExpr (inner : Parser Expr) : Parser Expr := fun cs => do
  let (signs, rest) ← repeated (fun cs => (after '-' (blanks cs)).map fun r => some ((), r)) cs
  let (e, rest) ← unionExpr inner rest
  return (signs.foldl (fun e _ => .negate e) e, rest)

def operators : List (List (String × Operator)) :=
  [[("*", .times), ("div", .div), ("mod", .mod)],
    [("+", .plus), ("-", .minus)],
    [("<=", .le), ("<", .lt), (">=", .ge), (">", .gt)],
    [("=", .eq), ("!=", .ne)],
    [("and", .and)],
    [("or", .or)]]

/-- An expression with at most `depth` expressions around each other. -/
def expr : Nat → Parser Expr
  | 0, _ => none
  | depth + 1, cs =>
    operators.foldl (fun operand spellings => chain (spelled spellings) operand)
      (unaryExpr (expr depth)) cs

/-- How many expressions may stand around each other. -/
def maxDepth : Nat := 500

end Parser

/-- Reads a whole text as an expression. -/
def parse? (s : String) : Option Expr :=
  match Parser.expr Parser.maxDepth s.toList with
  | some (e, []) => some e
  | _ => none

end TreeQuery.XPath
