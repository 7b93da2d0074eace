import TreeQuery.XPath.Reference

/-!
# Uses of the context node

Where an expression looks at the node it is evaluated against: the relative paths that start
there, and the calls that take it as an argument left out. What stands in a predicate looks at
another node and does not count.
-/

namespace TreeQuery.XPath

/-- Tokens after which a step begins a new relative path. -/
def startsPath : TokenKind → Bool
  | .openParen | .comma | .bar | .equality | .relation | .plus | .minus | .times | .and | .or
  | .div | .mod => true
  | _ => false

/-- Tokens that a step can begin with. -/
def beginsStep : TokenKind → Bool
  | .name | .nodeType | .star | .dot | .doubleDot | .atSign => true
  | _ => false

/-- Whether the tokens begin with the name of a function that is called. -/
def callsFunction (ts : List Token) : Bool :=
  match ts with
  | [] => false
  | t :: rest =>
    let after := match qualified? ts with
      | some (_, _, rest') => rest'
      | none => rest
    t.kind == .name && after.head?.any (·.kind == .openParen)

/-- The number of predicates open after a token. Closing more than are open goes below zero. -/
def depthAfter (depth : Int) (t : Token) : Int :=
  match t.kind with
  | .openBracket => depth + 1
  | .closeBracket => depth - 1
  | _ => depth

/-- Whether a token begins a relative path, given the one before it and those after it. -/
def beginsPath (last : Option Token) (t : Token) (rest : List Token) : Bool :=
  beginsStep t.kind && last.all (fun l => startsPath l.kind) && !callsFunction (t :: rest)

def relativePathsFrom (depth : Int) (last : Option Token) : List Token → List Nat
  | [] => []
  | t :: rest =>
    let found := relativePathsFrom (depthAfter depth t) (some t) rest
    if depth == 0 && beginsPath last t rest then t.start :: found else found

/-- The positions of the relative paths that are evaluated against the context node itself. -/
def relativePaths (ts : List Token) : List Nat :=
  relativePathsFrom 0 none ts

/-- Functions that take the context node when called without arguments. -/
def contextFunctions : List String :=
  ["name", "local-name", "namespace-uri", "string", "string-length", "normalize-space", "number"]

/-- A call that looks at the context node. Its name starts at `start`, its arguments at `inside`,
and it ends just before `after`. -/
structure ContextCall where
  name : String
  start : Nat
  inside : Nat
  after : Nat
  deriving DecidableEq, Repr

/-- The parenthesis that closes the one opened `depth` levels up. -/
def closing? (depth : Nat) : List Token → Option Token
  | [] => none
  | t :: rest =>
    match t.kind, depth with
    | .openParen, d => closing? (d + 1) rest
    | .closeParen, 0 => some t
    | .closeParen, d + 1 => closing? d rest
    | _, d => closing? d rest

/-- The call at the front, if it is one that looks at the context node. -/
def contextCall? (last : Option Token) : List Token → Option ContextCall
  | n :: p :: rest =>
    if n.kind == .name && p.kind == .openParen && !last.any (·.kind == .colon) then
      match closing? 0 rest with
      | none => none
      | some close =>
        if n.string == "lang" ||
            (contextFunctions.contains n.string &&
              rest.head?.any (·.kind == .closeParen)) then
          some ⟨n.string, n.start, p.stop, close.stop⟩
        else none
    else none
  | _ => none

def contextCallsFrom (depth : Int) (last : Option Token) : List Token → List ContextCall
  | [] => []
  | t :: rest =>
    let found := contextCallsFrom (depthAfter depth t) (some t) rest
    if depth == 0 then
      match contextCall? last (t :: rest) with
      | some call => call :: found
      | none => found
    else found

/-- The calls outside predicates that look at the context node without being given a node:
`lang` always, and the `contextFunctions` without arguments. -/
def contextCalls (ts : List Token) : List ContextCall :=
  contextCallsFrom 0 none ts

/-- Steps that stay where they are: `/.` any number of times. -/
def onlyDots : List TokenKind → Bool
  | [] => true
  | .slash :: .dot :: rest => onlyDots rest
  | _ => false

/-- Whether the tokens are a path to the root and nothing but the root: `/`, `/.`, `/./.` and so
on. -/
def selectsRoot (ts : List Token) : Bool :=
  match ts.map Token.kind with
  | [.slash] => true
  | .slash :: .dot :: rest => onlyDots rest
  | _ => false

/-- Whether the tokens are a path that stays at the context: `.`, `./.` and so on. -/
def selectsContext (ts : List Token) : Bool :=
  match ts.map Token.kind with
  | .dot :: rest => onlyDots rest
  | _ => false

end TreeQuery.XPath
