import TreeQuery.Forest.Tree
import TreeQuery.Forest.Shown
import TreeQuery.XPath.Literal

/-!
# Absolute paths

An absolute path names one node from the top of its tree. It needs no bindings of prefixes: names
in a namespace are tested by `local-name()` and `namespace-uri()`. A position is given only where
a sibling passes the same test.
-/

namespace TreeQuery

/-- A test of the name of an element or an attribute. -/
inductive NameTest where
  | plain (name : String)
  | expanded (name uri : String)
  deriving DecidableEq, Repr

inductive PathStep where
  | element (test : NameTest) (position : Option Nat)
  | attr (test : NameTest)
  | text (position : Option Nat)
  | comment (position : Option Nat)
  | instruction (target : String) (position : Option Nat)
  deriving DecidableEq, Repr

/-- The steps from the root of the tree. -/
abbrev AbsolutePath := List PathStep

/-! ## Text -/

def NameTest.render : NameTest → String
  | plain name => name
  | expanded name uri =>
    "*[local-name() = " ++ XPath.literal name ++ " and namespace-uri() = " ++ XPath.literal uri ++
      "]"

def positionText : Option Nat → String
  | some n => "[" ++ toString n ++ "]"
  | none => ""

def PathStep.render : PathStep → String
  | element test position => test.render ++ positionText position
  | attr test => "@" ++ test.render
  | text position => "text()" ++ positionText position
  | comment position => "comment()" ++ positionText position
  | instruction target position =>
    "processing-instruction(" ++ XPath.literal target ++ ")" ++ positionText position

/-- The path to the root alone is `/`. -/
def AbsolutePath.render (path : AbsolutePath) : String :=
  if path.isEmpty then "/" else String.join (path.map fun s => "/" ++ s.render)

/-! ## The path of a node -/

def nameTest (name : String) (ns : Namespace) : NameTest :=
  if ns.uri = "" then .plain name else .expanded name ns.uri

/-- The runs of adjacent entries that satisfy `p`. -/
def runs {α : Type} (p : α → Bool) : List α → List (List α)
  | [] => []
  | a :: as =>
    if p a then
      match as.head?.any p, runs p as with
      | true, r :: rs => (a :: r) :: rs
      | _, rs => [a] :: rs
    else runs p as

namespace Forest

/-- Whether the step to `a` without a position would lead to `b` as well. -/
def sameTest (f : Forest) (a b : NodeId) : Bool :=
  match f.content? a, f.content? b with
  | some (.element x), some (.element y) => x.name == y.name && x.ns.uri == y.ns.uri
  | some (.instruction s _), some (.instruction t _) => s == t
  | some x, some y => x.nodeClass == y.nodeClass
  | _, _ => false

/-- The position of a node among the siblings that pass the same test, if there are others. -/
def position? (f : Forest) (id : NodeId) : Option Nat :=
  match f.parent? id with
  | none => none
  | some p =>
    let matching := (f.children p).filter (f.sameTest id)
    if matching.length < 2 then none else (matching.idxOf? id).map (· + 1)

def isText (f : Forest) (id : NodeId) : Bool := f.class? id == some .text

/-- Whether a text node holds anything. -/
def hasText (f : Forest) (id : NodeId) : Bool :=
  match f.content? id with
  | some (.text v) => v.truthy
  | _ => false

/-- The runs of adjacent text nodes among the children that hold anything: each is one text node
to XPath. -/
def textRuns (f : Forest) (parent : NodeId) : List (List NodeId) :=
  (runs f.isText (f.children parent)).filter (·.any f.hasText)

/-- The position of a text node's run, if there are others. -/
def textPosition (f : Forest) (id : NodeId) : Except Failure (Option Nat) :=
  match f.parent? id with
  | none => .ok none
  | some p =>
    let rs := f.textRuns p
    match rs.findIdx? (·.contains id) with
    | some i => .ok (if rs.length < 2 then none else some (i + 1))
    | none => .error (f.failureOn (.node id) .noText)

def elementStep (f : Forest) (id : NodeId) (e : ElementData) : PathStep :=
  .element (nameTest e.name e.ns) (f.position? id)

/-- The step from its parent to a node that can be a child. -/
def step (f : Forest) (id : NodeId) : Except Failure PathStep :=
  match f.content? id with
  | some (.element e) => .ok (f.elementStep id e)
  | some (.comment _) => .ok (.comment (f.position? id))
  | some (.instruction target _) => .ok (.instruction target (f.position? id))
  | some (.text _) => (f.textPosition id).map .text
  | _ => .error (f.failureOn (.node id) .noStep)

/-- The steps to an element. -/
def elementPath (f : Forest) (id : NodeId) : AbsolutePath :=
  (f.elementChain id).reverse.filterMap fun a => (f.element? a).map (f.elementStep a)

/-- The path that selects a node from the top of its tree. A text node has the path of its run; a
run without text has none. -/
def absolutePath (f : Forest) (v : Value) : Except Failure AbsolutePath :=
  match v with
  | .node id =>
    let before := ((f.parent? id).map f.elementPath).getD []
    match f.content? id with
    | some (.document _) => .ok []
    | some (.attr name _ ns) =>
      match f.parent? id with
      | none => .error (f.failureOn v .detached)
      | some p => .ok (f.elementPath p ++ [.attr (nameTest name ns)])
    | _ => (f.step id).map fun s => before ++ [s]
  | _ => .error (f.failureOn v .noStep)

end Forest

end TreeQuery
