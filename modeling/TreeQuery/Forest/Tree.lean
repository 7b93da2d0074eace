import TreeQuery.Forest.Basic

/-!
# Trees

A tree is a node of a forest read out with everything below it.
-/

namespace TreeQuery

structure Attr where
  id : NodeId
  name : String
  value : String
  ns : Namespace

inductive Tree where
  | document (id : NodeId) (children : List Tree)
  | element (id : NodeId) (name : String) (ns : Namespace) (declared : List Namespace)
      (attributes : List Attr) (children : List Tree)
  | attr (a : Attr)
  | text (id : NodeId) (value : Value)
  | comment (id : NodeId) (value : Value)
  | instruction (id : NodeId) (target data : String)

namespace Tree

def id : Tree → NodeId
  | document id _ | element id .. | text id _ | comment id _ | instruction id _ _ => id
  | attr a => a.id

def children : Tree → List Tree
  | document _ cs | element _ _ _ _ _ cs => cs
  | _ => []

def isElement : Tree → Bool
  | element .. => true
  | _ => false

mutual

/-- The nodes of a tree in document order, attributes left out. -/
def ids : Tree → List NodeId
  | document id cs => id :: idsAll cs
  | element id _ _ _ _ cs => id :: idsAll cs
  | attr _ => []
  | text id _ | comment id _ | instruction id _ _ => [id]

def idsAll : List Tree → List NodeId
  | [] => []
  | t :: ts => t.ids ++ idsAll ts

end

/-- Joins the string values of an element's children. A value that is not text can not be
joined. -/
def join (index : Nat) (typeName : Value → String) : List Value → Except Failure String
  | [] => .ok ""
  | .text s :: vs => (join (index + 1) typeName vs).map (s ++ ·)
  | v :: _ => .error (.notText index (typeName v))

mutual

/-- The string value of a node: of an element, the text below it; of a document, that of its root
element. -/
def stringValue (typeName : Value → String) : Tree → Except Failure Value
  | document _ cs => rootValue typeName cs
  | element _ _ _ _ _ cs =>
    match childValues typeName cs with
    | .ok vs => (join 0 typeName vs).map .text
    | .error fault => .error fault
  | attr a => .ok (.text a.value)
  | text _ v => .ok v
  | comment _ v => .ok v
  | instruction _ _ data => .ok (.text data)

/-- The string value of the first element. -/
def rootValue (typeName : Value → String) : List Tree → Except Failure Value
  | [] => .ok (.text "")
  | t :: ts =>
    match t with
    | element .. => t.stringValue typeName
    | _ => rootValue typeName ts

/-- The string values of the elements and text nodes. -/
def childValues (typeName : Value → String) : List Tree → Except Failure (List Value)
  | [] => .ok []
  | t :: ts =>
    match t with
    | element .. | text .. =>
      match t.stringValue typeName with
      | .ok v => (childValues typeName ts).map (v :: ·)
      | .error fault => .error fault
    | _ => childValues typeName ts

end

end Tree

namespace Forest

def attr? (f : Forest) (id : NodeId) : Option Attr :=
  match f.content? id with
  | some (.attr name value ns) => some ⟨id, name, value, ns⟩
  | _ => none

/-- Reads out a node and `depth` levels below it. -/
def treeTo (f : Forest) (depth : Nat) (id : NodeId) : Tree :=
  let below (cs : List NodeId) : List Tree :=
    match depth with
    | 0 => []
    | d + 1 => cs.map (f.treeTo d)
  match f.content? id with
  | some (.document cs) => .document id (below cs)
  | some (.element e) =>
    .element id e.name e.ns e.declared (e.attributes.filterMap f.attr?) (below e.children)
  | some (.attr name value ns) => .attr ⟨id, name, value, ns⟩
  | some (.text v) => .text id v
  | some (.comment v) => .comment id v
  | some (.instruction target data) => .instruction id target data
  | none => .document id []

/-- The tree below a node. No tree is deeper than the forest has nodes. -/
def tree (f : Forest) (id : NodeId) : Tree :=
  f.treeTo f.nodes.size id

end Forest

end TreeQuery
