import TreeQuery.Failure

/-!
# Forests

All nodes live in one forest. A node has at most one parent; documents and elements list their
children, elements also their attributes and the namespaces they declare. `Forest.Basic` reads a
forest; the other modules build it, name its nodes and infer their namespaces.
-/

namespace TreeQuery

/-- What an element says of itself. `declared` holds the namespaces declared on it besides its
own. -/
structure ElementData where
  name : String
  ns : Namespace
  declared : List Namespace
  attributes : List NodeId
  children : List NodeId

inductive Content where
  | document (children : List NodeId)
  | element (data : ElementData)
  | attr (name value : String) (ns : Namespace)
  | text (value : Value)
  | comment (value : Value)
  | instruction (target data : String)
  deriving Inhabited

structure Node where
  parent : Option NodeId
  content : Content
  deriving Inhabited

structure Forest where
  nodes : Array Node
  deriving Inhabited

/-- The classes of nodes. -/
inductive NodeClass where
  | document | element | attr | text | comment | instruction
  deriving DecidableEq, Repr

namespace NodeClass

/-- The name of a class in messages. -/
def label : NodeClass → String
  | document => "Document"
  | element => "Element"
  | attr => "Attribute"
  | text => "Text"
  | comment => "Comment"
  | instruction => "ProcessingInstruction"

/-- The kind of node of the XPath data model. -/
def kind : NodeClass → String
  | document => "document"
  | element => "element"
  | attr => "attribute"
  | text => "text"
  | comment => "comment"
  | instruction => "processing-instruction"

/-- What a document may contain. -/
def inDocument : NodeClass → Bool
  | element | comment | instruction => true
  | _ => false

/-- What an element may contain. -/
def inElement : NodeClass → Bool
  | element | text | comment | instruction => true
  | _ => false

end NodeClass

namespace Content

def nodeClass : Content → NodeClass
  | document _ => .document
  | element _ => .element
  | attr .. => .attr
  | text _ => .text
  | comment _ => .comment
  | instruction .. => .instruction

def children : Content → List NodeId
  | document cs => cs
  | element e => e.children
  | _ => []

def attributes : Content → List NodeId
  | element e => e.attributes
  | _ => []

/-- The value of an attribute, a text or a comment. -/
def value? : Content → Option Value
  | attr _ value _ => some (.text value)
  | text value | comment value => some value
  | _ => none

/-- Adds a last child. -/
def push (child : NodeId) : Content → Content
  | document cs => document (cs ++ [child])
  | element e => element { e with children := e.children ++ [child] }
  | c => c

end Content

namespace Forest

def empty : Forest := ⟨#[]⟩

def node? (f : Forest) (id : NodeId) : Option Node := f.nodes[id]?

def content? (f : Forest) (id : NodeId) : Option Content := (f.node? id).map (·.content)

def parent? (f : Forest) (id : NodeId) : Option NodeId := (f.node? id).bind (·.parent)

def class? (f : Forest) (id : NodeId) : Option NodeClass := (f.content? id).map (·.nodeClass)

def element? (f : Forest) (id : NodeId) : Option ElementData :=
  match f.content? id with
  | some (.element e) => some e
  | _ => none

def isElement (f : Forest) (id : NodeId) : Bool := f.class? id == some .element

def children (f : Forest) (id : NodeId) : List NodeId :=
  ((f.content? id).map (·.children)).getD []

def attributes (f : Forest) (id : NodeId) : List NodeId :=
  ((f.content? id).map (·.attributes)).getD []

/-- Adds a node without a parent. -/
def add (f : Forest) (c : Content) : Forest × NodeId :=
  (⟨f.nodes.push ⟨none, c⟩⟩, f.nodes.size)

/-- Changes one node. -/
def modify (f : Forest) (id : NodeId) (change : Node → Node) : Forest :=
  ⟨f.nodes.modify id change⟩

def setParent (f : Forest) (id : NodeId) (parent : Option NodeId) : Forest :=
  f.modify id fun n => { n with parent }

def setContent (f : Forest) (id : NodeId) (content : Content) : Forest :=
  f.modify id fun n => { n with content }

/-! ## Ancestors -/

/-- The nearest `steps` ancestors, nearest first. -/
def ancestorsUpTo (f : Forest) : Nat → NodeId → List NodeId
  | 0, _ => []
  | steps + 1, id =>
    match f.parent? id with
    | some p => p :: f.ancestorsUpTo steps p
    | none => []

/-- The ancestors of a node, nearest first. No chain of parents is longer than the forest. -/
def ancestors (f : Forest) (id : NodeId) : List NodeId :=
  f.ancestorsUpTo f.nodes.size id

/-- The top-most ancestor, or the node itself. -/
def root (f : Forest) (id : NodeId) : NodeId :=
  (f.ancestors id).getLast?.getD id

/-- The document that holds a node. -/
def document? (f : Forest) (id : NodeId) : Option NodeId :=
  if f.class? (f.root id) = some .document then some (f.root id) else none

/-- The first element among the children. -/
def rootElement? (f : Forest) (id : NodeId) : Option NodeId :=
  (f.children id).find? f.isElement

/-- An element and the elements around it, nearest first. -/
def elementChain (f : Forest) (id : NodeId) : List NodeId :=
  (id :: f.ancestors id).takeWhile f.isElement

end Forest

end TreeQuery
