import TreeQuery.View.Basic
import TreeQuery.View.Exchange
import TreeQuery.XPath.Syntax

/-!
# The data model of expressions

What expressions select: documents, elements, texts, comments, instructions, attributes and
namespaces, each known by its place. A place is a document, the positions of children on the way
down, and a part of the node found there.
-/

namespace TreeQuery.XPath

/-- A view with its texts as nodes of their own. -/
inductive Branch where
  | element (view : ViewId) (data : ViewElement) (children : List Branch)
  | text (slot : Slot) (value : String)
  | comment (view : ViewId) (value : String)
  | instruction (view : ViewId) (target data : String)

namespace Branch

def textNodes (slot : Slot) (value : Option String) : List Branch :=
  match value with
  | some s => if s = "" then [] else [.text slot s]
  | none => []

mutual

def ofView : View → Branch
  | .element id data first children _ =>
    .element id data (textNodes ⟨id, false⟩ first ++ ofViews children)
  | .comment id value _ => .comment id value
  | .instruction id target data _ => .instruction id target data

/-- Views side by side, each followed by the text after it. -/
def ofViews : List View → List Branch
  | [] => []
  | v :: vs => ofView v :: (textNodes ⟨v.id, true⟩ v.tail ++ ofViews vs)

end

def children : Branch → List Branch
  | element _ _ cs => cs
  | _ => []

mutual

/-- The text below a node. -/
def textBelow : Branch → String
  | element _ _ cs => textOf cs
  | text _ s => s
  | _ => ""

def textOf : List Branch → String
  | [] => ""
  | b :: bs => b.textBelow ++ textOf bs

end

end Branch

/-- A part of a node. -/
inductive Part where
  | whole
  | attr (index : Nat)
  | ns (pfx : String)
  deriving DecidableEq, Repr

structure Place where
  document : Nat
  path : List Nat
  part : Part
  deriving DecidableEq, Repr

/-- What a node is. -/
inductive Item where
  | document (children : List Branch)
  | branch (b : Branch)
  | attr (owner : ViewId) (a : ViewAttribute)
  | ns (pfx uri : String)

/-- A node: where it is and what it is. -/
structure XNode where
  place : Place
  item : Item

/-- The documents that an expression can reach. -/
abbrev Documents := List (List Branch)

def documentsOf (views : List ViewDocument) : Documents :=
  views.map fun d => d.map Branch.ofView

namespace XNode

def same (a b : XNode) : Bool := a.place = b.place

def isTree (n : XNode) : Bool :=
  match n.item with
  | .document _ | .branch _ => true
  | _ => false

/-- The children of a node, in order. Attributes and namespaces have none. -/
def children (n : XNode) : List XNode :=
  let cs := match n.item with
    | .document cs => cs
    | .branch b => b.children
    | _ => []
  cs.zipIdx.map fun c => ⟨⟨n.place.document, n.place.path ++ [c.2], .whole⟩, .branch c.1⟩

end XNode

/-- The node of a document itself. -/
def documentNode (ds : Documents) (d : Nat) : XNode :=
  ⟨⟨d, [], .whole⟩, .document (ds.getD d [])⟩

/-- The node found by going down from a node. -/
def descend? (n : XNode) : List Nat → Option XNode
  | [] => some n
  | i :: path => (n.children[i]?).bind fun c => descend? c path

/-- The node at a path of a document. -/
def nodeAt? (ds : Documents) (d : Nat) (path : List Nat) : Option XNode :=
  descend? (documentNode ds d) path

/-! ## Finding views -/

mutual

/-- The path to a view below a node. -/
def pathTo? (view : ViewId) : Branch → Option (List Nat)
  | .element v _ cs => if v = view then some [] else pathIn? view 0 cs
  | .comment v _ | .instruction v _ _ => if v = view then some [] else none
  | .text .. => none

def pathIn? (view : ViewId) (i : Nat) : List Branch → Option (List Nat)
  | [] => none
  | b :: bs =>
    match pathTo? view b with
    | some path => some (i :: path)
    | none => pathIn? view (i + 1) bs

end

/-- The node of a view. -/
def nodeOfView? (ds : Documents) (view : ViewId) : Option XNode :=
  (ds.zipIdx).findSome? fun d =>
    (pathIn? view 0 d.1).bind fun path => nodeAt? ds d.2 path

/-! ## String values and names -/

namespace XNode

def stringValue (n : XNode) : String :=
  match n.item with
  | .document cs => Branch.textOf cs
  | .branch (.comment _ s) => s
  | .branch (.instruction _ _ data) => data
  | .branch b => b.textBelow
  | .attr _ a => a.value
  | .ns _ uri => uri

/-- The expanded name of an element or an attribute, with the prefix it is written with. -/
def name? (n : XNode) : Option (ExpandedName × String) :=
  match n.item with
  | .branch (.element _ e _) => some (e.name, e.pfx)
  | .attr _ a => some (a.name, a.pfx)
  | _ => none

def localName (n : XNode) : String :=
  match n.item with
  | .branch (.instruction _ target _) => target
  | .ns pfx _ => pfx
  | _ => (n.name?.map (·.1.localName)).getD ""

def namespaceUri (n : XNode) : String :=
  (n.name?.map (·.1.uri)).getD ""

/-- The name with its prefix. -/
def qualifiedName (n : XNode) : String :=
  match n.name? with
  | some (name, p) => if name.uri = "" ∨ p = "" then name.localName else p ++ ":" ++ name.localName
  | none => n.localName

end XNode

/-! ## Axes -/

namespace XNode

/-- The node that an attribute or a namespace belongs to, or the parent of any other node. -/
def parent? (ds : Documents) (n : XNode) : Option XNode :=
  if n.isTree then
    if n.place.path.isEmpty then none
    else nodeAt? ds n.place.document n.place.path.dropLast
  else nodeAt? ds n.place.document n.place.path

/-- The nodes above a node, nearest first. -/
def ancestors (ds : Documents) (n : XNode) : List XNode :=
  let path := n.place.path
  let lengths := List.range (if n.isTree then path.length else path.length + 1)
  lengths.reverse.filterMap fun k => nodeAt? ds n.place.document (path.take k)

mutual

/-- A branch and all below it, in document order. -/
def below (document : Nat) (path : List Nat) : Branch → List XNode
  | .element v data cs =>
    ⟨⟨document, path, .whole⟩, .branch (.element v data cs)⟩ :: belowAll document path 0 cs
  | b => [⟨⟨document, path, .whole⟩, .branch b⟩]

def belowAll (document : Nat) (path : List Nat) (i : Nat) : List Branch → List XNode
  | [] => []
  | b :: bs => below document (path ++ [i]) b ++ belowAll document path (i + 1) bs

end

/-- All nodes below a node, in document order. -/
def descendants (n : XNode) : List XNode :=
  match n.item with
  | .document cs => belowAll n.place.document n.place.path 0 cs
  | .branch b => belowAll n.place.document n.place.path 0 b.children
  | _ => []

/-- The siblings before a node, nearest first. -/
def siblingsBefore (ds : Documents) (n : XNode) : List XNode :=
  match n.isTree, n.place.path.getLast? with
  | true, some i => ((n.parent? ds).map fun p => (p.children.take i).reverse).getD []
  | _, _ => []

/-- The siblings after a node, in order. -/
def siblingsAfter (ds : Documents) (n : XNode) : List XNode :=
  match n.isTree, n.place.path.getLast? with
  | true, some i => ((n.parent? ds).map fun p => p.children.drop (i + 1)).getD []
  | _, _ => []

/-- A node of the tree: itself, or what an attribute or a namespace belongs to. -/
def owner (ds : Documents) (n : XNode) : List XNode :=
  if n.isTree then [n] else (n.parent? ds).toList

/-- What follows a node, its descendants left out. Of an attribute, what follows its element. -/
def following (ds : Documents) (n : XNode) : List XNode :=
  (n.owner ds).flatMap fun o => (o :: o.ancestors ds).flatMap fun a =>
    (a.siblingsAfter ds).flatMap fun s => s :: s.descendants

/-- What precedes a node, its ancestors left out, nearest first. -/
def preceding (ds : Documents) (n : XNode) : List XNode :=
  (n.owner ds).flatMap fun o => (o :: o.ancestors ds).flatMap fun a =>
    (a.siblingsBefore ds).flatMap fun s => (s :: s.descendants).reverse

def attributes (n : XNode) : List XNode :=
  match n.item with
  | .branch (.element v e _) =>
    e.attributes.zipIdx.map fun a => ⟨{ n.place with part := .attr a.2 }, .attr v a.1⟩
  | _ => []

/-- The namespaces declared on a node. -/
def declared (n : XNode) : List (String × String) :=
  match n.item with
  | .branch (.element _ e _) => e.declared
  | _ => []

/-- The namespaces in scope at an element: `xml` first, then the declarations, those of the
outermost element first and of one element the last first. -/
def namespaces (ds : Documents) (n : XNode) : List XNode :=
  match n.item with
  | .branch (.element ..) =>
    let levels := (n :: n.ancestors ds).map fun a => (⟨a.declared, none⟩ : ViewLevel)
    (("xml", xmlUri) :: (bindingsOf levels).reverse).map fun b =>
      ⟨{ n.place with part := .ns b.1 }, .ns b.1 b.2⟩
  | _ => []

/-- The nodes of an axis, in the order of the axis. -/
def along (ds : Documents) (n : XNode) : Axis → List XNode
  | .ancestor => n.ancestors ds
  | .ancestorOrSelf => n :: n.ancestors ds
  | .attr => n.attributes
  | .child => n.children
  | .descendant => n.descendants
  | .descendantOrSelf => n :: n.descendants
  | .following => n.following ds
  | .followingSibling => n.siblingsAfter ds
  | .ns => n.namespaces ds
  | .parent => (n.parent? ds).toList
  | .preceding => n.preceding ds
  | .precedingSibling => n.siblingsBefore ds
  | .self => [n]

end XNode

/-! ## Node tests -/

/-- Whether an axis selects nodes of a node's kind by name. -/
def isPrincipal (a : Axis) (n : XNode) : Bool :=
  match a, n.item with
  | .attr, .attr .. => true
  | .attr, _ => false
  | .ns, .ns .. => true
  | .ns, _ => false
  | _, .branch (.element ..) => true
  | _, _ => false

/-- Whether a node has a name. `uri` is that of the prefix, if the name is written with one. A
namespace has its prefix for a name. -/
def hasName (uri : Option String) (localName : String) (n : XNode) : Bool :=
  match n.item with
  | .ns pfx _ => pfx == localName && pfx != ""
  | _ =>
    match n.name? with
    | some (name, _) => name.localName == localName && name.uri == uri.getD ""
    | none => false

/-- Whether a node is in the namespace of a prefix, if one is given. -/
def inNamespace (uri : Option String) (n : XNode) : Bool :=
  match n.item, uri with
  | .ns .., _ | _, none => true
  | _, some u => n.namespaceUri == u

/-- Whether a node passes a test on an axis. -/
def passes (a : Axis) (t : NodeTest) (uri : Option String) (n : XNode) : Bool :=
  match t with
  | .node => true
  | .text => match n.item with
    | .branch (.text ..) => true
    | _ => false
  | .comment => match n.item with
    | .branch (.comment ..) => true
    | _ => false
  | .instruction target => match n.item with
    | .branch (.instruction _ t _) => target.all (· == t)
    | _ => false
  | .any _ => isPrincipal a n && inNamespace uri n
  | .name name => isPrincipal a n && hasName uri name.localName n

/-! ## Document order -/

/-- Where a part stands among the parts of its node. -/
def Part.rank : Part → Nat
  | .whole => 0
  | .ns _ => 1
  | .attr i => i + 2

/-- Compares two places of one document. What is further down comes after the parts of the node
above it. -/
def comparePaths : List Nat → List Nat → Part → Part → Ordering
  | [], [], p, q => compare p.rank q.rank
  | [], _ :: _, _, _ => .lt
  | _ :: _, [], _, _ => .gt
  | i :: is, j :: js, p, q => if i = j then comparePaths is js p q else compare i j

/-- The order of two nodes. Nodes of different documents, and namespaces, are in order whichever
comes first. -/
def order (a b : XNode) : Ordering :=
  match a.item, b.item with
  | .ns .., _ | _, .ns .. => .lt
  | _, _ =>
    if a.place.document = b.place.document then
      comparePaths a.place.path b.place.path a.place.part b.place.part
    else .lt

/-- Sorts nodes by inserting each among those before it unless it is in order with the last of
them. -/
def sortNodes (ns : List XNode) : List XNode :=
  (ns.foldl insertNode #[]).toList
where
  insertNode (sorted : Array XNode) (n : XNode) : Array XNode :=
    match sorted.back? with
    | none => #[n]
    | some last =>
      if order last n != .gt then sorted.push n
      else
        let i := position sorted n
        sorted.take i ++ #[n] ++ sorted.drop i
  /-- The position of a node, found by halving. -/
  position (sorted : Array XNode) (n : XNode) : Nat :=
    let r := sorted.size - 1
    match sorted[0]?, sorted[r]? with
    | some first, some last =>
      if order n first == .lt then 0
      else if order n last == .gt then r
      else halve sorted n sorted.size 0 (r / 2) r
    | _, _ => 0
  halve (sorted : Array XNode) (n : XNode) : Nat → Nat → Nat → Nat → Nat
    | 0, _, c, _ => c
    | steps + 1, l, c, r =>
      let isBefore : Bool := match sorted[c]? with
        | some m => order n m == .lt
        | none => true
      if isBefore then if c - l ≤ 1 then c else halve sorted n steps l (l + (c - l) / 2) c
      else if r - c ≤ 1 then c + 1
      else halve sorted n steps c (c + (r - c) / 2) r

/-- Adds nodes that are not there yet. -/
def merge (ns ms : List XNode) : List XNode :=
  ms.foldl (fun found m => if found.any (·.same m) then found else found ++ [m]) ns

end TreeQuery.XPath
