import TreeQuery.Forest.Shown

/-!
# Building a forest

Nodes are made without a parent and then appended. An operation that fails gives no forest: the
one it was asked to change is as it was.
-/

namespace TreeQuery.Forest

/-! ## Nodes -/

/-- A name has no colon and is not empty; a missing name is no name. -/
def checkName (role : NameRole) (name : Option String) : Except Failure String :=
  match name with
  | some s => if s = "" ∨ ':' ∈ s.toList then .error (.badName role name) else .ok s
  | none => .error (.badName role name)

def newElement (f : Forest) (name : Option String) (ns : Namespace) :
    Except Failure (Forest × NodeId) := do
  let name ← checkName .element name
  return f.add (.element ⟨name, ns, [], [], []⟩)

/-- An attribute by itself. Its value is the text of the value given, if that has one. -/
def newAttribute (f : Forest) (name : Option String) (value : Value) (ns : Namespace) :
    Except Failure (Forest × NodeId) := do
  let name ← checkName .attr name
  let text ← f.textOf value
  return f.add (.attr name text ns)

def newText (f : Forest) (value : Value) : Forest × NodeId := f.add (.text value)

def newComment (f : Forest) (value : Value) : Forest × NodeId := f.add (.comment value)

/-- The target of an instruction is not empty and does not spell `xml`, in whatever case. -/
def newInstruction (f : Forest) (target : Option String) (data : String) :
    Except Failure (Forest × NodeId) :=
  match target with
  | some t =>
    if t = "" ∨ t.toList.map Char.toLower = ['x', 'm', 'l'] then
      .error (.badName .instruction target)
    else .ok (f.add (.instruction t data))
  | none => .error (.badName .instruction target)

/-! ## Children -/

/-- Why a node can not become the last child of another. -/
def appendFault? (f : Forest) (parent child : NodeId) : Option Failure :=
  let childClass := (f.class? child).getD .attr
  match f.class? parent with
  | some .document =>
    if childClass = .element ∧ (f.rootElement? parent).isSome then some .secondRoot
    else if !childClass.inDocument then
      some (.cannotContain NodeClass.document.label childClass.label)
    else if (f.parent? child).isSome then some (f.failureOn (.node child) .hasParent)
    else if (parent :: f.ancestors parent).contains child then some .ownDescendant
    else none
  | some .element =>
    if !childClass.inElement then
      some (.cannotContain NodeClass.element.label childClass.label)
    else if (f.parent? child).isSome then some (f.failureOn (.node child) .hasParent)
    else if (parent :: f.ancestors parent).contains child then some .ownDescendant
    else none
  | _ => some (f.noMember (.node parent) "append")

/-- Makes `child` the last child of `parent`, whatever they are. -/
def attach (f : Forest) (parent child : NodeId) : Forest :=
  (f.setParent child (some parent)).modify parent fun n =>
    { n with content := n.content.push child }

def append (f : Forest) (parent child : NodeId) : Except Failure Forest :=
  match f.appendFault? parent child with
  | some fault => .error fault
  | none => .ok (f.attach parent child)

/-- Appends a value: a node, or a text, which becomes a text node. -/
def appendValue (f : Forest) (parent : NodeId) (child : Value) :
    Except Failure (Forest × NodeId) :=
  match f.class? parent, child with
  | some .document, .node id => (f.append parent id).map (·, id)
  | some .element, .node id => (f.append parent id).map (·, id)
  | some .document, .text _ =>
    let (g, id) := f.newText child
    (g.append parent id).map (·, id)
  | some .element, .text _ =>
    let (g, id) := f.newText child
    (g.append parent id).map (·, id)
  | some .document, v => .error (.cannotContain NodeClass.document.label (f.typeName v))
  | some .element, v => .error (.cannotContain NodeClass.element.label (f.typeName v))
  | _, _ => .error (f.noMember (.node parent) "append")

/-- Appends values one after the other, up to the first that can not be appended. -/
def extend (f : Forest) (parent : NodeId) : List Value → Forest × Option Failure
  | [] => (f, none)
  | v :: vs =>
    match f.appendValue parent v with
    | .ok (g, _) => g.extend parent vs
    | .error fault => (f, some fault)

/-- A document, with a first child if one is given. -/
def newDocument (f : Forest) (root : Value) : Except Failure (Forest × NodeId) :=
  let (g, id) := f.add (.document [])
  if root.isNone then .ok (g, id)
  else (g.appendValue id root).map fun r => (r.1, id)

/-- The position of a child, which is compared by identity. -/
def index (f : Forest) (parent : NodeId) (child : Value) : Except Failure Nat :=
  match f.class? parent with
  | some .document | some .element =>
    let found := match child with
      | .node id => (f.children parent).idxOf? id
      | _ => none
    match found with
    | some i => .ok i
    | none => .error (f.failureOn child fun c => f.failureOn (.node parent) (.notChild c))
  | _ => .error (f.noMember (.node parent) "index")

end TreeQuery.Forest
