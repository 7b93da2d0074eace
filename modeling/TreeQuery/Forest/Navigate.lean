import TreeQuery.Forest.Scope
import TreeQuery.Forest.Shown
import TreeQuery.Forest.Tree

/-!
# Navigation

What an engine may ask of a value taken for a node. Namespaces in scope are nodes here, each known
with its element.
-/

namespace TreeQuery.Forest

/-- The value of a node that may be missing. -/
def nodeOrNone (id : Option NodeId) : Value :=
  match id with
  | some id => .node id
  | none => .none

def parentOf (f : Forest) (v : Value) : Except Failure Value :=
  match v with
  | .node id => .ok (nodeOrNone (f.parent? id))
  | .nsNode _ owner => .ok (nodeOrNone owner)
  | v => .error (f.noMember v "parent")

/-- The children of a document or an element; nothing else has any. -/
def childrenOf (f : Forest) (v : Value) : List NodeId :=
  match v with
  | .node id => f.children id
  | _ => []

/-- The attributes of an element; nothing else has any. -/
def attributesOf (f : Forest) (v : Value) : List NodeId :=
  match v with
  | .node id => f.attributes id
  | _ => []

/-- The namespaces in scope at an element, the lack of a namespace left out. -/
def namespacesOf (f : Forest) (v : Value) : List Value :=
  match v with
  | .node id =>
    if f.isElement id then
      ((f.scope id).filter (· != Namespace.none)).map fun n => .nsNode n (some id)
    else []
  | _ => []

def stringValueOf (f : Forest) (v : Value) : Except Failure Value :=
  match v with
  | .node id => (f.tree id).stringValue f.typeName
  | .nsNode n _ => .ok (.text n.uri)
  | v => .error (f.noMember v "string_value")

def qualifiedNameOf (f : Forest) (v : Value) : Except Failure String :=
  match v with
  | .node id => .ok (f.qualifiedName id)
  | .nsNode n _ => .ok n.pfx
  | v => .error (f.noMember v "kind")

/-- The kind of a namespace as a node. -/
def namespaceKind : String := "namespace"

def kindOf (f : Forest) (v : Value) : Except Failure String :=
  match v with
  | .node id =>
    match f.class? id with
    | some c => .ok c.kind
    | none => .error (f.failureOn v .notNode)
  | .nsNode .. => .ok namespaceKind
  | v => .error (f.failureOn v .notNode)

end TreeQuery.Forest

namespace TreeQuery.Value

/-- A namespace in the place of the node that an engine makes of it. -/
def unwrap : Value → Value
  | nsNode n _ => ns n
  | v => v

theorem unwrap_idem (v : Value) : v.unwrap.unwrap = v.unwrap := by
  cases v <;> rfl

end TreeQuery.Value
