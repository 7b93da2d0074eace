import TreeQuery.Forest.Build
import TreeQuery.Forest.Scope

/-!
# Declarations and attributes

On one element a prefix has one meaning. Attributes are kept in the order in which their names were
first set; setting one again puts a new node in its place.
-/

namespace TreeQuery.Forest

/-- The namespaces that an element uses or declares. -/
def usedNamespaces (f : Forest) (e : ElementData) : List Namespace :=
  e.ns :: e.declared ++ e.attributes.filterMap f.attributeNamespace?

/-- Refuses a binding of a prefix that the element binds to another URI. -/
def checkPrefix (f : Forest) (e : ElementData) (ns : Namespace) : Except Failure Unit :=
  match (f.usedNamespaces e).find? fun n => n.pfx == ns.pfx && n.uri != ns.uri with
  | some n => .error (.prefixTaken n.pfx n.uri (e.ns.qualified e.name))
  | none => .ok ()

/-- Declares a namespace on an element besides its own. The `xml` namespace and the lack of a
namespace need no declaration. -/
def declare (f : Forest) (id : NodeId) (ns : Namespace) : Except Failure Forest :=
  match f.element? id with
  | none => .error (f.noMember (.node id) "add_namespace_declaration")
  | some e =>
    if ns = Namespace.none ∨ ns = Namespace.xml then .ok f
    else do
      f.checkPrefix e ns
      if e.declared.contains ns then return f
      else return f.setContent id (.element { e with declared := e.declared ++ [ns] })

/-- Whether a node is the attribute of a name and a namespace URI. -/
def isAttributeOf (f : Forest) (name uri : String) (id : NodeId) : Bool :=
  match f.content? id with
  | some (.attr n _ ns) => n == name && ns.uri == uri
  | _ => false

/-- The attribute of an element with a name and a namespace URI. -/
def attribute? (f : Forest) (id : NodeId) (name uri : String) : Option NodeId :=
  (f.attributes id).find? (f.isAttributeOf name uri)

def attributeValue? (f : Forest) (id : NodeId) : Option String :=
  match f.content? id with
  | some (.attr _ value _) => some value
  | _ => none

/-- Sets an attribute. A new node takes the place of the attribute with the same name and
namespace URI, which loses its parent, or comes last. -/
def setAttribute (f : Forest) (id : NodeId) (name : Option String) (value : Value)
    (ns : Namespace) : Except Failure (Forest × NodeId) :=
  match f.element? id with
  | none => .error (f.noMember (.node id) "set_attribute")
  | some e => do
    if ns.pfx = "" ∧ ns.uri ≠ "" then throw .bareAttribute
    if ns.pfx ≠ "" then f.checkPrefix e ns
    let (g, attr) ← f.newAttribute name value ns
    match f.attribute? id (name.getD "") ns.uri with
    | some old =>
      let attributes := e.attributes.map fun a => if a = old then attr else a
      let h := (g.setParent old none).setParent attr (some id)
      return (h.setContent id (.element { e with attributes }), attr)
    | none =>
      let h := g.setParent attr (some id)
      return (h.setContent id (.element { e with attributes := e.attributes ++ [attr] }), attr)

end TreeQuery.Forest
