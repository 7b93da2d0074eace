import TreeQuery.Forest.Basic

/-!
# Namespaces in scope

Namespace declarations are inferred: an element binds a prefix by its own namespace, by a
declaration, or by an attribute with a prefix. A binding holds for the element and for the elements
below it, down to those that bind the prefix again.
-/

namespace TreeQuery

/-- Keeps the first binding of every prefix. -/
def firstBindings : List Namespace → List Namespace
  | [] => []
  | n :: ns => n :: (firstBindings ns).filter (·.pfx != n.pfx)

/-- The bindings around a top element. -/
def outerScope : List Namespace := [Namespace.xml, Namespace.none]

/-- The scope of an element that makes `own` bindings within the scope `inherited`. -/
def extendScope (inherited own : List Namespace) : List Namespace :=
  firstBindings (own ++ inherited)

namespace Forest

def attributeNamespace? (f : Forest) (id : NodeId) : Option Namespace :=
  match f.content? id with
  | some (.attr _ _ ns) => some ns
  | _ => none

/-- The bindings that an element itself makes: its namespace, its declarations, its prefixed
attributes. -/
def bindings (f : Forest) (e : ElementData) : List Namespace :=
  e.ns :: e.declared ++ (e.attributes.filterMap f.attributeNamespace?).filter (·.pfx != "")

/-- The scope that the elements of a chain build up, the innermost first. -/
def scopeOfChain (f : Forest) (chain : List NodeId) : List Namespace :=
  (chain.filterMap f.element?).foldr (fun e inherited => extendScope inherited (f.bindings e))
    outerScope

/-- The bindings in scope at an element: its own first, then those it inherits. -/
def scope (f : Forest) (id : NodeId) : List Namespace :=
  f.scopeOfChain (f.elementChain id)

/-- The scope that an element inherits. -/
def inheritedScope (f : Forest) (id : NodeId) : List Namespace :=
  f.scopeOfChain (f.elementChain id).tail

/-- The bindings in scope that are not inherited unchanged. -/
def introduced (f : Forest) (id : NodeId) : List Namespace :=
  (f.scope id).filter fun n => !(f.inheritedScope id).contains n

/-- The namespace that a prefix is bound to at an element. -/
def namespaceOf? (f : Forest) (id : NodeId) (pfx : String) : Option Namespace :=
  (f.scope id).find? (·.pfx == pfx)

end Forest

end TreeQuery
