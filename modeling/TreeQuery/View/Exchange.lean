import TreeQuery.View.Navigator

/-!
# Exchange with an engine

What passes between trees and an engine: the node to evaluate against and the values of variables
one way, results the other way.
-/

namespace TreeQuery

/-- A value as an engine takes it: nodes are views, other values are as they are. -/
inductive EngineValue where
  | view (id : ViewId)
  | list (vs : List EngineValue)
  | value (v : Value)

/-- One result as an engine gives it: a view, an attribute or a text known by the view it belongs
to, or a value. -/
inductive RawItem where
  | view (id : ViewId)
  | attr (owner : ViewId) (clark text : String)
  | text (slot : Slot) (text : String)
  | value (v : Value)

namespace Navigator

/-- The view of a node, made with the view of its whole tree if there is none yet. A document has
the view of its root element. -/
def viewOf (f : Forest) (id : NodeId) : M ViewId := do
  let id ←
    if f.class? id = some .document then
      match f.rootElement? id with
      | some e => pure e
      | none => throw .noView
    else pure id
  match (← get).views.lookup id with
  | some view => return view
  | none =>
    buildTop f.typeName (f.tree (f.root id))
    match (← get).views.lookup id with
    | some view => return view
    | none => throw (f.failureOn (.node id) .unrepresentable)

/-- The element whose scope holds at a node: the node itself, or its parent. -/
def scopeElement? (f : Forest) (id : NodeId) : Option NodeId :=
  if f.isElement id then some id else (f.parent? id).filter f.isElement

/-- The URIs of the prefixes in scope at an element, the lack of a namespace left out. -/
def scopeOf (f : Forest) (id : NodeId) : List (String × String) :=
  ((f.scope id).filter (· != Namespace.none)).map fun n => (n.pfx, n.uri)

/-- The node that stands for a value as the node to evaluate against. -/
def contextNode (f : Forest) (context : Value) : Except Failure NodeId :=
  match context with
  | .node id =>
    match f.class? id with
    | some .document =>
      match f.rootElement? id with
      | some e => .ok e
      | none => .error .emptyDocument
    | some .element | some .comment | some .instruction => .ok id
    | _ => .error (f.failureOn context .noContext)
  | _ => .error (f.failureOn context .noContext)

/-- Prepares to evaluate against a node, forgetting everything else. -/
def bind (f : Forest) (context : Value) : M Unit := do
  modify reset
  let id ← ExceptT.mk (pure (contextNode f context))
  let view ← viewOf f id
  modify fun n => { n with
    context := some view
    scope := ((scopeElement? f id).map (scopeOf f)).getD [] }

mutual

/-- A value as the engine takes it: attributes and texts are their string values, a namespace is
its URI. -/
def toEngine (f : Forest) (v : Value) : M EngineValue :=
  match v with
  | .node id =>
    match f.content? id with
    | some (.attr _ value _) => return .value (.text value)
    | some (.text value) => return .value value
    | _ => return .view (← viewOf f id)
  | .ns n | .nsNode n _ => return .value (.text n.uri)
  | .list vs | .tuple vs => return .list (← toEngineAll f vs)
  | v => return .value v

def toEngineAll (f : Forest) (vs : List Value) : M (List EngineValue) :=
  match vs with
  | [] => return []
  | v :: vs => do
    let e ← toEngine f v
    return e :: (← toEngineAll f vs)

end

/-- The node that a view stands for. -/
def nodeOf (n : Navigator) (view : ViewId) : Except Failure NodeId :=
  match n.nodes.lookup view with
  | some id => .ok id
  | none => .error (.missing (.view view))

/-- One result in terms of the tree. A pair of a prefix and a URI is a namespace of an element that
is not known. -/
def toTree (n : Navigator) (f : Forest) (item : RawItem) : Except Failure Value :=
  match item with
  | .view view => (n.nodeOf view).map .node
  | .attr owner clark _ => do
    let id ← n.nodeOf owner
    match (f.attributes id).find? fun a => f.clarkName a == clark with
    | some a => .ok (.node a)
    | none => .error (.missing (.value (.text clark)))
  | .text slot _ =>
    match n.texts.lookup slot with
    | some id => .ok (.node id)
    | none => .error (.missing (.slot slot.view slot.isTail))
  | .value (.tuple vs) => do
    let (p, uri) ← Value.pair vs
    let ns ← Namespace.ofValues (if p.truthy then p else .none) uri
    .ok (.nsNode ns none)
  | .value v => .ok v

end Navigator

end TreeQuery
