import TreeQuery.Query.Engine
import TreeQuery.XPath.Evaluate

/-!
# The standard engine

Compiles requests by parsing and evaluates them over the views of a navigator. The context has to
be an element. Documents are left out of results, and a node of another document than that of the
context comes back as a view of its own.
-/

namespace TreeQuery.XPath

/-- A compiled request. -/
structure Program where
  expr : Expr
  namespaces : List (String × String)

namespace Program

/-- Whether an engine can take all texts of a request. -/
def isReadable (r : Request) : Bool :=
  Text.isXmlText r.text && r.namespaces.all fun n => Text.isXmlText n.1 && Text.isXmlText n.2

def compile (r : Request) : Except Failure Program :=
  if !isReadable r then .error (.engine .value)
  else
    match parse? r.text with
    | some e => .ok ⟨e, r.namespaces⟩
    | none => .error (.engine .engineSyntax)

/-- The nodes of views, each once. Anything else in a list is refused. -/
def nodesOf (ds : Documents) : List EngineValue → Except Failure (List XNode)
  | [] => .ok []
  | .view v :: rest => do
    let ns ← nodesOf ds rest
    return merge (nodeOfView? ds v).toList ns
  | _ => .error (.engine .engineResult)

/-- A value of a variable as expressions see it. -/
def valueOf (ds : Documents) (v : EngineValue) : Except Failure XValue :=
  match v with
  | .view id => .ok (.nodes (nodeOfView? ds id).toList)
  | .list vs => (nodesOf ds vs).map .nodes
  | .value .none => .ok (.nodes [])
  | .value (.bool b) => .ok (.boolean b)
  | .value (.int i) =>
    match ofWhole? i with
    | some x => .ok (.number x)
    | none => .error (.engine .overflow)
  | .value (.float x) => .ok (.number x)
  | .value (.text s) => if Text.isXmlText s then .ok (.string s) else .error (.engine .value)
  | .value _ => .error (.engine .engineResult)

def valuesOf (ds : Documents) : List (String × EngineValue) →
    Except Failure (List (String × XValue))
  | [] => .ok []
  | (name, v) :: rest => do
    let x ← valueOf ds v
    return (name, x) :: (← valuesOf ds rest)

/-- A node as a result, for an evaluation in a document. `fresh` is a view that stands for
nothing. -/
def rawItem? (document : Nat) (fresh : ViewId) (n : XNode) : Option RawItem :=
  let view (v : ViewId) : RawItem := .view (if n.place.document = document then v else fresh)
  match n.item with
  | .document _ => none
  | .branch (.element v _ _) | .branch (.comment v _) | .branch (.instruction v _ _) =>
    some (view v)
  | .branch (.text slot s) => some (.text slot s)
  | .attr owner a => some (.attr owner a.name.clark a.value)
  | .ns pfx uri =>
    some (.value (.tuple [if pfx = "" then .none else .text pfx, .text uri]))

def answerOf (document : Nat) (fresh : ViewId) : XValue → Answer
  | .nodes ns => .many (ns.filterMap (rawItem? document fresh))
  | .boolean b => .one (.value (.bool b))
  | .number x => .one (.value (.float x))
  | .string s => .one (.value (.text s))

/-- The node of the context view, which has to be an element. -/
def contextOf? (ds : Documents) (context : Option ViewId) : Option XNode :=
  (context.bind (nodeOfView? ds)).filter fun n =>
    match n.item with
    | .branch (.element ..) => true
    | _ => false

def call (p : Program) (context : Option ViewId) (values : List (String × EngineValue))
    (n : Navigator) : Except Failure Answer := do
  let ds := documentsOf n.documents
  match contextOf? ds context with
  | none => throw (.engine .value)
  | some node =>
    let given ← valuesOf ds values
    match valueAt ⟨ds, given, p.namespaces⟩ node p.expr with
    | some v => return answerOf node.place.document n.next v
    | none => throw (.engine .engineEval)

end Program

/-- The engine that keeps nothing between calls. -/
def engine : Engine Program Unit where
  compile r s := (Program.compile r, s)
  call p context values n s := (p.call context values n, n, s)

end TreeQuery.XPath
