import TreeQuery.XPath.CoreFunction
import TreeQuery.XPath.Parser

/-!
# Evaluation of expressions

The meaning of expressions over the documents that views show. Sets of nodes keep the order in which
their nodes were found until they are sorted into document order. An expression has a value unless
something in it has none.
-/

namespace TreeQuery.XPath

/-- The URI that a prefix is bound to. -/
def lookupNamespace (env : Environment) (pfx : String) : Option String :=
  if pfx = "xml" then some xmlUri else env.namespaces.lookup pfx

/-- The URI of the prefix of a node test, if it has one. -/
def testUri (env : Environment) (t : NodeTest) : Option (Option String) :=
  match t with
  | .any (some p) | .name ⟨some p, _⟩ => (lookupNamespace env p).map some
  | _ => some none

/-- A set of nodes in document order; other values as they are. -/
def sorted : XValue → XValue
  | .nodes ns => .nodes (sortNodes ns)
  | v => v

/-- Whether the value of a predicate keeps the node at a position. -/
def keepsPosition (v : XValue) (position : Nat) : Bool :=
  match v with
  | .number x => x == Float.ofNat position
  | v => v.toBoolean

/-- Nodes with their positions, and how many there are. -/
def positioned (ns : List XNode) : List Context :=
  ns.zipIdx.map fun n => ⟨n.1, some (n.2 + 1, ns.length)⟩

/-- The nodes that a test keeps, if it can tell for all. -/
def keepWhere (test : Context → Option XValue) : List Context → Option (List XNode)
  | [] => some []
  | c :: cs =>
    match test c with
    | some v =>
      (keepWhere test cs).map fun ns =>
        if keepsPosition v ((c.position.map (·.1)).getD 0) then c.node :: ns else ns
    | none => none

/-- What a function gives for some nodes, taken together. -/
def collect (select : XNode → Option (List XNode)) : List XNode → List XNode →
    Option (List XNode)
  | found, [] => some found
  | found, n :: ns =>
    match select n with
    | some ms => collect select (merge found ms) ns
    | none => none

/-- A node and all below it. -/
def anyDepth (ns : List XNode) : List XNode :=
  ns.foldl (fun found n => merge found (n :: n.descendants)) []

/-- The nodes from which a step after a separator is taken. -/
def beforeStep (sep : Separator) (ns : List XNode) : List XNode :=
  match sep with
  | .slash => ns
  | .doubleSlash => anyDepth ns

/-- Functions whose argument is not sorted. -/
def takesUnsorted (n : Name) : Bool := n.pfx.isNone && n.localName == "count"

mutual

def evaluate (env : Environment) (ctx : Context) (e : Expr) : Option XValue :=
  match e with
  | .binary .or a b =>
    match evaluate env ctx a with
    | some v =>
      if v.toBoolean then some (.boolean true)
      else (evaluate env ctx b).map fun w => .boolean w.toBoolean
    | none => none
  | .binary .and a b =>
    match evaluate env ctx a with
    | some v =>
      if v.toBoolean then (evaluate env ctx b).map fun w => .boolean w.toBoolean
      else some (.boolean false)
    | none => none
  | .binary op a b =>
    match evaluate env ctx a with
    | some v => (evaluate env ctx b).bind fun w => applyOperator op v w
    | none => none
  | .negate e => (evaluate env ctx e).map fun v => .number (-v.toNumber)
  | .group e => (evaluate env ctx e).map sorted
  | .literal s => some (.string s)
  | .number s => some (.number (numeralValue s))
  | .variable n => if n.pfx.isSome then none else env.values.lookup n.localName
  | .call n args =>
    match evaluateAll env ctx args with
    | some vs =>
      if n.pfx.isSome then none
      else CoreFunction.apply env ctx n.localName (if takesUnsorted n then vs else vs.map sorted)
    | none => none
  | .filter e p =>
    match (evaluate env ctx e).bind (·.toNodes) with
    | some ns => (keepWhere (fun c => evaluate env c p) (positioned ns)).map .nodes
    | none => none
  | .relative first rest =>
    match evaluateStep env [ctx.node] first with
    | some ns => (evaluateSteps env ns rest).map .nodes
    | none => none
  | .absolute steps =>
    (evaluateSteps env [documentNode env.documents ctx.node.place.document] steps).map .nodes
  | .through e steps =>
    match (evaluate env ctx e).bind (·.toNodes) with
    | some ns => (evaluateSteps env ns steps).map .nodes
    | none => none

def evaluateAll (env : Environment) (ctx : Context) (es : List Expr) : Option (List XValue) :=
  match es with
  | [] => some []
  | e :: es =>
    match evaluate env ctx e with
    | some v => (evaluateAll env ctx es).map (v :: ·)
    | none => none

/-- The nodes that all of some predicates keep, one after the other. -/
def keepByAll (env : Environment) (ps : List Expr) (ns : List XNode) : Option (List XNode) :=
  match ps with
  | [] => some ns
  | p :: ps =>
    match keepWhere (fun c => evaluate env c p) (positioned ns) with
    | some ms => keepByAll env ps ms
    | none => none

/-- The nodes that a step leads to from some nodes. -/
def evaluateStep (env : Environment) (ns : List XNode) (s : Step) : Option (List XNode) :=
  match s with
  | .here => some ns
  | .up => collect (fun n => some (n.parent? env.documents).toList) [] ns
  | .along axis t predicates =>
    match testUri env t with
    | some uri =>
      collect (fun n => keepByAll env predicates
        ((n.along env.documents axis.axis).filter (passes axis.axis t uri))) [] ns
    | none => none

def evaluateSteps (env : Environment) (ns : List XNode) (s : Steps) : Option (List XNode) :=
  match s with
  | .done => some ns
  | .next sep step rest =>
    match evaluateStep env (beforeStep sep ns) step with
    | some ms => evaluateSteps env ms rest
    | none => none

end

/-- The value of a whole expression at a node, a set of nodes in document order. -/
def valueAt (env : Environment) (n : XNode) (e : Expr) : Option XValue :=
  (evaluate env ⟨n, none⟩ e).map sorted

end TreeQuery.XPath
