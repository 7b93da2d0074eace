import TreeQuery.Query.Evaluation
import TreeQuery.Query.Plan
import TreeQuery.View.Exchange

/-!
# Engines

An engine compiles a request into a handle and evaluates a handle against a view. `η` is the type
of its handles and `ε` what it remembers between calls.
-/

namespace TreeQuery

/-- What an engine answers: a number, a text or a truth value, or a list of nodes. -/
inductive Answer where
  | one (item : RawItem)
  | many (items : List RawItem)

def Answer.items : Answer → List RawItem
  | one item => [item]
  | many items => items

structure Engine (η ε : Type) where
  compile : Request → ε → Except Failure η × ε
  /-- Evaluates a handle against the context of a navigator, with the values of variables by their
  names. An engine may ask the navigator for more views. -/
  call : η → Option ViewId → List (String × EngineValue) → Navigator → ε →
    Except Failure Answer × Navigator × ε

/-- Which of its requests a query made a handle for: the URIs of the unbound prefixes, and whether
it is anchored. -/
structure HandleKey where
  resolved : List (String × String)
  anchored : Bool
  deriving DecidableEq, Repr

/-- A query with its plan and the handles that the engine has made for it. -/
structure CompiledQuery (η σ : Type) where
  query : Query σ
  plan : Plan
  handles : List (HandleKey × η)

namespace CompiledQuery

variable {η σ ε : Type}

/-- The failures of an engine's own. -/
def engineFailures : List Kind := [.engine]

/-- The failures of an evaluation that are reported as such. -/
def evaluationFailures : List Kind := [.engine, .unresolved, .type, .value]

/-- Expressions without anchors are the same for documents. -/
def handleKey (p : Plan) (resolved : List (String × String)) (anchored : Bool) : HandleKey :=
  ⟨resolved, anchored && !p.anchors.isEmpty⟩

/-- The handle for a key, which the engine makes the first time it is asked for. -/
def handle (e : Engine η ε) (q : CompiledQuery η σ) (key : HandleKey) (s : ε) :
    Except Failure η × CompiledQuery η σ × ε :=
  match q.handles.lookup key with
  | some h => (.ok h, q, s)
  | none =>
    match e.compile (q.plan.request key.resolved key.anchored) s with
    | (.ok h, s) => (.ok h, { q with handles := q.handles ++ [(key, h)] }, s)
    | (.error fault, s) => (.error fault, q, s)

/-- Compiles a query for an engine, which is asked at once whether it takes the expression. -/
def compile (e : Engine η ε) (query : Query σ) (s : ε) :
    Except Failure (CompiledQuery η σ) × ε :=
  match XPath.tokenize query.expression with
  | .error fault => (.error (fault.whileCompiling query.expression [.unknownText]), s)
  | .ok tokens =>
    let plan := Plan.make query.expression query.namespaces tokens
    let (r, q, s) := handle e ⟨query, plan, []⟩ ⟨plan.unresolved, false⟩ s
    match r with
    | .ok _ => (.ok q, s)
    | .error fault => (.error (fault.whileCompiling query.expression engineFailures), s)

/-! ## Evaluation -/

/-- The URIs of the unbound prefixes in a scope. -/
def resolvePrefixes (q : CompiledQuery η σ) (scope : List (String × String)) :
    List (String × String) :=
  q.plan.unbound.map fun p => (p, q.query.resolvePrefix scope (some p))

/-- Puts a value in the place of the value of the same name, or last. -/
def setEntry {α : Type} (name : String) (value : α) : List (String × α) → List (String × α)
  | [] => [(name, value)]
  | (n, v) :: rest => if n = name then (n, value) :: rest else (n, v) :: setEntry name value rest

/-- The values of the variables, by the names that the engine knows. -/
def bindVariables (f : Forest) (q : Query σ) (scope : List (String × String))
    (bound : List (String × EngineValue)) :
    List EngineVariable → Navigator.M (List (String × EngineValue))
  | [] => return bound
  | v :: vs => do
    let value ← match q.resolveVariable scope none v.pfx v.localName with
      | .ok value => Navigator.toEngine f value
      | .error fault => throw fault
    bindVariables f q scope (setEntry v.engineName value bound) vs

/-- Asks the engine with the navigator bound. -/
def ask (e : Engine η ε) (f : Forest) (q : CompiledQuery η σ) (isDocument : Bool) (n : Navigator)
    (s : ε) : Except Failure Answer × Navigator × CompiledQuery η σ × ε :=
  match handle e q (handleKey q.plan (q.resolvePrefixes n.scope) isDocument) s with
  | (.error fault, q, s) => (.error fault, n, q, s)
  | (.ok h, q, s) =>
    match (bindVariables f q.query n.scope [] q.plan.engineVariables).run n with
    | (.error fault, n) => (.error fault, n, q, s)
    | (.ok values, n) =>
      let (r, n, s) := e.call h n.context values n s
      (r, n, q, s)

/-- The results as far as they stand for something in the tree. -/
def resultsOf (n : Navigator) (f : Forest) : List RawItem → Results
  | [] => ⟨[], none⟩
  | item :: items =>
    match n.toTree f item with
    | .ok v =>
      let rest := resultsOf n f items
      ⟨v :: rest.items, rest.failure⟩
    | .error fault => ⟨[], some fault⟩

/-- The results of an evaluation against a node, with a navigator that is made for it. -/
def results (e : Engine η ε) (f : Forest) (q : CompiledQuery η σ) (context : Value)
    (s : ε) : Results × CompiledQuery η σ × ε :=
  match (Navigator.bind f context).run {} with
  | (.error fault, _) =>
    (⟨[], some (fault.whileEvaluating q.query.expression [.type, .value])⟩, q, s)
  | (.ok _, n) =>
    match context with
    | .node id =>
      let isDocument := f.class? id == some .document
      if q.plan.selectsRoot || (isDocument && q.plan.selectsContext) then
        (⟨(f.document? id).toList.map .node, none⟩, q, s)
      else
        match ask e f q isDocument n s with
        | (.error fault, _, q, s) =>
          (⟨[], some (fault.whileEvaluating q.query.expression evaluationFailures)⟩, q, s)
        | (.ok answer, n, q, s) => (resultsOf n f answer.items, q, s)
    | _ => (⟨[], none⟩, q, s)

end CompiledQuery

end TreeQuery
