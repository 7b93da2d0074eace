import TreeQuery.Filter
import TreeQuery.Query.Bindings
import TreeQuery.Text.Blank

/-!
# Queries

A query is an expression with its filter, its namespaces and its variables. Prefixes and variables
are looked up in the query first; a prefix that the query does not bind may be bound at the node of
an evaluation.
-/

namespace TreeQuery

structure Query (σ : Type) where
  expression : String
  filter : Filter σ
  namespaces : List Namespace
  values : List (VariableName × Value)

namespace Query

variable {σ : Type}

/-- Makes a query of what a caller passed. `filter` may have been refused already. -/
def make (f : Forest) (expression : Value) (filter : Except Failure (Filter σ))
    (given namespaces : Value) : Except Failure (Query σ) := do
  match expression with
  | .text e =>
    if e.toList.all Text.isBlank then throw .emptyExpression
    let filter ← filter
    let bound ← Bindings.collect f namespaces
    let values ← Bindings.valuesOf f bound given
    return ⟨e, filter, bound, values⟩
  | v => throw (.expressionType (f.typeName v))

theorem make_eq {f : Forest} {expression : String} {given namespaces : Value}
    {bound : List Namespace} (filter : Filter σ)
    (hexpression : ∃ c ∈ expression.toList, Text.isBlank c = false)
    (hbound : Bindings.collect f namespaces = .ok bound) :
    make f (.text expression) (.ok filter) given namespaces =
      (Bindings.valuesOf f bound given).map fun values => ⟨expression, filter, bound, values⟩ := by
  obtain ⟨c, hc, hb⟩ := hexpression
  have hfilled : expression.toList.all Text.isBlank = false :=
    List.all_eq_false.2 ⟨c, hc, by simp [hb]⟩
  simp only [make, hfilled, hbound, bind, Except.bind, pure, Except.pure, Bool.false_eq_true,
    ↓reduceIte]
  cases Bindings.valuesOf f bound given <;> rfl

/-- How a query of a class is shown. -/
def shown (q : Query σ) (className : String) : String :=
  "<" ++ className ++ " " ++ Text.quote q.expression ++ ">"

/-- The namespace bound to a prefix; nothing stands for the empty prefix. -/
def namespaceOf (q : Query σ) (pfx : Option String) : Except Failure Namespace :=
  match Bindings.find? q.namespaces (pfx.getD "") with
  | some n => .ok n
  | none => .error (.missing (.value (.text (pfx.getD ""))))

/-- The variables sorted by the URIs of their namespaces and their names. -/
def sortedVariables (q : Query σ) : List (VariableName × Value) :=
  q.values.mergeSort fun a b =>
    a.1.uri < b.1.uri || (a.1.uri == b.1.uri && !(b.1.localName < a.1.localName))

/-- The value of a variable known by the URI of its namespace and its local name. -/
def value? (q : Query σ) (name : VariableName) : Option Value :=
  q.values.lookup name

/-- The failure to find a key that names no variable. -/
def notFound (key : Value) : Failure :=
  match key.unhashable? with
  | some t => .unhashable t
  | none => .missing (.value key)

/-- The value of a variable, named in any way or, if a URI is given, by its local name. -/
def variableOf (f : Forest) (q : Query σ) (name : Value) (uri : Option String) :
    Except Failure Value := do
  let found ← match uri, name with
    | some u, .text s => pure ⟨u, s⟩
    | some u, v => throw (notFound (.tuple [.text u, v]))
    | none, v =>
      match VariableName.ofValue f q.namespaces v, v with
      | .ok n, _ => pure n
      | .error _, .tuple [u, v] =>
        throw (notFound (.tuple [if u.truthy then u else .text "", v]))
      | .error fault, v => throw (if fault.isAny [.value] then .missing (.value v) else fault)
  match q.value? found with
  | some v => return v
  | none => throw (.missing found.key)

/-! ## Resolution -/

/-- The URI of a prefix: that of the query, else that of the scope, else the empty one. -/
def resolvePrefix (q : Query σ) (scope : List (String × String)) (pfx : Option String) : String :=
  match Bindings.find? q.namespaces (pfx.getD "") with
  | some n => n.uri
  | none => (scope.lookup (pfx.getD "")).getD ""

/-- The value of a variable reference. An empty URI is taken from the prefix. -/
def resolveVariable (q : Query σ) (scope : List (String × String)) (uri pfx : Option String)
    (localName : String) : Except Failure Value :=
  let given := uri.getD ""
  let found := if given = "" then q.resolvePrefix scope pfx else given
  match q.value? ⟨found, localName⟩ with
  | some v => .ok v
  | none => .error (.unresolved found localName)

end Query

end TreeQuery
