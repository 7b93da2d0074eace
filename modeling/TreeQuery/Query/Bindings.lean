import TreeQuery.Forest.Shown

/-!
# Bindings of a query

The namespaces and the variables that a query is given. Namespaces are kept sorted by prefix, one
for a prefix, and the empty prefix is always bound. A variable is known by the URI of its namespace
and its local name, however it was named.
-/

namespace TreeQuery

/-! ## Namespaces -/

namespace Bindings

/-- Puts a binding before those with a greater prefix. -/
def insert (n : Namespace) : List Namespace → List Namespace
  | [] => [n]
  | m :: ms => if n.pfx < m.pfx then n :: m :: ms else m :: insert n ms

/-- The namespace that a prefix is bound to. -/
def find? (bound : List Namespace) (pfx : String) : Option Namespace :=
  bound.find? (·.pfx == pfx)

/-- Adds a binding. A prefix can be bound again to the same URI only. -/
def add (bound : List Namespace) (n : Namespace) : Except Failure (List Namespace) :=
  match find? bound n.pfx with
  | none => .ok (insert n bound)
  | some m => if m = n then .ok bound else .error (.prefixConflict n.pfx m.uri n.uri)

/-- Binds the empty prefix if it is not. -/
def withDefault (bound : List Namespace) : List Namespace :=
  if (find? bound "").isSome then bound else insert Namespace.none bound

/-- A namespace given as itself or as a pair of a prefix and a URI. -/
def namespaceOf (f : Forest) (v : Value) : Except Failure Namespace := do
  let (pfx, uri) ← match v with
    | .ns n => .ok (.text n.pfx, .text n.uri)
    | .list vs | .tuple vs => Value.pair vs
    | .text s => Value.pair (s.toList.map fun c => .text (String.singleton c))
    | .dict es => Value.pair (es.map (·.1))
    | v => .error (.notUnpackable (f.typeName v))
  Namespace.ofValues pfx uri

/-- What a collection of namespaces holds: nothing, a sequence, or a dictionary of prefixes to
URIs. -/
def entriesOf (f : Forest) (v : Value) : Except Failure (List Value) :=
  match v with
  | .none => .ok []
  | .list vs | .tuple vs => .ok vs
  | .dict es => .ok (es.map fun e => .tuple [e.1, e.2])
  | .text s => .ok (s.toList.map fun c => .text (String.singleton c))
  | v => .error (.notIterable (f.typeName v))

/-- Binds values one after the other, up to the first that is no namespace or that conflicts. -/
def collectFrom (f : Forest) (bound : List Namespace) : List Value → Except Failure (List Namespace)
  | [] => .ok bound
  | v :: vs => do
    let n ← namespaceOf f v
    collectFrom f (← add bound n) vs

/-- The namespaces of a query. -/
def collect (f : Forest) (v : Value) : Except Failure (List Namespace) := do
  let bound ← collectFrom f [] (← entriesOf f v)
  return withDefault bound

end Bindings

/-! ## Variables -/

structure VariableName where
  uri : String
  localName : String
  deriving DecidableEq, Repr

namespace VariableName

/-- The text before the last colon, if there is one, and the text after it. -/
def splitLastColon (s : String) : String × String :=
  let cs := s.toList.reverse
  let after := cs.takeWhile (· != ':')
  let before := (cs.dropWhile (· != ':')).drop 1
  (String.ofList before.reverse, String.ofList after.reverse)

/-- Reads `{uri}name` after its opening brace. -/
def ofBraced? (cs : List Char) : Option VariableName :=
  match cs.dropWhile (· != '\x7d') with
  | _ :: c :: rest =>
    some ⟨String.ofList (cs.takeWhile (· != '\x7d')), String.ofList (c :: rest)⟩
  | _ => none

/-- Reads a name given as text: in braces, with a prefix, or plain, which takes the default
namespace. -/
def ofText (bound : List Namespace) (s : String) : Except Failure VariableName :=
  match s.toList with
  | '\x7b' :: cs =>
    match ofBraced? cs with
    | some name => .ok name
    | none => .error (.badVariable s)
  | _ =>
    let (pfx, localName) := splitLastColon s
    match Bindings.find? bound pfx with
    | some n => .ok ⟨n.uri, localName⟩
    | none => .error (.unboundPrefix pfx s)

/-- Reads a name given as text or as a pair of a URI and a local name, where any value that counts
as false stands for no namespace. -/
def ofValue (f : Forest) (bound : List Namespace) (v : Value) : Except Failure VariableName :=
  match v with
  | .text s => ofText bound s
  | .tuple vs => do
    match ← Value.pair vs with
    | (.text uri, .text localName) => .ok ⟨uri, localName⟩
    | (uri, .text localName) =>
      if uri.truthy then .error (.variableType (f.typeName v)) else .ok ⟨"", localName⟩
    | _ => .error (.variableType (f.typeName v))
  | v => .error (.variableType (f.typeName v))

/-- A name as a key that was not found. -/
def key (n : VariableName) : Key :=
  .value (.tuple [.text n.uri, .text n.localName])

end VariableName

namespace Bindings

/-- Binds variables one after the other; two names of one variable are an error. -/
def valuesFrom (f : Forest) (bound : List Namespace) (found : List (VariableName × Value)) :
    List (Value × Value) → Except Failure (List (VariableName × Value))
  | [] => .ok found
  | (k, v) :: rest => do
    let name ← VariableName.ofValue f bound k
    if (found.lookup name).isSome then throw (.variableConflict name.uri name.localName)
    valuesFrom f bound (found ++ [(name, v)]) rest

/-- The variables of a query, given as a dictionary of names to values. -/
def valuesOf (f : Forest) (bound : List Namespace) (v : Value) :
    Except Failure (List (VariableName × Value)) :=
  match v with
  | .dict es => valuesFrom f bound [] es
  | v => if v.truthy then .error (f.noMember v "items") else .ok []

end Bindings

end TreeQuery
