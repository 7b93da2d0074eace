import TreeQuery.Forest.Basic

/-!
# Names and descriptions of nodes

The names of nodes and the form in which messages show them.
-/

namespace TreeQuery

namespace Content

/-- The local name and the namespace of what has a name. -/
def name? : Content → Option (String × Namespace)
  | element e => some (e.name, e.ns)
  | attr name _ ns => some (name, ns)
  | _ => none

end Content

namespace Forest

def clarkName (f : Forest) (id : NodeId) : String :=
  match (f.content? id).bind (·.name?) with
  | some (name, ns) => Namespace.clark ns.uri name
  | none => ""

/-- The name with its prefix, the target of an instruction, nothing for other nodes. -/
def qualifiedName (f : Forest) (id : NodeId) : String :=
  match f.content? id with
  | some (.element e) => e.ns.qualified e.name
  | some (.attr name _ ns) => ns.qualified name
  | some (.instruction target _) => target
  | _ => ""

/-- A node as messages show it. The bound is on nodes shown within nodes. -/
def shownUpTo (f : Forest) : Nat → NodeId → Except Unshown String
  | 0, _ => .ok "..."
  | n + 1, id =>
    match f.content? id with
    | none => .ok "..."
    | some (.document _) => do
      let root ← match f.rootElement? id with
        | some e => f.shownUpTo n e
        | none => .ok "None"
      return "<Document root=" ++ root ++ ">"
    | some (.element e) => .ok ("<Element " ++ Namespace.clark e.ns.uri e.name ++ ">")
    | some (.attr name value ns) =>
      .ok ("<Attribute " ++ Namespace.clark ns.uri name ++ "=" ++ Text.quote value ++ ">")
    | some (.text v) => (v.shownHeld (f.shownUpTo n)).map fun s => "<Text " ++ s ++ ">"
    | some (.comment v) => (v.shownHeld (f.shownUpTo n)).map fun s => "<Comment " ++ s ++ ">"
    | some (.instruction target data) =>
      .ok ("<ProcessingInstruction " ++ target ++ " " ++ Text.quote data ++ ">")

def shownNode (f : Forest) (id : NodeId) : Except Unshown String :=
  f.shownUpTo (f.nodes.size + 1) id

/-- A value as messages show it. -/
def shown (f : Forest) (v : Value) : Except Failure String :=
  (v.shown f.shownNode).mapError .unshown

/-- The text of a value. -/
def textOf (f : Forest) (v : Value) : Except Failure String :=
  (v.toText f.shownNode).mapError .unshown

/-- The failure whose message shows a value. Where the value can not be shown, that is the failure. -/
def failureOn (f : Forest) (v : Value) (cause : String → Failure) : Failure :=
  match f.shown v with
  | .ok s => cause s
  | .error fault => fault

theorem failureOn_of_shown {f : Forest} {v : Value} {s : String} (h : f.shown v = .ok s)
    (cause : String → Failure) : f.failureOn v cause = cause s := by
  rw [failureOn, h]

theorem failureOn_cases (f : Forest) (v : Value) (cause : String → Failure) :
    (∃ s, f.failureOn v cause = cause s) ∨ ∃ why, f.failureOn v cause = .unshown why := by
  unfold failureOn shown
  cases v.shown f.shownNode with
  | ok s => exact .inl ⟨s, rfl⟩
  | error why => exact .inr ⟨why, rfl⟩

/-- The name of a value's type in messages. -/
def typeName (f : Forest) : Value → String
  | .none => "NoneType"
  | .bool _ => "bool"
  | .int _ => "int"
  | .float _ => "float"
  | .text _ => "str"
  | .list _ => "list"
  | .tuple _ => "tuple"
  | .dict _ => "dict"
  | .node id => ((f.class? id).map (·.label)).getD "object"
  | .ns _ => "Namespace"
  | .nsNode .. => "NamespaceContainer"
  | .other t _ => t

/-- The failure to use a value as something that has a member. -/
def noMember (f : Forest) (v : Value) (member : String) : Failure :=
  .noMember (f.typeName v) member

/-- A value as a namespace. -/
def asNamespace (f : Forest) : Value → Except Failure Namespace
  | .ns n => .ok n
  | v => .error (f.noMember v "prefix")

end Forest

/-- The two parts of a pair. -/
def Value.pair : List Value → Except Failure (Value × Value)
  | [a, b] => .ok (a, b)
  | [] => .error (.tooFewParts 0)
  | [_] => .error (.tooFewParts 1)
  | _ => .error .tooManyParts

/-- A namespace of a prefix and a URI given as values; nothing stands for the empty text. -/
def Namespace.ofValues (pfx uri : Value) : Except Failure Namespace :=
  let part : Value → Option String
    | .none => some ""
    | .text s => some s
    | _ => Option.none
  match part pfx, part uri with
  | some p, some u => (Namespace.make p u).mapError .badNamespace
  | _, _ => .error (.badNamespace .notText)

end TreeQuery
