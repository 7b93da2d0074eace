import TreeQuery.Forest.Shown

/-!
# Filters

A filter decides for every result of a query whether the caller gets it and in what form: it
answers the value to keep, or nothing. A function as a filter may keep a state and may fail.
-/

namespace TreeQuery

/-- The classes that a filter can ask for. -/
inductive ValueClass where
  | node (c : NodeClass)
  | ns
  deriving DecidableEq, Repr

def ValueClass.label : ValueClass → String
  | node c => c.label
  | ns => "Namespace"

inductive Filter (σ : Type) where
  | passthrough
  | classes (cs : List ValueClass)
  /-- Elements or attributes of a local name and a namespace URI; nothing stands for any. -/
  | named (c : NodeClass) (name uri : Value)
  | instruction (target : Value)
  | boolean
  | number
  | string
  | function (shown : String) (call : Value → σ → Except Failure Value × σ)

namespace Filter

variable {σ : Type}

/-- A filter by name; the namespace is given by its URI or as a namespace. -/
def byName (c : NodeClass) (name ns : Value) : Filter σ :=
  .named c name (match ns with
    | .ns n => .text n.uri
    | v => v)

/-- What an element may contain. -/
def content : Filter σ :=
  .classes [.node .element, .node .text, .node .comment, .node .instruction]

/-- A value as a filter: nothing keeps everything, other values are no filters. -/
def ofValue (f : Forest) (v : Value) : Except Failure (Filter σ) :=
  if v.isNone then .ok .passthrough else .error (f.failureOn v .badFilter)

def isPassthrough : Filter σ → Bool
  | passthrough => true
  | _ => false

/-- How a filter is shown, if it says what it keeps. -/
def shown? : Filter σ → Option String
  | classes cs => some ("ClassFilter(" ++ ", ".intercalate (cs.map ValueClass.label) ++ ")")
  | named c _ _ => some ("ClassFilter(" ++ c.label ++ ")")
  | instruction _ => some "ClassFilter(ProcessingInstruction)"
  | function s _ => some ("FunctionFilter(" ++ s ++ ")")
  | _ => none

def hasClass (f : Forest) (v : Value) : ValueClass → Bool
  | .node c => match v with
    | .node id => f.class? id == some c
    | _ => false
  | .ns => match v with
    | .ns _ => true
    | _ => false

/-- Whether a text meets a requirement, where nothing requires nothing. -/
def meets (required : Value) (s : String) : Bool :=
  required.isNone || required.equal (.text s)

/-- Whether a filter other than a function keeps a value. -/
def keeps (f : Forest) (filter : Filter σ) (v : Value) : Bool :=
  match filter with
  | passthrough => true
  | classes cs => cs.any (hasClass f v)
  | named c name uri =>
    hasClass f v (.node c) &&
      match v with
      | .node id =>
        match (f.content? id).bind (·.name?) with
        | some (n, ns) => meets name n && meets uri ns.uri
        | none => false
      | _ => false
  | instruction target =>
    match v with
    | .node id =>
      match f.content? id with
      | some (.instruction t _) => meets target t
      | _ => false
    | _ => false
  | boolean => match v with
    | .bool _ => true
    | _ => false
  | number => match v with
    | .int _ | .float _ => true
    | _ => false
  | string => match v with
    | .text _ => true
    | _ => false
  | function .. => false

/-- The value to keep in the place of a value, or nothing. -/
def apply (f : Forest) (filter : Filter σ) (v : Value) (s : σ) : Except Failure Value × σ :=
  match filter with
  | function _ call => call v s
  | _ => (.ok (if filter.keeps f v then v else .none), s)

/-- Filters values one after the other, up to the first failure. -/
def applyAll (f : Forest) (filter : Filter σ) (vs : List Value) (s : σ) :
    Except Failure (List Value) × σ :=
  match vs with
  | [] => (.ok [], s)
  | v :: vs =>
    match filter.apply f v s with
    | (.error fault, s) => (.error fault, s)
    | (.ok w, s) =>
      match filter.applyAll f vs s with
      | (.ok ws, s) => (.ok (w :: ws), s)
      | (.error fault, s) => (.error fault, s)

/-- The values that a filter keeps of some values. -/
def filterAll (f : Forest) (filter : Filter σ) (vs : List Value) (s : σ) :
    Except Failure (List Value) × σ :=
  let (r, s) := filter.applyAll f vs s
  (r.map fun ws => ws.filter (!·.isNone), s)

end Filter

end TreeQuery
