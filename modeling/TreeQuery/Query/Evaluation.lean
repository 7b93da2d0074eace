import TreeQuery.Forest.Navigate
import TreeQuery.Query.Basic

/-!
# Evaluation of results

An engine gives its results one after the other and may fail in the end. Results are unwrapped and
then filtered. All results are taken before the first is filtered; the first kept result is found
taking no more results than needed, and so is a diagnosis of it.
-/

namespace TreeQuery

/-- The results of an evaluation, and the failure that ends them. -/
structure Results where
  items : List Value
  failure : Option Failure := none

namespace Results

/-- How many results are taken when all are, counting the one that fails. -/
def pulls (s : Results) : Nat :=
  s.items.length + (if s.failure.isSome then 1 else 0)

end Results

/-- What an evaluation answers, how many results it took, and the state that its filter is left
in. -/
structure Outcome (σ α : Type) where
  answer : Except Failure α
  pulled : Nat
  state : σ

def Outcome.map {σ α β : Type} (g : α → β) (o : Outcome σ α) : Outcome σ β :=
  ⟨o.answer.map g, o.pulled, o.state⟩

/-- What one evaluation produced: the results before filtering, the values kept, the results
dropped. -/
structure Diagnosis where
  raw : List Value
  result : List Value
  dropped : List Value

namespace Query

variable {σ : Type}

/-- Filters one result. A failure of the filter is a failure to evaluate, which shows the result. -/
def filterOne (f : Forest) (filter : Filter σ) (v : Value) (s : σ) : Except Failure Value × σ :=
  let (r, s) := filter.apply f v s
  (r.mapError fun fault => f.failureOn v fun shown =>
    .evaluationFailed ("Result filter " ++ filter.shown?.getD "" ++ " failed on " ++ shown)
      (some fault), s)

/-- The values that the filter keeps. -/
def keepAll (f : Forest) (filter : Filter σ) : List Value → σ → Except Failure (List Value) × σ
  | [], s => (.ok [], s)
  | v :: vs, s =>
    match filterOne f filter v s with
    | (.error fault, s) => (.error fault, s)
    | (.ok w, s) =>
      let (r, s) := keepAll f filter vs s
      (if w.isNone then r else r.map (w :: ·), s)

/-- Every result that the filter keeps, in order. -/
def evaluateAll (f : Forest) (filter : Filter σ) (results : Results) (s : σ) :
    Outcome σ (List Value) :=
  match results.failure with
  | some fault => ⟨.error fault, results.pulls, s⟩
  | none =>
    let (r, s) := keepAll f filter (results.items.map Value.unwrap) s
    ⟨r, results.pulls, s⟩

/-- What an evaluation ends with when all results have been taken. -/
def ending {α : Type} (results : Results) (pulled : Nat) (found : α) (s : σ) : Outcome σ α :=
  match results.failure with
  | some fault => ⟨.error fault, pulled + 1, s⟩
  | none => ⟨.ok found, pulled, s⟩

def firstFrom (f : Forest) (filter : Filter σ) (results : Results) (pulled : Nat) :
    List Value → σ → Outcome σ (Option Value)
  | [], s => ending results pulled none s
  | v :: vs, s =>
    match filterOne f filter v.unwrap s with
    | (.error fault, s) => ⟨.error fault, pulled + 1, s⟩
    | (.ok w, s) =>
      if w.isNone then firstFrom f filter results (pulled + 1) vs s
      else ⟨.ok (some w), pulled + 1, s⟩

/-- The first result that the filter keeps, if there is one. -/
def evaluateFirst (f : Forest) (filter : Filter σ) (results : Results) (s : σ) :
    Outcome σ (Option Value) :=
  firstFrom f filter results 0 results.items s

def diagnoseFrom (f : Forest) (filter : Filter σ) (results : Results) (firstOnly : Bool)
    (pulled : Nat) : List Value → σ → Outcome σ Diagnosis
  | [], s => ending results pulled ⟨[], [], []⟩ s
  | v :: vs, s =>
    match filterOne f filter v.unwrap s with
    | (.error fault, s) => ⟨.error fault, pulled + 1, s⟩
    | (.ok w, s) =>
      if w.isNone then
        (diagnoseFrom f filter results firstOnly (pulled + 1) vs s).map fun d =>
          { d with raw := v.unwrap :: d.raw, dropped := v.unwrap :: d.dropped }
      else if firstOnly then ⟨.ok ⟨[v.unwrap], [w], []⟩, pulled + 1, s⟩
      else
        (diagnoseFrom f filter results firstOnly (pulled + 1) vs s).map fun d =>
          { d with raw := v.unwrap :: d.raw, result := w :: d.result }

/-- The results before and after filtering, up to the first kept one if no more are wanted. -/
def diagnose (f : Forest) (filter : Filter σ) (results : Results) (firstOnly : Bool) (s : σ) :
    Outcome σ Diagnosis :=
  diagnoseFrom f filter results firstOnly 0 results.items s

end Query

/-- A diagnosis as one line. -/
def Diagnosis.text (d : Diagnosis) (f : Forest) (expression : String) (firstOnly : Bool)
    (context : Value) : Except Failure String := do
  let shown ← f.shown context
  return "[XPathDiagnostic: expression: " ++ expression ++ " first: " ++ Value.boolText firstOnly ++
    " context: " ++ shown ++ " raw: " ++ toString d.raw.length ++
    " result: " ++ toString d.result.length ++
    " filtered: " ++ toString d.dropped.length ++ "]"

end TreeQuery
