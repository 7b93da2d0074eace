import TreeQuery.Proofs.Handles.History

/-!
# Expressions that are asked as they are

The scans may find nothing in an expression (`FindsNothing`). Then a query of it leaves no prefix
unbound, and its engine is given the very text of the expression whatever the query is evaluated
against. It is always asked, unless the expression is a path to the root (`passesThrough`).
-/

namespace TreeQuery

open XPath

/-- Tokens in which the scans find nothing that is looked up or anchored. -/
structure FindsNothing (ts : List Token) : Prop where
  references : variableReferences ts = []
  names : qualifiedNames ts = []
  paths : relativePaths ts = []
  calls : contextCalls ts = []

theorem splice_nil (text : String) : splice text [] = text := by
  rw [splice, List.mergeSort_nil, spliceFrom, List.drop_zero, String.ofList_toList]

namespace FindsNothing

variable {ts : List Token}

theorem anchorsOf (h : FindsNothing ts) : Plan.anchorsOf ts = [] := by
  rw [Plan.anchorsOf, h.paths, h.calls]
  rfl

theorem unboundOf (h : FindsNothing ts) (expression : String) (bound : List Namespace) :
    (Plan.make expression bound ts).unbound = [] := by
  rw [Plan.make, h.names]
  rfl

theorem text_request (h : FindsNothing ts) (expression : String) (bound : List Namespace)
    (resolved : List (String × String)) (anchored : Bool) :
    ((Plan.make expression bound ts).request resolved anchored).text = expression := by
  have hreplacements : (Plan.make expression bound ts).replacements resolved anchored = [] := by
    rw [Plan.replacements, Plan.make, h.references, h.names, h.anchorsOf]
    cases anchored <;> rfl
  rw [Plan.request, hreplacements]
  exact splice_nil expression

theorem text_requestIn {σ : Type} (h : FindsNothing ts) (query : Query σ)
    (scope : List (String × String)) (isDocument : Bool) :
    (query.requestIn ts scope isDocument).text = query.expression := by
  rw [Query.requestIn, h.references, h.names, h.anchorsOf]
  cases isDocument <;> exact splice_nil query.expression

end FindsNothing

theorem Asks.request_eq {η : Type} {known : List (Request × η)} {r r' : Request} {ready : Bool}
    {asked : List (Event η)} {answer : Except Failure η} (h : Asks known r ready asked)
    (hm : .compiled r' answer ∈ asked) : r' = r := by
  have hcalls {x : η} (hm : Event.compiled r' answer ∈ calls ready x) : False := by
    cases ready with
    | false => cases hm
    | true => cases List.mem_singleton.1 hm
  cases h with
  | known _ => exact (hcalls hm).elim
  | made _ =>
    rcases List.mem_cons.1 hm with hm | hm
    · cases hm
      rfl
    · exact (hcalls hm).elim
  | refused _ =>
    cases List.mem_singleton.1 hm
    rfl

namespace CompiledQuery

variable {η σ ε : Type} {e : Engine η ε} {query : Query σ} {q : CompiledQuery η σ}
  {ts : List Token} {log : List (Event η)}

theorem log_compile (ht : tokenize query.expression = .ok ts) (s : ε) :
    ∃ resolved answer, (compile e.recording query (s, [])).2.2 =
      [.compiled ((Plan.make query.expression query.namespaces ts).request resolved false) answer]
    := by
  generalize hplan : Plan.make query.expression query.namespaces ts = plan
  have hl : (⟨query, plan, []⟩ : CompiledQuery η σ).handles.lookup ⟨plan.unresolved, false⟩ =
      none := rfl
  have hrec := e.recording_compile (plan.request plan.unresolved false) s []
  refine ⟨plan.unresolved, (e.compile (plan.request plan.unresolved false) s).1, ?_⟩
  unfold compile
  rw [ht]
  dsimp only
  rw [hplan]
  cases hc : e.compile (plan.request plan.unresolved false) s with
  | mk made s' =>
    rw [hc] at hrec
    cases made with
    | ok h =>
      rw [handle_of_ok hl hrec]
      rfl
    | error fault =>
      rw [handle_of_error hl hrec]
      rfl

/-- A query whose engine is given the text of the expression and no other. Only a path to the root
is answered without it. -/
structure PassesThrough (e : Engine η ε) (query : Query σ) (toRoot : Prop) : Prop where
  /-- The engine is asked when the query is compiled, whether it takes the expression or not. -/
  compiled : ∀ s, ∃ r answer, (compile e.recording query (s, [])).2.2 = [.compiled r answer] ∧
    r.text = query.expression
  unbound : ∀ q log, History e query q log → q.plan.unbound = []
  /-- Whatever the query has been evaluated against. -/
  text : ∀ q log, History e query q log → ∀ r answer, .compiled r answer ∈ log →
    r.text = query.expression
  /-- What an evaluation answers comes from a call of the engine. -/
  called : ¬toRoot → ∀ q log, History e query q log → ∀ f context s found q' s' log',
    results e.recording f q context (s, log) = (found, q', s', log') →
      found.items ≠ [] ∨ found.failure = none → ∃ asked h, log' = log ++ asked ++ [.called h]

theorem text_of_history (hn : FindsNothing ts) (ht : tokenize query.expression = .ok ts)
    (h : History e query q log) {r : Request} {answer : Except Failure η}
    (hm : .compiled r answer ∈ log) : r.text = query.expression := by
  induction h with
  | @compiled s s' q log hc =>
    obtain ⟨resolved, answer', hlog⟩ := log_compile (e := e) ht s
    rw [hc] at hlog
    dsimp only at hlog
    rw [hlog] at hm
    cases List.mem_singleton.1 hm
    exact hn.text_request ..
  | @evaluated q q' log log' f context s s' found h hr ih =>
    obtain ⟨ts', ht', hkept⟩ := h.kept
    obtain rfl : ts = ts' := Except.ok.inj (ht.symm.trans ht')
    obtain ⟨found', q'', s'', asked, hr', -, -, hsilent, hasks⟩ := hkept.results f context s
    rw [hr'] at hr
    cases hr
    rcases List.mem_append.1 hm with hm | hm
    · exact ih hm
    · cases hc : consulting? f ts context with
      | none =>
        rw [hsilent hc] at hm
        cases hm
      | some n =>
        rw [(hasks n hc).request_eq hm]
        exact hn.text_requestIn ..

/-- An evaluation that answers has called the engine, unless the expression selects the root. -/
theorem called_of_history (hroot : selectsRoot ts = false) (hcontext : selectsContext ts = false)
    (ht : tokenize query.expression = .ok ts) (h : History e query q log) {f : Forest}
    {context : Value} {s s' : ε} {found : Results} {q' : CompiledQuery η σ} {log' : List (Event η)}
    (hr : results e.recording f q context (s, log) = (found, q', s', log'))
    (hfound : found.items ≠ [] ∨ found.failure = none) :
    ∃ asked x, log' = log ++ asked ++ [.called x] := by
  have hfailed {fault : Failure} : ¬((⟨[], some fault⟩ : Results).items ≠ [] ∨
      (⟨[], some fault⟩ : Results).failure = none) := by
    rintro (hitems | hnone)
    · exact hitems rfl
    · cases hnone
  obtain ⟨ts', ht', hkept⟩ := h.kept
  obtain rfl : ts = ts' := Except.ok.inj (ht.symm.trans ht')
  obtain ⟨found', q'', s'', asked, hr', -, -, -, hends⟩ := hkept.ends f context s
  rw [hr'] at hr
  cases hr
  cases hends with
  | unbound _ => exact absurd hfound hfailed
  | failed _ _ => exact absurd hfound hfailed
  | root hb hnone _ =>
    rw [consulting?, hb, hroot, hcontext, Bool.and_false] at hnone
    cases hnone
  | answered _ hconsults =>
    cases hconsults with
    | @called h values answer n' m s' s'' asked _ _ _ =>
      exact ⟨asked, h, (List.append_assoc ..).symm⟩

theorem passesThrough {toRoot : Prop} (hn : FindsNothing ts)
    (ht : tokenize query.expression = .ok ts) (hroot : selectsRoot ts = true → toRoot)
    (hcontext : selectsContext ts = false) (e : Engine η ε) : PassesThrough e query toRoot where
  compiled s := by
    obtain ⟨resolved, answer, hlog⟩ := log_compile (e := e) ht s
    exact ⟨_, answer, hlog, hn.text_request ..⟩
  unbound q log h := by
    obtain ⟨ts', ht', hkept⟩ := h.kept
    obtain rfl : ts = ts' := Except.ok.inj (ht.symm.trans ht')
    rw [hkept.plan]
    exact hn.unboundOf ..
  text q log h r answer hm := text_of_history hn ht h hm
  called hno q log h f context s found q' s' log' hr hfound :=
    called_of_history (Bool.eq_false_iff.2 fun hs => hno (hroot hs)) hcontext ht h hr hfound

end CompiledQuery

end TreeQuery
