import TreeQuery.Proofs.Handles.Variables
import TreeQuery.Proofs.View.Refusals

/-!
# Unset references

The variables of an expression get their values in the order in which they are first referred to.
If not all of them can have one, the first reference that has none says why (`Unset`): its variable
is not bound, or its value can not be converted for an engine.
-/

namespace TreeQuery

open XPath

/-! ## References one after the other -/

namespace Plan

variable {refs : List VariableReference}

/-- The variables before one are those of the references before its first. -/
theorem exists_reference_of_append {vs ws : List EngineVariable} {v : EngineVariable}
    (h : variablesOf refs = vs ++ v :: ws) : ∃ before r after,
      refs = before ++ r :: after ∧ variablesOf before = vs ∧ IsVariableOf v r := by
  induction refs using List.reverseRecOn generalizing ws with
  | nil => cases vs <;> cases h
  | append_singleton refs r ih =>
    have hlast : variablesOf (refs ++ [r]) = addVariable (variablesOf refs) r :=
      List.foldl_append
    rw [hlast, addVariable] at h
    split at h
    · -- the variable of the last reference is known before
      obtain ⟨before, r', after, rfl, hb, hv⟩ := ih h
      exact ⟨before, r', after ++ [r], by simp, hb, hv⟩
    · rcases List.eq_nil_or_concat ws with rfl | ⟨ws, w, rfl⟩
      · obtain ⟨hb, hv⟩ := List.append_inj' h rfl
        cases hv
        exact ⟨refs, r, [], rfl, hb, rfl, rfl⟩
      · rw [List.concat_eq_append, ← List.cons_append, ← List.append_assoc] at h
        obtain ⟨before, r', after, rfl, hb, hv⟩ := ih (List.append_inj' h rfl).1
        exact ⟨before, r', after ++ [r], by simp, hb, hv⟩

end Plan

namespace CompiledQuery

variable {σ : Type} {query : Query σ} {refs : List VariableReference} {f : Forest}
  {n n' : Navigator} {scope : List (String × String)}

/-- Variables that are all bound have values, which have been converted. -/
theorem bindVariables_eq_ok {vs : List EngineVariable} {bound values : List (String × EngineValue)}
    (hf : f.WellFormed) (hs : n.Sound f)
    (h : (bindVariables f query scope bound vs).run n = (.ok values, n')) :
    n'.Sound f ∧
      ∀ v ∈ vs, ∃ value, query.resolveVariable scope none v.pfx v.localName = .ok value := by
  induction vs generalizing bound n with
  | nil =>
    cases h
    exact ⟨hs, nofun⟩
  | cons v vs ih =>
    rw [bindVariables] at h
    cases hr : query.resolveVariable scope none v.pfx v.localName with
    | error fault =>
      rw [hr] at h
      cases h
    | ok value =>
      rw [hr] at h
      obtain ⟨x, m, hx, hrest⟩ := Navigator.run_bind_eq_ok h
      obtain ⟨hsound, hall⟩ := ih (hs.toEngine hf hx).1 hrest
      exact ⟨hsound, List.forall_mem_cons.2 ⟨⟨value, hr⟩, hall⟩⟩

/-- Of variables that can not all be bound, the first that can not has no value, or one that can not
be converted. -/
theorem bindVariables_eq_error {vs : List EngineVariable} {bound : List (String × EngineValue)}
    {fault : Failure} (h : (bindVariables f query scope bound vs).run n = (.error fault, n')) :
    ∃ before v after values m, vs = before ++ v :: after ∧
      (bindVariables f query scope bound before).run n = (.ok values, m) ∧
      (query.resolveVariable scope none v.pfx v.localName = .error fault ∨
        ∃ value, query.resolveVariable scope none v.pfx v.localName = .ok value ∧
          (Navigator.toEngine f value).run m = (.error fault, n')) := by
  induction vs generalizing bound n with
  | nil => cases h
  | cons v vs ih =>
    rw [bindVariables] at h
    cases hr : query.resolveVariable scope none v.pfx v.localName with
    | error fault' =>
      rw [hr] at h
      cases h
      exact ⟨[], v, vs, bound, n', rfl, rfl, .inl hr⟩
    | ok value =>
      rw [hr] at h
      rcases Navigator.run_bind_eq_error h with hx | ⟨x, m, hx, hrest⟩
      · exact ⟨[], v, vs, bound, n, rfl, rfl, .inr ⟨value, hr, hx⟩⟩
      · obtain ⟨before, w, after, values, m', rfl, hbefore, hw⟩ := ih hrest
        refine ⟨v :: before, w, after, values, m', rfl, ?_, hw⟩
        rw [bindVariables, hr, Navigator.run_bind_ok hx]
        exact hbefore

theorem resolveVariable_eq {pfx : Option String} {name : String} :
    query.resolveVariable scope none pfx name =
      match query.value? ⟨query.resolvePrefix scope pfx, name⟩ with
      | some value => .ok value
      | none => .error (.unresolved (query.resolvePrefix scope pfx) name) := rfl

/-- Why a reference has no value for an engine, while all before it have. -/
inductive Unset (f : Forest) (query : Query σ) (refs : List VariableReference) (n : Navigator) :
    Failure → Prop where
  /-- Its variable is not bound. -/
  | unresolved {before after : List VariableReference} {r : VariableReference} {uri : String}
      {values : List (String × EngineValue)} {m : Navigator} : refs = before ++ r :: after →
      (bindVariables f query n.scope [] (Plan.variablesOf before)).run n = (.ok values, m) →
      uri = query.resolvePrefix n.scope r.pfx → query.value? ⟨uri, r.name⟩ = none →
      Unset f query refs n (.unresolved uri r.name)
  /-- The value of its variable can not be converted. -/
  | unconverted {before after : List VariableReference} {r : VariableReference} {value : Value}
      {values : List (String × EngineValue)} {m m' : Navigator} {fault : Failure} :
      refs = before ++ r :: after →
      (bindVariables f query n.scope [] (Plan.variablesOf before)).run n = (.ok values, m) →
      query.value? ⟨query.resolvePrefix n.scope r.pfx, r.name⟩ = some value →
      (Navigator.toEngine f value).run m = (.error fault, m') → Unset f query refs n fault

theorem unset_of_bindVariables {fault : Failure}
    (h : (bindVariables f query n.scope [] (Plan.variablesOf refs)).run n = (.error fault, n')) :
    Unset f query refs n fault := by
  obtain ⟨vs, v, ws, values, m, hvs, hbefore, hv⟩ := bindVariables_eq_error h
  obtain ⟨before, r, after, hrefs, rfl, hpfx, hname⟩ := Plan.exists_reference_of_append hvs
  rw [hpfx, hname, resolveVariable_eq] at hv
  cases hvalue : query.value? ⟨query.resolvePrefix n.scope r.pfx, r.name⟩ with
  | none =>
    rw [hvalue] at hv
    rcases hv with hv | ⟨value, hv, -⟩
    · cases hv
      exact .unresolved hrefs hbefore rfl hvalue
    · cases hv
  | some value =>
    rw [hvalue] at hv
    rcases hv with hv | ⟨value', hv, hx⟩
    · cases hv
    · cases hv
      exact .unconverted hrefs hbefore hvalue hx

theorem Unset.isAny (hf : f.WellFormed) {fault : Failure} (h : Unset f query refs n fault) :
    fault.isAny evaluationFailures = true := by
  cases h with
  | unresolved => rfl
  | unconverted _ _ _ hx =>
    exact Failure.isAny_mono (by decide) (Navigator.refuses_toEngine hf _ _ _ _ hx)

theorem exists_value_of_bindVariables {values : List (String × EngineValue)} (hf : f.WellFormed)
    (hs : n.Sound f)
    (h : (bindVariables f query scope [] (Plan.variablesOf refs)).run n = (.ok values, n')) :
    ∀ r ∈ refs, ∃ value, query.value? ⟨query.resolvePrefix scope r.pfx, r.name⟩ = some value := by
  intro r hr
  obtain ⟨v, hv, hpfx, hname⟩ := Plan.exists_variable hr
  obtain ⟨value, hvalue⟩ := (bindVariables_eq_ok hf hs h).2 v hv
  rw [hpfx, hname, resolveVariable_eq] at hvalue
  split at hvalue
  · next value' hsome => exact ⟨value', hsome⟩
  · cases hvalue

end CompiledQuery

end TreeQuery
