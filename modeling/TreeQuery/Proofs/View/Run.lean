import TreeQuery.View.Exchange

/-!
# Runs of navigators

Steps that succeed one after the other succeed each (`run_bind_eq_ok`). A navigator that has been
bound to a node knows the scope of that node (`scope_of_bind`).
-/

namespace TreeQuery.Navigator

variable {α β : Type} {n n' : Navigator}

theorem run_bind_ok {x : M α} {g : α → M β} {a : α} (h : x.run n = (.ok a, n')) :
    (x >>= g).run n = (g a).run n' := by
  show (match x.run n with
    | (a, n) => (ExceptT.bindCont g a) n) = _
  rw [h]
  rfl

theorem run_bind_error {x : M α} {g : α → M β} {fault : Failure}
    (h : x.run n = (.error fault, n')) : (x >>= g).run n = (.error fault, n') := by
  show (match x.run n with
    | (a, n) => (ExceptT.bindCont g a) n) = _
  rw [h]
  rfl

theorem run_bind_eq_ok {x : M α} {g : α → M β} {b : β} (h : (x >>= g).run n = (.ok b, n')) :
    ∃ a m, x.run n = (.ok a, m) ∧ (g a).run m = (.ok b, n') := by
  cases hx : x.run n with
  | mk answer m =>
    cases answer with
    | ok a =>
      rw [run_bind_ok hx] at h
      exact ⟨a, m, rfl, h⟩
    | error fault =>
      rw [run_bind_error hx] at h
      cases h

theorem run_bind_eq_error {x : M α} {g : α → M β} {fault : Failure}
    (h : (x >>= g).run n = (.error fault, n')) :
    x.run n = (.error fault, n') ∨ ∃ a m, x.run n = (.ok a, m) ∧ (g a).run m = (.error fault, n') := by
  cases hx : x.run n with
  | mk answer m =>
    cases answer with
    | ok a =>
      rw [run_bind_ok hx] at h
      exact .inr ⟨a, m, rfl, h⟩
    | error fault' =>
      rw [run_bind_error hx] at h
      cases h
      exact .inl rfl

/-- The URIs of the prefixes in scope at the node that stands for a value. -/
def contextScope (f : Forest) (context : Value) : List (String × String) :=
  match contextNode f context with
  | .ok id => ((scopeElement? f id).map (scopeOf f)).getD []
  | .error _ => []

/-- Only a node can be bound, and then its scope is known. -/
theorem scope_of_bind {f : Forest} {context : Value}
    (h : (Navigator.bind f context).run n = (.ok (), n')) :
    (∃ id, context = .node id) ∧ n'.scope = contextScope f context := by
  unfold Navigator.bind at h
  obtain ⟨-, m, -, h⟩ := run_bind_eq_ok h
  obtain ⟨id, m, hid, h⟩ := run_bind_eq_ok h
  obtain ⟨view, m, -, h⟩ := run_bind_eq_ok h
  have hc : contextNode f context = .ok id := congrArg Prod.fst hid
  constructor
  · cases context with
    | node id => exact ⟨id, rfl⟩
    | _ => cases hc
  · rw [contextScope, hc]
    cases h
    rfl

end TreeQuery.Navigator
