import TreeQuery.Proofs.Handles.Combination

/-!
# Kept handles

A record of what an engine is asked shows where the handles of a query come from: they are those
that the engine made, each for a request of its own (`Kept`). Handles that are added are kept so, and
calls and refusals change nothing.
-/

namespace TreeQuery

open XPath

/-! ## Recording -/

/-- What an engine was asked, and what it answered when it was asked to compile. -/
inductive Event (η : Type) where
  | compiled (r : Request) (answer : Except Failure η)
  | called (h : η)

def Event.made? {η : Type} : Event η → Option (Request × η)
  | .compiled r (.ok h) => some (r, h)
  | _ => none

/-- The handles that were made, with what they were made for. -/
def made {η : Type} (log : List (Event η)) : List (Request × η) := log.filterMap Event.made?

/-- An engine that keeps a record of what it is asked. -/
def Engine.recording {η ε : Type} (e : Engine η ε) : Engine η (ε × List (Event η)) where
  compile r s :=
    let (answer, s') := e.compile r s.1
    (answer, s', s.2 ++ [.compiled r answer])
  call h context values n s :=
    let (answer, n, s') := e.call h context values n s.1
    (answer, n, s', s.2 ++ [.called h])

theorem Engine.recording_compile {η ε : Type} (e : Engine η ε) (r : Request) (s : ε)
    (log : List (Event η)) : e.recording.compile r (s, log) =
      ((e.compile r s).1, (e.compile r s).2, log ++ [.compiled r (e.compile r s).1]) := rfl

section Asks

variable {η : Type}

/-- A handle is called if the variables have values that the engine can take. -/
def calls (ready : Bool) (h : η) : List (Event η) := if ready then [.called h] else []

/-- What an evaluation asks that needs a handle for `r`, after handles have been made: it takes the
one for `r`, and only if there is none has it made. -/
inductive Asks (known : List (Request × η)) (r : Request) (ready : Bool) :
    List (Event η) → Prop where
  | known {h : η} : (r, h) ∈ known → Asks known r ready (calls ready h)
  | made {h : η} : r ∉ known.map Prod.fst →
      Asks known r ready (.compiled r (.ok h) :: calls ready h)
  | refused {fault : Failure} : r ∉ known.map Prod.fst →
      Asks known r ready [.compiled r (.error fault)]

theorem made_append (log log' : List (Event η)) : made (log ++ log') = made log ++ made log' :=
  List.filterMap_append

theorem made_calls (ready : Bool) (h : η) : made (calls ready h) = [] := by
  cases ready <;> rfl

end Asks

namespace CompiledQuery

variable {η σ ε : Type} {e : Engine η ε} {query : Query σ} {q : CompiledQuery η σ}
  {key : HandleKey} {ts : List Token} {s : ε} {log : List (Event η)}

theorem handle_of_lookup {h : η} (hl : q.handles.lookup key = some h) :
    handle e q key s = (.ok h, q, s) := by
  unfold handle
  rw [hl]

theorem handle_of_ok {h : η} {s' : ε} (hl : q.handles.lookup key = none)
    (hc : e.compile (q.plan.request key.resolved key.anchored) s = (.ok h, s')) :
    handle e q key s = (.ok h, { q with handles := q.handles ++ [(key, h)] }, s') := by
  unfold handle
  simp only [hl, hc]

theorem handle_of_error {fault : Failure} {s' : ε} (hl : q.handles.lookup key = none)
    (hc : e.compile (q.plan.request key.resolved key.anchored) s = (.error fault, s')) :
    handle e q key s = (.error fault, q, s') := by
  unfold handle
  simp only [hl, hc]

/-! ## What is kept -/

/-- What a handle is kept with, and what it was made for. -/
def entryOf (p : Plan) (entry : HandleKey × η) : Request × η :=
  (p.request entry.1.resolved entry.1.anchored, entry.2)

/-- The handles of a query are those that its engine made, each under a key of its own. -/
structure Kept (e : Engine η ε) (query : Query σ) (ts : List Token) (q : CompiledQuery η σ)
    (log : List (Event η)) : Prop where
  source : q.query = query
  plan : q.plan = Plan.make query.expression query.namespaces ts
  keys : ∀ key ∈ q.handles.map Prod.fst, q.plan.IsKey key
  nodup : (q.handles.map Prod.fst).Nodup
  made : made log = q.handles.map (entryOf q.plan)
  truthful : ∀ r answer, .compiled r answer ∈ log → ∃ s, (e.compile r s).1 = answer

namespace Kept

theorem fst_made (h : Kept e query ts q log) : (TreeQuery.made log).map Prod.fst =
    (q.handles.map Prod.fst).map fun key => q.plan.request key.resolved key.anchored := by
  rw [h.made, List.map_map, List.map_map]
  rfl

theorem request_injective (h : Kept e query ts q log) {key key' : HandleKey}
    (hk : q.plan.IsKey key) (hk' : q.plan.IsKey key')
    (hr : q.plan.request key.resolved key.anchored = q.plan.request key'.resolved key'.anchored) :
    key = key' := by
  have ha : q.plan.anchors = Plan.anchorsOf ts := by
    rw [h.plan]
    rfl
  exact Plan.request_injective ha hk hk' hr

theorem nodup_requests (h : Kept e query ts q log) :
    ((TreeQuery.made log).map Prod.fst).Nodup := by
  rw [h.fst_made]
  exact List.Nodup.map_on (fun key hk key' hk' => h.request_injective (h.keys key hk)
    (h.keys key' hk')) h.nodup

theorem mem_made (h : Kept e query ts q log) {x : η} (hl : q.handles.lookup key = some x) :
    (q.plan.request key.resolved key.anchored, x) ∈ TreeQuery.made log := by
  obtain ⟨l, l', hm, -⟩ := List.lookup_eq_some_iff.1 hl
  rw [h.made, hm, List.map_append, List.map_cons]
  exact List.mem_append_right _ List.mem_cons_self

theorem not_mem_keys (hl : q.handles.lookup key = none) : key ∉ q.handles.map Prod.fst := by
  intro hm
  obtain ⟨entry, he, rfl⟩ := List.mem_map.1 hm
  have := List.lookup_eq_none_iff.1 hl entry he
  simp at this

theorem not_mem_made (h : Kept e query ts q log) (hk : q.plan.IsKey key)
    (hl : q.handles.lookup key = none) :
    q.plan.request key.resolved key.anchored ∉ (TreeQuery.made log).map Prod.fst := by
  rw [h.fst_made]
  intro hm
  obtain ⟨key', hk', hr⟩ := List.mem_map.1 hm
  rw [← h.request_injective (h.keys key' hk') hk hr] at hl
  exact not_mem_keys hl hk'

theorem append (h : Kept e query ts q log) {log' : List (Event η)}
    (hm : TreeQuery.made log' = [])
    (ht : ∀ r answer, .compiled r answer ∈ log' → ∃ s, (e.compile r s).1 = answer) :
    Kept e query ts q (log ++ log') where
  source := h.source
  plan := h.plan
  keys := h.keys
  nodup := h.nodup
  made := by rw [made_append, hm, List.append_nil, h.made]
  truthful r answer hr := by
    rcases List.mem_append.1 hr with hr | hr
    · exact h.truthful r answer hr
    · exact ht r answer hr

theorem calls (h : Kept e query ts q log) (ready : Bool) (x : η) :
    Kept e query ts q (log ++ calls ready x) := by
  refine h.append (made_calls ready x) fun r answer hr => ?_
  cases ready with
  | false => cases hr
  | true => cases List.mem_singleton.1 hr

theorem refused (h : Kept e query ts q log) {r : Request} {fault : Failure}
    (hc : (e.compile r s).1 = .error fault) :
    Kept e query ts q (log ++ [.compiled r (.error fault)]) := by
  refine h.append rfl fun r' answer hr => ?_
  cases List.mem_singleton.1 hr
  exact ⟨s, hc⟩

theorem added (h : Kept e query ts q log) (hk : q.plan.IsKey key)
    (hl : q.handles.lookup key = none) {x : η}
    (hc : (e.compile (q.plan.request key.resolved key.anchored) s).1 = .ok x) :
    Kept e query ts { q with handles := q.handles ++ [(key, x)] }
      (log ++ [.compiled (q.plan.request key.resolved key.anchored) (.ok x)]) where
  source := h.source
  plan := h.plan
  keys k hm := by
    rw [List.map_append] at hm
    rcases List.mem_append.1 hm with hm | hm
    · exact h.keys k hm
    · cases List.mem_singleton.1 hm
      exact hk
  nodup := by
    show ((q.handles ++ [(key, x)]).map Prod.fst).Nodup
    rw [List.map_append, List.map_singleton]
    exact h.nodup.append (List.nodup_singleton _)
      (List.disjoint_singleton.2 (not_mem_keys hl))
  made := by
    rw [made_append, h.made, List.map_append]
    rfl
  truthful r answer hr := by
    rcases List.mem_append.1 hr with hr | hr
    · exact h.truthful r answer hr
    · cases List.mem_singleton.1 hr
      exact ⟨s, hc⟩

end Kept

end CompiledQuery

end TreeQuery
