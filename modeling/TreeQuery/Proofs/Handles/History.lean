import TreeQuery.Proofs.Handles.Ending

/-!
# Histories of a compiled query

A query is compiled once and then evaluated against any nodes in any order. Whatever happened
before, an evaluation asks the engine for what should be asked in its own scope, has a handle made
only if there is none for it, and answers what a new query would (`results_memoryless`).
-/

namespace TreeQuery

open XPath

namespace CompiledQuery

variable {η σ ε : Type} {e : Engine η ε} {query : Query σ} {q q₀ : CompiledQuery η σ}
  {ts : List Token} {s s' : ε} {log : List (Event η)}

/-! ## Recording changes nothing -/

theorem handle_recording (e : Engine η ε) (q : CompiledQuery η σ) (key : HandleKey) (s : ε)
    (log : List (Event η)) : ∃ log', handle e.recording q key (s, log) =
      ((handle e q key s).1, (handle e q key s).2.1, (handle e q key s).2.2, log') := by
  cases hl : q.handles.lookup key with
  | some x => exact ⟨log, by rw [handle_of_lookup hl, handle_of_lookup hl]⟩
  | none =>
    have hrec := e.recording_compile (q.plan.request key.resolved key.anchored) s log
    cases hc : e.compile (q.plan.request key.resolved key.anchored) s with
    | mk answer s' =>
      rw [hc] at hrec
      cases answer with
      | ok x => exact ⟨_, by rw [handle_of_ok hl hc, handle_of_ok hl hrec]⟩
      | error fault => exact ⟨_, by rw [handle_of_error hl hc, handle_of_error hl hrec]⟩

theorem ask_recording (e : Engine η ε) (f : Forest) (q : CompiledQuery η σ) (isDocument : Bool)
    (n : Navigator) (s : ε) (log : List (Event η)) :
    ∃ log', ask e.recording f q isDocument n (s, log) =
      ((ask e f q isDocument n s).1, (ask e f q isDocument n s).2.1,
        (ask e f q isDocument n s).2.2.1, (ask e f q isDocument n s).2.2.2, log') := by
  obtain ⟨log', hh⟩ := handle_recording e q
    (handleKey q.plan (q.resolvePrefixes n.scope) isDocument) s log
  unfold ask
  rw [hh]
  rcases handle e q (handleKey q.plan (q.resolvePrefixes n.scope) isDocument) s with
    ⟨answer, q', s'⟩
  cases answer with
  | error fault => exact ⟨log', rfl⟩
  | ok x =>
    dsimp only
    rcases (bindVariables f q'.query n.scope [] q'.plan.engineVariables).run n with ⟨values, n'⟩
    cases values with
    | error fault => exact ⟨log', rfl⟩
    | ok values => exact ⟨_, rfl⟩

/-- An evaluation answers what it does without a record. -/
theorem results_recording (e : Engine η ε) (f : Forest) (q : CompiledQuery η σ) (context : Value)
    (s : ε) (log : List (Event η)) :
    ∃ log', results e.recording f q context (s, log) =
      ((results e f q context s).1, (results e f q context s).2.1,
        (results e f q context s).2.2, log') := by
  unfold results
  rcases (Navigator.bind f context).run {} with ⟨bound, n⟩
  cases bound with
  | error fault => exact ⟨log, rfl⟩
  | ok u =>
    cases context with
    | node id =>
      dsimp only
      split
      · exact ⟨log, rfl⟩
      · obtain ⟨log', ha⟩ := ask_recording e f q (f.class? id == some .document) n s log
        rw [ha]
        rcases ask e f q (f.class? id == some .document) n s with ⟨answer, n', q', s'⟩
        cases answer with
        | error fault => exact ⟨log', rfl⟩
        | ok answer => exact ⟨log', rfl⟩
    | _ => exact ⟨log, rfl⟩

theorem compile_recording (e : Engine η ε) (query : Query σ) (s : ε) (log : List (Event η)) :
    ∃ log', compile e.recording query (s, log) =
      ((compile e query s).1, (compile e query s).2, log') := by
  unfold compile
  cases tokenize query.expression with
  | error fault => exact ⟨log, rfl⟩
  | ok ts =>
    dsimp only
    obtain ⟨log', hh⟩ := handle_recording e
      (⟨query, Plan.make query.expression query.namespaces ts, []⟩ : CompiledQuery η σ)
      ⟨(Plan.make query.expression query.namespaces ts).unresolved, false⟩ s log
    rw [hh]
    generalize handle e _ _ s = made
    obtain ⟨answer, q', s'⟩ := made
    cases answer with
    | error fault => exact ⟨log', rfl⟩
    | ok x => exact ⟨log', rfl⟩

/-! ## Queries without a past -/

end CompiledQuery

/-- An engine of which every answer follows from what it is asked. -/
structure Engine.Deterministic {η ε : Type} (e : Engine η ε) : Prop where
  compile : ∀ r s s', (e.compile r s).1 = (e.compile r s').1
  call : ∀ h context values n s s', (e.call h context values n s).1 =
    (e.call h context values n s').1 ∧
      (e.call h context values n s).2.1 = (e.call h context values n s').2.1

namespace CompiledQuery

variable {η σ ε : Type} {e : Engine η ε} {query : Query σ} {q q₀ : CompiledQuery η σ}
  {ts : List Token} {s s' : ε} {log : List (Event η)}

/-- Every handle of a query is one that the engine gives for its request. -/
def Truthful (e : Engine η ε) (q : CompiledQuery η σ) : Prop :=
  ∀ key x, q.handles.lookup key = some x →
    ∃ s, (e.compile (q.plan.request key.resolved key.anchored) s).1 = .ok x

theorem Kept.isTruthful (h : Kept e query ts q log) : Truthful e q := by
  intro key x hl
  obtain ⟨entry, he, hm⟩ := List.mem_filterMap.1 (h.mem_made hl)
  cases entry with
  | called x => cases hm
  | compiled r answer =>
    cases answer with
    | error fault => cases hm
    | ok y =>
      cases hm
      exact h.truthful _ _ he

theorem handle_fst (hd : e.Deterministic) (h : Truthful e q) (key : HandleKey) (s s' : ε) :
    (handle e q key s).1 = (e.compile (q.plan.request key.resolved key.anchored) s').1 ∧
      (handle e q key s).2.1.query = q.query ∧ (handle e q key s).2.1.plan = q.plan := by
  cases hl : q.handles.lookup key with
  | some x =>
    obtain ⟨s₁, hx⟩ := h key x hl
    rw [handle_of_lookup hl, hd.compile _ s' s₁]
    exact ⟨hx.symm, rfl, rfl⟩
  | none =>
    rw [hd.compile _ s' s]
    cases hc : e.compile (q.plan.request key.resolved key.anchored) s with
    | mk answer s₁ =>
      cases answer with
      | ok x =>
        rw [handle_of_ok hl hc]
        exact ⟨rfl, rfl, rfl⟩
      | error fault =>
        rw [handle_of_error hl hc]
        exact ⟨rfl, rfl, rfl⟩

/-- Two histories of a query end in the same answers of the engine. -/
theorem ask_eq (hd : e.Deterministic) (h : Truthful e q) (h₀ : Truthful e q₀)
    (hq : q.query = q₀.query) (hp : q.plan = q₀.plan) (f : Forest) (isDocument : Bool)
    (n : Navigator) (s s₀ : ε) :
    (ask e f q isDocument n s).1 = (ask e f q₀ isDocument n s₀).1 ∧
      (ask e f q isDocument n s).2.1 = (ask e f q₀ isDocument n s₀).2.1 ∧
      (ask e f q isDocument n s).2.2.1.query = (ask e f q₀ isDocument n s₀).2.2.1.query := by
  have hkey : handleKey q.plan (q.resolvePrefixes n.scope) isDocument =
      handleKey q₀.plan (q₀.resolvePrefixes n.scope) isDocument := by
    unfold resolvePrefixes
    rw [hq, hp]
  unfold ask
  rw [hkey]
  obtain ⟨hx, hsource, hplan⟩ :=
    handle_fst hd h (handleKey q₀.plan (q₀.resolvePrefixes n.scope) isDocument) s s
  obtain ⟨hx₀, hsource₀, hplan₀⟩ :=
    handle_fst hd h₀ (handleKey q₀.plan (q₀.resolvePrefixes n.scope) isDocument) s₀ s
  rw [hp, ← hx₀] at hx
  generalize handle e q _ s = made at hx hsource hplan ⊢
  generalize handle e q₀ _ s₀ = made₀ at hx hsource₀ hplan₀ ⊢
  obtain ⟨answer, q', s'⟩ := made
  obtain ⟨answer₀, q₀', s₀'⟩ := made₀
  obtain rfl : answer = answer₀ := hx
  have hsame : q'.query = q₀'.query := hsource.trans (hq.trans hsource₀.symm)
  cases answer with
  | error fault => exact ⟨rfl, rfl, hsame⟩
  | ok x =>
    have hb : bindVariables f q'.query n.scope [] q'.plan.engineVariables =
        bindVariables f q₀'.query n.scope [] q₀'.plan.engineVariables := by
      rw [hsame, hplan, hplan₀, hp]
    dsimp only
    rw [hb]
    rcases (bindVariables f q₀'.query n.scope [] q₀'.plan.engineVariables).run n with ⟨values, n'⟩
    cases values with
    | error fault => exact ⟨rfl, rfl, hsame⟩
    | ok values =>
      obtain ⟨hr, hn⟩ := hd.call x n'.context values n' s' s₀'
      exact ⟨hr, hn, hsame⟩

theorem results_eq (hd : e.Deterministic) (h : Truthful e q) (h₀ : Truthful e q₀)
    (hq : q.query = q₀.query) (hp : q.plan = q₀.plan) (f : Forest) (context : Value) (s s₀ : ε) :
    (results e f q context s).1 = (results e f q₀ context s₀).1 := by
  unfold results
  rcases (Navigator.bind f context).run {} with ⟨bound, n⟩
  cases bound with
  | error fault => rw [hq]
  | ok u =>
    cases context with
    | node id =>
      dsimp only
      rw [hp]
      split
      · rfl
      · obtain ⟨hx, hn, hsame⟩ := ask_eq hd h h₀ hq hp f (f.class? id == some .document) n s s₀
        generalize ask e f q _ n s = asked at hx hn hsame ⊢
        generalize ask e f q₀ _ n s₀ = asked₀ at hx hn hsame ⊢
        obtain ⟨answer, n', q', s'⟩ := asked
        obtain ⟨answer₀, n₀', q₀', s₀'⟩ := asked₀
        obtain rfl : answer = answer₀ := hx
        obtain rfl : n' = n₀' := hn
        cases answer with
        | error fault =>
          dsimp only at hsame ⊢
          rw [hsame]
        | ok answer => rfl
    | _ => rfl

/-- A query that was compiled just now has only what its engine gives. -/
theorem truthful_of_compile (h : compile e query s = (.ok q, s')) :
    ∃ ts, tokenize query.expression = .ok ts ∧ Truthful e q ∧ q.query = query ∧
      q.plan = Plan.make query.expression query.namespaces ts := by
  obtain ⟨log, hc⟩ := compile_recording e query s []
  rw [h] at hc
  obtain ⟨ts, ht, hkept⟩ := kept_of_compile hc
  exact ⟨ts, ht, hkept.isTruthful, hkept.source, hkept.plan⟩

/-! ## Histories -/

/-- A query is compiled, and then evaluated against one node after the other. In between, its engine
may be used for anything else. -/
inductive History (e : Engine η ε) (query : Query σ) :
    CompiledQuery η σ → List (Event η) → Prop where
  | compiled {s s' : ε} {q : CompiledQuery η σ} {log : List (Event η)} :
      compile e.recording query (s, []) = (.ok q, s', log) → History e query q log
  | evaluated {q q' : CompiledQuery η σ} {log log' : List (Event η)} (f : Forest)
      (context : Value) (s : ε) {s' : ε} {found : Results} : History e query q log →
      results e.recording f q context (s, log) = (found, q', s', log') → History e query q' log'

theorem History.kept (h : History e query q log) :
    ∃ ts, tokenize query.expression = .ok ts ∧ Kept e query ts q log := by
  induction h with
  | compiled hc => exact kept_of_compile hc
  | evaluated f context s _ hr ih =>
    obtain ⟨ts, ht, hkept⟩ := ih
    obtain ⟨found, q', s', asked, hr', hkept', -⟩ := hkept.results f context s
    rw [hr'] at hr
    cases hr
    exact ⟨ts, ht, hkept'⟩

/-- An evaluation of `q` against `context` for which nothing counts that was before it. -/
structure Memoryless (e : Engine η ε) (query : Query σ) (ts : List Token) (q : CompiledQuery η σ)
    (log asked : List (Event η)) (f : Forest) (context : Value) (s : ε) : Prop where
  recorded : (results e.recording f q context (s, log)).2.2.2 = log ++ asked
  /-- It may end before the engine is asked. -/
  silent : consulting? f ts context = none → asked = []
  /-- Else it takes the handle for what should be asked in the scope of its node. -/
  asks : ∀ n, consulting? f ts context = some n → Asks (made log)
    (query.requestIn ts (Navigator.contextScope f context) (isDocument f context))
    (isReady f query ts n) asked
  /-- Of the scope, only the URIs of prefixes count that the query leaves open. -/
  scope : ∀ uris, (∀ x, query.isOpen x = true →
      uriIn uris x = uriIn (Navigator.contextScope f context) x) →
    query.requestIn ts uris (isDocument f context) =
      query.requestIn ts (Navigator.contextScope f context) (isDocument f context)
  /-- The engine has made no two handles for one request. -/
  once : ((made (log ++ asked)).map Prod.fst).Nodup
  /-- The record is what the engine answers. -/
  truthful : ∀ r answer, .compiled r answer ∈ log ++ asked → ∃ s, (e.compile r s).1 = answer
  /-- Unless a handle is made, what is kept stays as it is. -/
  unchanged : made asked = [] → (results e.recording f q context (s, log)).2.1 = q
  /-- Keeping a record makes no difference. -/
  observed : (results e.recording f q context (s, log)).1 = (results e f q context s).1
  /-- A new query would answer the same. -/
  fresh : e.Deterministic → ∀ s₀ q₀ s₁, compile e query s₀ = (.ok q₀, s₁) →
    (results e f q context s).1 = (results e f q₀ context s).1

/-- A compiled query has no memory. -/
theorem results_memoryless (h : History e query q log) (f : Forest) (context : Value) (s : ε) :
    ∃ ts asked, tokenize query.expression = .ok ts ∧
      Memoryless e query ts q log asked f context s := by
  obtain ⟨ts, ht, hkept⟩ := h.kept
  obtain ⟨found, q', s', asked, hr, hkept', hsame, hsilent, hasks⟩ := hkept.results f context s
  obtain ⟨log', ho⟩ := results_recording e f q context s log
  refine ⟨ts, asked, ht, ?_⟩
  exact {
    recorded := by rw [hr]
    silent := hsilent
    asks := hasks
    scope := fun uris hu => Query.requestIn_congr hu
    once := hkept'.nodup_requests
    truthful := hkept'.truthful
    unchanged := by
      rw [hr]
      exact hsame
    observed := by rw [ho]
    fresh := fun hd s₀ q₀ s₁ hc => by
      obtain ⟨ts₀, ht₀, htruthful, hsource, hplan⟩ := truthful_of_compile hc
      obtain rfl : ts = ts₀ := Except.ok.inj (ht.symm.trans ht₀)
      exact results_eq hd hkept.isTruthful htruthful (hkept.source.trans hsource.symm)
        (hkept.plan.trans hplan.symm) f context s s }

/-- A name whose prefix is bound where the query is evaluated. -/
theorem results_memoryless_prefixed :
    let e : Engine Request Unit := ⟨fun r s => (.ok r, s), fun _ _ _ n s => (.ok (.many []), n, s)⟩
    let query : Query Unit := ⟨"p:a", .passthrough, [Namespace.none], []⟩
    let f : Forest := ⟨#[⟨none, .element ⟨"a", ⟨"p", "u", by decide, by decide, by decide⟩,
      [], [], []⟩⟩]⟩
    ∃ q log, History e query q log ∧ ∃ ts asked, tokenize query.expression = .ok ts ∧
      Memoryless e query ts q log asked f (.node 0) () := by
  intro e query f
  have ht : tokenize query.expression =
      .ok [⟨.name, ['p'], 0⟩, ⟨.colon, [':'], 1⟩, ⟨.name, ['a'], 2⟩] :=
    tokenize_of_readFrom (by decide +kernel)
  have hc : ∃ q log, compile e.recording query ((), []) = (.ok q, (), log) := by
    unfold compile
    rw [ht]
    exact ⟨_, _, rfl⟩
  obtain ⟨q, log, hc⟩ := hc
  exact ⟨q, log, .compiled hc, results_memoryless (.compiled hc) f (.node 0) ()⟩

end CompiledQuery

end TreeQuery
