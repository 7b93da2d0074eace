import TreeQuery.Proofs.Handles.Kept
import TreeQuery.Proofs.View.Run

/-!
# Ends of evaluations

There are only so many ways in which an evaluation ends: it can not be bound to its context, it
selects the document, the engine makes no handle, a variable has no value, or the engine is called
(`Ends`). In each of them the handles of the query stay those that the engine made (`Kept.ends`). An
evaluation asks for the handle that belongs to the scope of its node, whatever was asked before
(`Kept.results`).
-/

namespace TreeQuery

open XPath

namespace CompiledQuery

variable {η σ ε : Type} {e : Engine η ε} {query : Query σ} {q : CompiledQuery η σ}
  {key : HandleKey} {ts : List Token} {s : ε} {log : List (Event η)}

/-! ## What an evaluation asks -/

/-- Whether a value is a document. -/
def isDocument (f : Forest) (context : Value) : Bool :=
  match context with
  | .node id => f.class? id == some .document
  | _ => false

/-- The navigator with which an evaluation asks the engine, if it does not end before. -/
def consulting? (f : Forest) (ts : List Token) (context : Value) : Option Navigator :=
  match (Navigator.bind f context).run {} with
  | (.error _, _) => none
  | (.ok _, n) =>
    if selectsRoot ts || (isDocument f context && selectsContext ts) then none else some n

/-- An engine is asked with the navigator bound. -/
theorem bind_of_consulting? {f : Forest} {context : Value} {n : Navigator}
    (h : consulting? f ts context = some n) :
    (Navigator.bind f context).run {} = (.ok (), n) := by
  unfold consulting? at h
  split at h
  · cases h
  · next u m hb =>
    obtain ⟨-, hn⟩ := Option.ite_none_left_eq_some.1 h
    cases hn
    exact hb

/-- Whether the variables of a query have values that the engine can take. -/
def isReady (f : Forest) (query : Query σ) (ts : List Token) (n : Navigator) : Bool :=
  ((bindVariables f query n.scope [] (Plan.variablesOf (variableReferences ts))).run n).1.isOk

/-- How an engine comes to a handle for a request, having made the handles in `known`: what it
answers, the state it is left in, and what it is asked. -/
inductive Obtains (e : Engine η ε) (known : List (Request × η)) (r : Request) (s : ε) :
    Except Failure η → ε → List (Event η) → Prop where
  | known {h : η} : (r, h) ∈ known → Obtains e known r s (.ok h) s []
  | made {h : η} {s' : ε} : r ∉ known.map Prod.fst → e.compile r s = (.ok h, s') →
      Obtains e known r s (.ok h) s' [.compiled r (.ok h)]
  | refused {fault : Failure} {s' : ε} : r ∉ known.map Prod.fst →
      e.compile r s = (.error fault, s') →
      Obtains e known r s (.error fault) s' [.compiled r (.error fault)]

theorem Obtains.asks {known : List (Request × η)} {r : Request} {s s' : ε} {h : η}
    {asked : List (Event η)} (ho : Obtains e known r s (.ok h) s' asked) (ready : Bool) :
    Asks known r ready (asked ++ calls ready h) := by
  cases ho with
  | known hm => exact .known hm
  | made hnew _ => exact .made hnew

theorem Obtains.asks_refused {known : List (Request × η)} {r : Request} {s s' : ε}
    {fault : Failure} {asked : List (Event η)}
    (ho : Obtains e known r s (.error fault) s' asked) (ready : Bool) : Asks known r ready asked := by
  cases ho with
  | refused hnew _ => exact .refused hnew

/-- How asking an engine ends: it refuses to make a handle, a variable has no value that it can take,
or it is called. -/
inductive Consults (e : Engine η ε) (f : Forest) (query : Query σ) (ts : List Token)
    (known : List (Request × η)) (r : Request) (n : Navigator) (s : ε) :
    Except Failure Answer → Navigator → ε → List (Event η) → Prop where
  | refused {fault : Failure} {s' : ε} {asked : List (Event η)} :
      Obtains e known r s (.error fault) s' asked →
      Consults e f query ts known r n s (.error fault) n s' asked
  | unset {h : η} {fault : Failure} {n' : Navigator} {s' : ε} {asked : List (Event η)} :
      Obtains e known r s (.ok h) s' asked →
      (bindVariables f query n.scope [] (Plan.variablesOf (variableReferences ts))).run n =
        (.error fault, n') →
      Consults e f query ts known r n s (.error fault) n' s' asked
  | called {h : η} {values : List (String × EngineValue)} {answer : Except Failure Answer}
      {n' m : Navigator} {s' s'' : ε} {asked : List (Event η)} :
      Obtains e known r s (.ok h) s' asked →
      (bindVariables f query n.scope [] (Plan.variablesOf (variableReferences ts))).run n =
        (.ok values, n') →
      e.call h n'.context values n' s' = (answer, m, s'') →
      Consults e f query ts known r n s answer m s'' (asked ++ [.called h])

theorem Consults.asks {f : Forest} {known : List (Request × η)} {r : Request} {n m : Navigator}
    {s s' : ε} {answer : Except Failure Answer} {asked : List (Event η)}
    (h : Consults e f query ts known r n s answer m s' asked) :
    Asks known r (isReady f query ts n) asked := by
  unfold isReady
  cases h with
  | refused ho => exact ho.asks_refused _
  | unset ho hb =>
    rw [hb]
    have hasks := ho.asks false
    rwa [calls, if_neg Bool.false_ne_true, List.append_nil] at hasks
  | called ho hb _ =>
    rw [hb]
    exact ho.asks true

/-- How an evaluation ends: it can not be bound to its context, it selects the document, or it asks
the engine. -/
inductive Ends (e : Engine η ε) (f : Forest) (query : Query σ) (ts : List Token)
    (known : List (Request × η)) (context : Value) (s : ε) :
    Results → ε → List (Event η) → Prop where
  | unbound {fault : Failure} {n : Navigator} :
      (Navigator.bind f context).run {} = (.error fault, n) →
      Ends e f query ts known context s
        ⟨[], some (fault.whileEvaluating query.expression [.type, .value])⟩ s []
  | root {id : NodeId} {n : Navigator} : (Navigator.bind f context).run {} = (.ok (), n) →
      consulting? f ts context = none → context = .node id →
      Ends e f query ts known context s ⟨(f.document? id).toList.map .node, none⟩ s []
  | failed {fault : Failure} {n m : Navigator} {s' : ε} {asked : List (Event η)} :
      consulting? f ts context = some n →
      Consults e f query ts known
        (query.requestIn ts (Navigator.contextScope f context) (isDocument f context)) n s
        (.error fault) m s' asked →
      Ends e f query ts known context s
        ⟨[], some (fault.whileEvaluating query.expression evaluationFailures)⟩ s' asked
  | answered {answer : Answer} {n m : Navigator} {s' : ε} {asked : List (Event η)} :
      consulting? f ts context = some n →
      Consults e f query ts known
        (query.requestIn ts (Navigator.contextScope f context) (isDocument f context)) n s
        (.ok answer) m s' asked →
      Ends e f query ts known context s (resultsOf m f answer.items) s' asked

/-! ## Every evaluation -/

/-- A handle is taken for what should be asked, and made if it is not there. -/
theorem Kept.handle (h : Kept e query ts q log) (hk : q.plan.IsKey key) (s : ε) :
    ∃ answer q' s' asked,
      handle e.recording q key (s, log) = (answer, q', s', log ++ asked) ∧
      Kept e query ts q' (log ++ asked) ∧ (TreeQuery.made asked = [] → q' = q) ∧
      q.handles <+: q'.handles ∧
      Obtains e (TreeQuery.made log) (q.plan.request key.resolved key.anchored) s answer s' asked
    := by
  cases hl : q.handles.lookup key with
  | some x =>
    refine ⟨.ok x, q, s, [], ?_, ?_, fun _ => rfl, List.prefix_refl _, .known (h.mem_made hl)⟩
    · rw [List.append_nil]
      exact handle_of_lookup hl
    · rw [List.append_nil]
      exact h
  | none =>
    have hnew := h.not_mem_made hk hl
    cases hc : e.compile (q.plan.request key.resolved key.anchored) s with
    | mk answer s' =>
      have hrec : e.recording.compile (q.plan.request key.resolved key.anchored) (s, log) =
          (answer, s', log ++ [.compiled (q.plan.request key.resolved key.anchored) answer]) := by
        rw [Engine.recording_compile, hc]
      cases answer with
      | ok x =>
        refine ⟨.ok x, _, s', _, handle_of_ok hl hrec, ?_, fun hn => ?_,
          List.prefix_append _ _, .made hnew hc⟩
        · exact h.added hk hl (s := s) (by rw [hc])
        · cases hn
      | error fault =>
        refine ⟨.error fault, q, s', _, handle_of_error hl hrec, ?_, fun _ => rfl,
          List.prefix_refl _, .refused hnew hc⟩
        exact h.refused (s := s) (by rw [hc])

theorem Kept.plan_make (h : Kept e query ts q log) :
    q.plan = Plan.make q.query.expression q.query.namespaces ts := by
  rw [h.plan, h.source]

theorem Kept.ask (h : Kept e query ts q log) (f : Forest) (isDocument : Bool) (n : Navigator)
    (s : ε) : ∃ answer n' q' s' asked,
      ask e.recording f q isDocument n (s, log) = (answer, n', q', s', log ++ asked) ∧
      Kept e query ts q' (log ++ asked) ∧ (TreeQuery.made asked = [] → q' = q) ∧
      q.handles <+: q'.handles ∧
      Consults e f query ts (TreeQuery.made log) (query.requestIn ts n.scope isDocument) n s answer
        n' s' asked := by
  have hk := isKey_handleKey h.plan_make n.scope isDocument
  have hr := request_handleKey h.plan_make n.scope isDocument
  obtain ⟨answer, q', s', asked, hh, hkept, hsame, hprefix, hobtains⟩ := h.handle hk s
  rw [hr, h.source] at hobtains
  unfold CompiledQuery.ask
  rw [hh]
  cases answer with
  | error fault =>
    exact ⟨.error fault, n, q', s', asked, rfl, hkept, hsame, hprefix, .refused hobtains⟩
  | ok x =>
    have hb : bindVariables f q'.query n.scope [] q'.plan.engineVariables =
        bindVariables f query n.scope [] (Plan.variablesOf (variableReferences ts)) := by
      rw [hkept.source, hkept.plan]
      rfl
    dsimp only
    rw [hb]
    cases hv : (bindVariables f query n.scope [] (Plan.variablesOf (variableReferences ts))).run n
      with
    | mk values n' =>
      cases values with
      | error fault =>
        exact ⟨.error fault, n', q', s', asked, rfl, hkept, hsame, hprefix, .unset hobtains hv⟩
      | ok values =>
        refine ⟨(e.call x n'.context values n' s').1, (e.call x n'.context values n' s').2.1, q',
          (e.call x n'.context values n' s').2.2, asked ++ [.called x], ?_, ?_, fun hn => ?_,
          hprefix, .called hobtains hv rfl⟩
        · rw [← List.append_assoc]
          rfl
        · rw [← List.append_assoc]
          exact hkept.calls true x
        · rw [made_append] at hn
          exact hsame (List.append_eq_nil_iff.1 hn).1

/-- An evaluation ends in one of these ways. It adds to the handles that it finds, and takes none
away. -/
theorem Kept.ends (h : Kept e query ts q log) (f : Forest) (context : Value) (s : ε) :
    ∃ found q' s' asked,
      results e.recording f q context (s, log) = (found, q', s', log ++ asked) ∧
      Kept e query ts q' (log ++ asked) ∧ (TreeQuery.made asked = [] → q' = q) ∧
      q.handles <+: q'.handles ∧
      Ends e f query ts (TreeQuery.made log) context s found s' asked := by
  have hquiet {found : Results} (hend : Ends e f query ts (TreeQuery.made log) context s found s []) :
      ∃ found' q' s' asked, (found, q, s, log) = (found', q', s', log ++ asked) ∧
        Kept e query ts q' (log ++ asked) ∧ (TreeQuery.made asked = [] → q' = q) ∧
        q.handles <+: q'.handles ∧
        Ends e f query ts (TreeQuery.made log) context s found' s' asked := by
    refine ⟨found, q, s, [], ?_, ?_, fun _ => rfl, List.prefix_refl _, hend⟩
    · rw [List.append_nil]
    · rw [List.append_nil]
      exact h
  unfold CompiledQuery.results
  cases hb : (Navigator.bind f context).run {} with
  | mk bound n =>
    cases bound with
    | error fault =>
      dsimp only
      rw [h.source]
      exact hquiet (.unbound hb)
    | ok u =>
      obtain ⟨⟨id, rfl⟩, hscope⟩ := Navigator.scope_of_bind hb
      have hroot : (q.plan.selectsRoot || f.class? id == some .document && q.plan.selectsContext) =
          (selectsRoot ts || isDocument f (.node id) && selectsContext ts) := by
        rw [h.plan]
        rfl
      have hconsult : consulting? f ts (.node id) =
          if selectsRoot ts || (isDocument f (.node id) && selectsContext ts) then none
          else some n := by
        rw [consulting?, hb]
      dsimp only
      rw [hroot]
      split
      · next hselects =>
        rw [if_pos hselects] at hconsult
        exact hquiet (.root hb hconsult rfl)
      · next hselects =>
        rw [if_neg hselects] at hconsult
        obtain ⟨answer, n', q', s', asked, ha, hkept, hsame, hprefix, hconsults⟩ :=
          h.ask f (f.class? id == some .document) n s
        rw [ha]
        rw [hscope] at hconsults
        cases answer with
        | error fault =>
          dsimp only
          rw [hkept.source]
          exact ⟨_, q', s', asked, rfl, hkept, hsame, hprefix, .failed hconsult hconsults⟩
        | ok answer =>
          exact ⟨_, q', s', asked, rfl, hkept, hsame, hprefix, .answered hconsult hconsults⟩

/-- An evaluation asks for what should be asked in the scope of its node, if it asks. -/
theorem Kept.results (h : Kept e query ts q log) (f : Forest) (context : Value) (s : ε) :
    ∃ found q' s' asked,
      results e.recording f q context (s, log) = (found, q', s', log ++ asked) ∧
      Kept e query ts q' (log ++ asked) ∧ (TreeQuery.made asked = [] → q' = q) ∧
      (consulting? f ts context = none → asked = []) ∧
      ∀ n, consulting? f ts context = some n → Asks (TreeQuery.made log)
        (query.requestIn ts (Navigator.contextScope f context) (isDocument f context))
        (isReady f query ts n) asked := by
  obtain ⟨found, q', s', asked, hr, hkept, hsame, -, hends⟩ := h.ends f context s
  refine ⟨found, q', s', asked, hr, hkept, hsame, ?_⟩
  cases hends with
  | unbound hb =>
    refine ⟨fun _ => rfl, fun n hn => ?_⟩
    rw [consulting?, hb] at hn
    cases hn
  | root _ hnone _ =>
    refine ⟨fun _ => rfl, fun n hn => ?_⟩
    rw [hnone] at hn
    cases hn
  | failed hsome hconsults | answered hsome hconsults =>
    refine ⟨fun hn => ?_, fun n hn => ?_⟩
    · rw [hsome] at hn
      cases hn
    · rw [hsome] at hn
      cases hn
      exact hconsults.asks

theorem kept_of_compile {s' : ε} (h : compile e.recording query (s, []) = (.ok q, s', log)) :
    ∃ ts, tokenize query.expression = .ok ts ∧ Kept e query ts q log := by
  unfold compile at h
  cases ht : tokenize query.expression with
  | error fault =>
    rw [ht] at h
    cases h
  | ok ts =>
    rw [ht] at h
    refine ⟨ts, rfl, ?_⟩
    have hnew : Kept e query ts (⟨query, Plan.make query.expression query.namespaces ts, []⟩ :
        CompiledQuery η σ) [] :=
      ⟨rfl, rfl, nofun, List.nodup_nil, rfl, nofun⟩
    have hk : (Plan.make query.expression query.namespaces ts).IsKey
        ⟨(Plan.make query.expression query.namespaces ts).unresolved, false⟩ :=
      ⟨⟨fun _ => "", rfl⟩, nofun⟩
    obtain ⟨answer, q', s₁, asked, hh, hkept, -⟩ := hnew.handle hk s
    dsimp only at h
    rw [hh] at h
    cases answer with
    | error fault => cases h
    | ok x =>
      cases h
      exact hkept

end CompiledQuery

end TreeQuery
