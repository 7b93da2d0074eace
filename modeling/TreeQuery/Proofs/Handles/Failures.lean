import TreeQuery.Proofs.Evaluation.Faults
import TreeQuery.Proofs.Handles.Compiling
import TreeQuery.Proofs.Handles.Unset
import TreeQuery.Proofs.View.Returned

/-!
# Failures of evaluations

An evaluation goes through stages: the context is bound, the engine is asked for a handle, the
variables get their values, the engine is called, and its results are taken back to the tree. At
each of the first four it may fail, and then fails as an evaluation, on account of the failure that
came first (`Fails`). The results of an honest engine are all found in the tree; only an attribute
that is known to the engine by another name is not, which is reported as it is. So an evaluation
fails as such, with the failure that it came to first, or with that of its filter, or on account of
such an attribute (`evaluation_fails_as_such`, `misread_escapes`). A filter that fails on a result
which can not be shown leaves no message either, and the evaluation fails with that.
-/

namespace TreeQuery

open XPath

/-! ## Honest engines -/

/-- An engine that fails only with failures of its own, of a type or of a value, leaves the navigator
alone and returns what can be returned. -/
structure Engine.Honest {η ε : Type} (e : Engine η ε) : Prop where
  compiles : e.CompilesOr [.engine, .type, .value]
  calls : ∀ h context values n s fault, (e.call h context values n s).1 = .error fault →
    fault.isAny [.engine, .type, .value] = true
  keeps : ∀ h context values n s, (e.call h context values n s).2.1 = n
  returns : ∀ h context values n s answer, (e.call h context values n s).1 = .ok answer →
    ∀ i ∈ answer.items, n.Returnable i

/-- A failure to evaluate the expression of a query, on account of another. -/
def Query.evaluationFault {σ : Type} (query : Query σ) (cause : Failure) : Failure :=
  .evaluationFailed ("Unable to evaluate '" ++ query.expression ++ "'. See cause.") (some cause)

namespace CompiledQuery

variable {η σ ε : Type} {e : Engine η ε} {query : Query σ} {q q' : CompiledQuery η σ}
  {ts : List Token} {s s' : ε} {log asked : List (Event η)} {known : List (Request × η)}
  {f : Forest} {n n' : Navigator} {context : Value} {found : Results}

/-- All that is returned is found, up to an attribute that is known by another name. -/
theorem failure_resultsOf {items : List RawItem} (hs : n.Sound f)
    (hi : ∀ i ∈ items, n.Returnable i) : (resultsOf n f items).failure = none ∨
      ∃ key, f.Misread key ∧
        (resultsOf n f items).failure = some (.missing (.value (.text key))) := by
  induction items with
  | nil => exact .inl rfl
  | cons i items ih =>
    obtain ⟨hfirst, hrest⟩ := List.forall_mem_cons.1 hi
    rcases hs.toTree hfirst with ⟨v, hv⟩ | ⟨key, hkey, hv⟩
    · rw [resultsOf, hv]
      exact ih hrest
    · rw [resultsOf, hv]
      exact .inr ⟨key, hkey, rfl⟩

/-! ## Stages -/

/-- The failure that an evaluation comes to before it has results, and what the engine is asked until
then. -/
inductive Fails (e : Engine η ε) (f : Forest) (query : Query σ) (ts : List Token)
    (known : List (Request × η)) (context : Value) (s : ε) : Failure → List (Event η) → Prop where
  /-- The context can not be bound. -/
  | unbound {fault : Failure} {n : Navigator} :
      (Navigator.bind f context).run {} = (.error fault, n) →
      Fails e f query ts known context s fault []
  /-- The engine makes no handle for the expression in the scope of the context. -/
  | refused {fault : Failure} {n : Navigator} {s' : ε} {asked : List (Event η)} :
      consulting? f ts context = some n →
      Obtains e known (query.requestIn ts (Navigator.contextScope f context) (isDocument f context))
        s (.error fault) s' asked →
      Fails e f query ts known context s fault asked
  /-- A reference has no value for the engine. -/
  | unset {h : η} {fault : Failure} {n : Navigator} {s' : ε} {asked : List (Event η)} :
      consulting? f ts context = some n →
      Obtains e known (query.requestIn ts (Navigator.contextScope f context) (isDocument f context))
        s (.ok h) s' asked →
      Unset f query (variableReferences ts) n fault →
      Fails e f query ts known context s fault asked
  /-- The engine fails when it is called with all values. -/
  | failed {h : η} {fault : Failure} {values : List (String × EngineValue)} {n n' : Navigator}
      {s' : ε} {asked : List (Event η)} : consulting? f ts context = some n →
      Obtains e known (query.requestIn ts (Navigator.contextScope f context) (isDocument f context))
        s (.ok h) s' asked →
      (bindVariables f query n.scope [] (Plan.variablesOf (variableReferences ts))).run n =
        (.ok values, n') →
      (e.call h n'.context values n' s').1 = .error fault →
      Fails e f query ts known context s fault (asked ++ [.called h])

theorem Fails.isAny (he : e.Honest) (hf : f.WellFormed) {fault : Failure}
    (h : Fails e f query ts known context s fault asked) :
    fault.isAny evaluationFailures = true := by
  cases h with
  | unbound hb => exact Failure.isAny_mono (by decide) (Navigator.refuses_bind hf context _ _ _ hb)
  | refused _ ho =>
    cases ho with
    | refused _ hc =>
      exact Failure.isAny_mono (by decide) (he.compiles _ s fault (congrArg Prod.fst hc))
  | unset _ _ hu => exact hu.isAny hf
  | failed _ _ _ hc => exact Failure.isAny_mono (by decide) (he.calls _ _ _ _ _ fault hc)

theorem Fails.reported (he : e.Honest) (hf : f.WellFormed) {fault : Failure}
    (h : Fails e f query ts known context s fault asked) :
    fault.whileEvaluating query.expression evaluationFailures = query.evaluationFault fault :=
  Failure.whileEvaluating_of_isAny (h.isAny he hf)

theorem Consults.fails {fault : Failure} (hn : consulting? f ts context = some n)
    (h : Consults e f query ts known
      (query.requestIn ts (Navigator.contextScope f context) (isDocument f context)) n s
      (.error fault) n' s' asked) : Fails e f query ts known context s fault asked := by
  cases h with
  | refused ho => exact .refused hn ho
  | unset ho hv => exact .unset hn ho (unset_of_bindVariables hv)
  | called ho hv hc => exact .failed hn ho hv (congrArg Prod.fst hc)

/-- The results of an evaluation end in a failure only if one of its stages has failed, or on account
of an attribute that is known by another name. -/
theorem Ends.failure (he : e.Honest) (hf : f.WellFormed)
    (h : Ends e f query ts known context s found s' asked) : found.failure = none ∨
      (∃ cause, Fails e f query ts known context s cause asked ∧
        found = ⟨[], some (query.evaluationFault cause)⟩) ∨
      ∃ key, f.Misread key ∧ found.failure = some (.missing (.value (.text key))) := by
  cases h with
  | @unbound fault n hb =>
    have hkind := Navigator.refuses_bind hf context _ _ _ hb
    rw [Failure.whileEvaluating_of_isAny hkind]
    exact .inr (.inl ⟨fault, .unbound hb, rfl⟩)
  | root => exact .inl rfl
  | @failed fault n m s' asked hn hc =>
    have hfails := hc.fails hn
    rw [hfails.reported he hf]
    exact .inr (.inl ⟨fault, hfails, rfl⟩)
  | @answered answer n m s' asked hn hc =>
    cases hc with
    | @called h values _ n' _ s₁ _ asked ho hv hcall =>
      obtain ⟨hsound, -⟩ := Navigator.sound_of_bind hf (bind_of_consulting? hn)
      obtain ⟨hsound', -⟩ := bindVariables_eq_ok hf hsound hv
      have hm := he.keeps h n'.context values n' s₁
      rw [hcall] at hm
      obtain rfl : m = n' := hm
      have hitems := he.returns h m.context values m s₁ answer (congrArg Prod.fst hcall)
      exact (failure_resultsOf hsound' hitems).imp_right .inr

theorem Obtains.not_called {r : Request} {answer : Except Failure η}
    (h : Obtains e known r s answer s' asked) (x : η) : Event.called x ∉ asked := by
  cases h with
  | known => exact List.not_mem_nil
  | made | refused => simp

/-- An engine is called only if all references have values. -/
theorem Consults.called_bound (hf : f.WellFormed) (hs : n.Sound f) {r : Request} {m : Navigator}
    {answer : Except Failure Answer} (h : Consults e f query ts known r n s answer m s' asked) {x : η}
    (hx : .called x ∈ asked) : ∀ r ∈ variableReferences ts, ∃ value,
      query.value? ⟨query.resolvePrefix n.scope r.pfx, r.name⟩ = some value := by
  cases h with
  | refused ho => exact absurd hx (ho.not_called x)
  | unset ho _ => exact absurd hx (ho.not_called x)
  | called ho hv _ => exact exists_value_of_bindVariables hf hs hv

/-- If the context can not be bound, that is the failure, and the engine is asked nothing. -/
theorem Ends.of_unbound (hf : f.WellFormed) (h : Ends e f query ts known context s found s' asked)
    {fault : Failure} (hb : (Navigator.bind f context).run {} = (.error fault, n)) :
    found = ⟨[], some (query.evaluationFault fault)⟩ ∧ asked = [] := by
  cases h with
  | unbound hb' =>
    cases hb'.symm.trans hb
    rw [Failure.whileEvaluating_of_isAny (Navigator.refuses_bind hf context _ _ _ hb)]
    exact ⟨rfl, rfl⟩
  | root hb' => cases hb'.symm.trans hb
  | failed hn | answered hn => cases (bind_of_consulting? hn).symm.trans hb

/-- If a reference has no value, a stage fails before the engine is called. -/
theorem Ends.of_unresolved (he : e.Honest) (hf : f.WellFormed)
    (h : Ends e f query ts known context s found s' asked) (hn : consulting? f ts context = some n)
    {r : VariableReference} (hr : r ∈ variableReferences ts)
    (hvalue : query.value? ⟨query.resolvePrefix n.scope r.pfx, r.name⟩ = none) :
    (∃ cause, Fails e f query ts known context s cause asked ∧
      found = ⟨[], some (query.evaluationFault cause)⟩) ∧ ∀ x, .called x ∉ asked := by
  obtain ⟨hsound, -⟩ := Navigator.sound_of_bind hf (bind_of_consulting? hn)
  have hquiet {m : Navigator} {request : Request} {answer : Except Failure Answer}
      (hc : Consults e f query ts known request n s answer m s' asked) (x : η) :
      .called x ∉ asked := by
    intro hx
    obtain ⟨value, hsome⟩ := hc.called_bound hf hsound hx r hr
    cases hvalue.symm.trans hsome
  cases h with
  | unbound hb => cases (bind_of_consulting? hn).symm.trans hb
  | root _ hnone => cases hn.symm.trans hnone
  | @failed fault _ _ _ _ hn' hc =>
    cases hn.symm.trans hn'
    have hfails := hc.fails hn
    rw [hfails.reported he hf]
    exact ⟨⟨fault, hfails, rfl⟩, hquiet hc⟩
  | answered hn' hc =>
    cases hn.symm.trans hn'
    cases hc with
    | @called x _ _ _ _ _ _ asked ho hv hcall =>
      exact absurd (List.mem_append_right asked List.mem_cons_self) (hquiet (.called ho hv hcall) x)

/-! ## Evaluations -/

/-- How an evaluation with the results `found` may fail. An eager one takes all results before it
filters them. -/
inductive Raises (e : Engine η ε) (f : Forest) (query : Query σ) (ts : List Token)
    (known : List (Request × η)) (context : Value) (s : ε) (asked : List (Event η))
    (found : Results) (t : σ) (eager : Bool) : Failure → Prop where
  /-- It has no results, on account of the failure of a stage. -/
  | stage {cause : Failure} : Fails e f query ts known context s cause asked →
      found = ⟨[], some (query.evaluationFault cause)⟩ →
      Raises e f query ts known context s asked found t eager (query.evaluationFault cause)
  /-- The filter fails on a result before anything else does, and its failure is the cause. The
  message shows the result; if it can not be shown, that is the failure. -/
  | filter {fault : Failure} : (eager = true → found.failure = none) →
      Query.Breaks f query.filter t (found.items.map Value.unwrap) fault →
      Raises e f query ts known context s asked found t eager fault
  /-- A result is an attribute that is known by another name, and the filter has not failed on one
  before it. -/
  | misread {key : String} : f.Misread key →
      found.failure = some (.missing (.value (.text key))) →
      (eager = false →
        ∃ ks ds t', Query.Sifts f query.filter t (found.items.map Value.unwrap) ks ds t') →
      Raises e f query ts known context s asked found t eager (.missing (.value (.text key)))

theorem raises_of_firstFault {t : σ} {eager : Bool} {fault : Failure} (he : e.Honest)
    (hf : f.WellFormed) (h : Ends e f query ts known context s found s' asked)
    (hfault : Query.FirstFault f query.filter found t eager fault) :
    Raises e f query ts known context s asked found t eager fault := by
  cases hfault with
  | results hfailure hsifts =>
    rcases h.failure he hf with hnone | ⟨cause, hfails, rfl⟩ | ⟨key, hkey, hmissing⟩
    · cases hnone.symm.trans hfailure
    · cases hfailure
      exact .stage hfails rfl
    · cases hmissing.symm.trans hfailure
      exact .misread hkey hmissing hsifts
  | filter hwhole hbreaks => exact .filter hwhole hbreaks

/-- An evaluation of `q` against `context` that fails, if it does, as an evaluation. -/
structure FailsAsSuch (e : Engine η ε) (query : Query σ) (ts : List Token) (q : CompiledQuery η σ)
    (log : List (Event η)) (f : Forest) (context : Value) (s : ε) (t : σ) (found : Results)
    (q' : CompiledQuery η σ) (asked : List (Event η)) : Prop where
  /-- What is bound stays bound, and no handle is lost. -/
  source : q'.query = q.query
  plan : q'.plan = q.plan
  handles : q.handles <+: q'.handles
  /-- The engine is not called if the context can not be bound or a reference has no value. -/
  unbound : ∀ fault n, (Navigator.bind f context).run {} = (.error fault, n) →
    found = ⟨[], some (query.evaluationFault fault)⟩ ∧ asked = []
  unresolved : ∀ n, consulting? f ts context = some n → ∀ r ∈ variableReferences ts,
    query.value? ⟨query.resolvePrefix n.scope r.pfx, r.name⟩ = none →
    (∃ cause, Fails e f query ts (made log) context s cause asked ∧
      found = ⟨[], some (query.evaluationFault cause)⟩) ∧ ∀ x, .called x ∉ asked
  /-- Whatever fails is one of these failures. -/
  all : ∀ fault, (Query.evaluateAll f query.filter found t).answer = .error fault →
    Raises e f query ts (made log) context s asked found t true fault
  first : ∀ fault, (Query.evaluateFirst f query.filter found t).answer = .error fault →
    Raises e f query ts (made log) context s asked found t false fault
  diagnosis : ∀ firstOnly fault,
    (Query.diagnose f query.filter found firstOnly t).answer = .error fault →
    Raises e f query ts (made log) context s asked found t false fault

/-- With an honest engine an evaluation fails only as such: on account of the first of its stages to
fail, or of its filter. The other failures are that to find an attribute which the engine knows by
another name, and that to show the result on which the filter failed. -/
theorem evaluation_fails_as_such (he : e.Honest) (hb : f.Built) (h : History e query q log)
    (context : Value) (s : ε) (t : σ) : ∃ ts found q' s' asked,
      tokenize query.expression = .ok ts ∧ results e f q context s = (found, q', s') ∧
      results e.recording f q context (s, log) = (found, q', s', log ++ asked) ∧
      FailsAsSuch e query ts q log f context s t found q' asked := by
  have hf := hb.wellFormed
  obtain ⟨ts, ht, hkept⟩ := h.kept
  obtain ⟨found, q', s', asked, hr, hkept', -, hprefix, hends⟩ := hkept.ends f context s
  obtain ⟨log', ho⟩ := results_recording e f q context s log
  have hplain : results e f q context s = (found, q', s') := by
    rw [hr] at ho
    cases ho
    rfl
  refine ⟨ts, found, q', s', asked, ht, hplain, hr, ?_⟩
  exact {
    source := hkept'.source.trans hkept.source.symm
    plan := hkept'.plan.trans hkept.plan.symm
    handles := hprefix
    unbound := fun fault n hbind => hends.of_unbound hf hbind
    unresolved := fun n hn r hr hvalue => hends.of_unresolved he hf hn hr hvalue
    all := fun fault hfault =>
      raises_of_firstFault he hf hends (Query.evaluateAll_eq_error hfault)
    first := fun fault hfault =>
      raises_of_firstFault he hf hends (Query.evaluateFirst_eq_error hfault)
    diagnosis := fun firstOnly fault hfault =>
      raises_of_firstFault he hf hends (Query.diagnose_eq_error hfault) }

/-- An engine that returns the attributes of all views. -/
def attributeEngine : Engine Request Unit where
  compile r s := (.ok r, s)
  call _ _ _ n s :=
    let items := n.documents.flatMap fun d => Branch.itemsAll (d.map Branch.ofView)
    (.ok (.many (items.filter fun i => match i with
      | .attr .. => true
      | _ => false)), n, s)

theorem honest_attributeEngine : attributeEngine.Honest where
  compiles r s fault h := by cases h
  calls h context values n s fault hc := by cases hc
  keeps h context values n s := rfl
  returns h context values n s answer hc i hi := by
    cases hc
    obtain ⟨d, hd, hid⟩ := List.mem_flatMap.1 (List.mem_of_mem_filter hi)
    exact .part hd hid

/-- An element with an attribute in no namespace whose name begins with braces that hold nothing. -/
def bracedAttribute : Forest :=
  ⟨#[⟨none, .element ⟨"r", Namespace.none, [], [1], []⟩⟩,
    ⟨some 0, .attr "\x7b\x7dy" "v" Namespace.none⟩]⟩

theorem built_bracedAttribute : bracedAttribute.Built := by
  have h := Forest.Built.element .empty
    (rfl : Forest.newElement _ (some "r") Namespace.none = .ok (_, 0))
  have h := h.setAttribute (rfl : Forest.setAttribute _ 0 (some "\x7b\x7dy") (.text "v")
    Namespace.none = .ok (_, 1))
  cbv at h
  exact h

/-- A variable without a value is reported before the engine is called. -/
theorem evaluation_fails_as_such_unresolved :
    let query : Query Unit := ⟨"$x", .passthrough, [Namespace.none], []⟩
    ∃ q log, History attributeEngine query q log ∧ ∃ found q' s' asked cause,
      results attributeEngine bracedAttribute q (.node 0) () = (found, q', s') ∧
      found = ⟨[], some (query.evaluationFault cause)⟩ ∧ (∀ x, Event.called x ∉ asked) ∧
      results attributeEngine.recording bracedAttribute q (.node 0) ((), log) =
        (found, q', s', log ++ asked) := by
  intro query
  have ht : tokenize query.expression = .ok [⟨.dollar, ['$'], 0⟩, ⟨.name, ['x'], 1⟩] :=
    tokenize_of_readFrom (by decide +kernel)
  obtain ⟨q, log, h, -, -⟩ := exists_history (e := attributeEngine) (fun _ _ => rfl) ht
  obtain ⟨ts, found, q', s', asked, ht', hr, hrec, hfails⟩ := evaluation_fails_as_such
    honest_attributeEngine built_bracedAttribute h (.node 0) () ()
  obtain rfl := Except.ok.inj (ht.symm.trans ht')
  obtain ⟨n, hn⟩ : ∃ n, consulting? bracedAttribute
      [⟨.dollar, ['$'], 0⟩, ⟨.name, ['x'], 1⟩] (.node 0) = some n := ⟨_, rfl⟩
  have hrefs : variableReferences [⟨.dollar, ['$'], 0⟩, ⟨.name, ['x'], 1⟩] =
      [⟨none, "x", 0, 2⟩] := by
    simp [variableReferences, qualified?, Token.isName, Token.stop, Token.string]
  obtain ⟨⟨cause, -, hfound⟩, hquiet⟩ :=
    hfails.unresolved n hn ⟨none, "x", 0, 2⟩ (hrefs ▸ List.mem_cons_self) rfl
  exact ⟨q, log, h, found, q', s', asked, cause, hr, hfound, hquiet, hrec⟩

/-- An attribute whose name begins with braces that hold nothing is returned but not found, which is
no failure to evaluate. -/
theorem misread_escapes :
    let query : Query Unit := ⟨"@*", .passthrough, [Namespace.none], []⟩
    attributeEngine.Honest ∧ bracedAttribute.Built ∧ ∃ q log, History attributeEngine query q log ∧
      (Query.evaluateAll bracedAttribute query.filter
        (results attributeEngine bracedAttribute q (.node 0) ()).1 ()).answer =
          .error (.missing (.value (.text "y"))) ∧
      ∀ message cause, Failure.missing (.value (.text "y")) ≠ .evaluationFailed message cause := by
  intro query
  have ht : tokenize query.expression = .ok [⟨.atSign, ['@'], 0⟩, ⟨.star, ['*'], 1⟩] :=
    tokenize_of_readFrom (by decide +kernel)
  obtain ⟨q, log, h, -, -⟩ := exists_history (e := attributeEngine) (fun _ _ => rfl) ht
  refine ⟨honest_attributeEngine, built_bracedAttribute, q, log, h, ?_, nofun⟩
  let n : Navigator := {
    context := some 0
    scope := [("xml", xmlUri)]
    views := [(0, 0)]
    nodes := [(0, 0)]
    documents := [[.element 0 ⟨⟨"", "r"⟩, "", [], [⟨⟨"", "y"⟩, "", "v"⟩]⟩ none [] none]]
    next := 1 }
  have hn : consulting? bracedAttribute [⟨.atSign, ['@'], 0⟩, ⟨.star, ['*'], 1⟩] (.node 0) =
      some n := rfl
  have hbind : (bindVariables bracedAttribute query n.scope [] (Plan.variablesOf
      (variableReferences [⟨.atSign, ['@'], 0⟩, ⟨.star, ['*'], 1⟩]))).run n = (.ok [], n) := by
    simp only [variableReferences]
    rfl
  obtain ⟨ts, ht', hkept⟩ := h.kept
  obtain rfl := Except.ok.inj (ht.symm.trans ht')
  obtain ⟨found, q', s', asked, hr, -, -, -, hends⟩ := hkept.ends bracedAttribute (.node 0) ()
  obtain ⟨log', ho⟩ := results_recording attributeEngine bracedAttribute q (.node 0) () log
  rw [← congrArg Prod.fst (hr.symm.trans ho)]
  cases hends with
  | unbound hb => cases hb.symm.trans (bind_of_consulting? hn)
  | root _ hnone => cases hnone.symm.trans hn
  | failed hn' hc =>
    cases hn'.symm.trans hn
    cases hc with
    | refused hobtains =>
      cases hobtains with
      | refused _ hcompile => cases hcompile
    | unset _ hv => cases hv.symm.trans hbind
    | called _ _ hcall => cases hcall
  | answered hn' hc =>
    cases hn'.symm.trans hn
    cases hc with
    | called _ hv hcall =>
      cases hv.symm.trans hbind
      cases hcall
      rfl

end CompiledQuery

end TreeQuery
