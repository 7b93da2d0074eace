import TreeQuery.Proofs.Handles.History
import TreeQuery.Proofs.Lookup

/-!
# Values of references

A plan gives every variable that an expression refers to a name, in which the prefixed ones are
numbered (`Naming`). The names of different variables differ unless one that is written without a
prefix is the numbered name of another (`engineName_injective`). Then each name is bound to the
value of its own variable (`references_keep_values`); else one value takes the place of another
(`value_replaced`).
-/

namespace TreeQuery

open XPath

namespace Plan

variable {known : List EngineVariable} {refs : List VariableReference} {r r' : VariableReference}

/-! ## Numbered names -/

/-- The number can be read off a numbered name. -/
theorem freshVariable_injective {m n : Nat} (h : freshVariable m = freshVariable n) : m = n := by
  have hread (n : Nat) :
      Nat.ofDigitChars 10 ((freshVariable n).toList.drop "__xpv".length) 0 = n := by
    simp only [freshVariable, String.toList_append, String.toList_ofList]
    show Nat.ofDigitChars 10 (List.replicate _ '0' ++ _) 0 = n
    rw [Nat.ofDigitChars_append, Nat.ofDigitChars_replicate_zero, Nat.mul_zero,
      Nat.ofDigitChars_ten_toDigits]
  rw [← hread m, h, hread n]

/-- Variables as they are named one after the other: each once, those without a prefix by their own
names, the others by their numbers. -/
structure Naming (known : List EngineVariable) : Prop where
  nodup : (known.map fun v => (v.pfx, v.localName)).Nodup
  own : ∀ v ∈ known, v.pfx = none → v.engineName = v.localName
  numbered : ∀ i v, known[i]? = some v → v.pfx.isSome = true → v.engineName = freshVariable i

theorem findVariable?_eq_none {pfx : Option String} {localName : String}
    (h : findVariable? known pfx localName = none) :
    (pfx, localName) ∉ known.map fun v => (v.pfx, v.localName) := by
  intro hm
  obtain ⟨v, hv, he⟩ := List.mem_map.1 hm
  cases he
  have := List.find?_eq_none.1 h v hv
  simp at this

theorem Naming.addVariable (h : Naming known) (r : VariableReference) :
    Naming (addVariable known r) := by
  unfold Plan.addVariable
  cases hf : findVariable? known r.pfx r.name with
  | some v => exact h
  | none =>
    refine ⟨?_, fun v hv hp => ?_, fun i v hi hp => ?_⟩
    · rw [List.map_append, List.map_singleton, ← List.concat_eq_append]
      exact h.nodup.concat (findVariable?_eq_none hf)
    · rcases List.mem_append.1 hv with hv | hv
      · exact h.own v hv hp
      · cases List.mem_singleton.1 hv
        exact if_pos (Option.isNone_iff_eq_none.2 hp)
    · by_cases hlt : i < known.length
      · rw [List.getElem?_append_left hlt] at hi
        exact h.numbered i v hi hp
      · rw [List.getElem?_append_right (Nat.le_of_not_lt hlt), List.getElem?_singleton] at hi
        obtain ⟨hlast, hi⟩ := Option.ite_none_right_eq_some.1 hi
        cases hi
        have hnot : ¬ r.pfx.isNone = true := by
          rw [← Option.not_isSome, Bool.not_eq_true', Bool.not_eq_false]
          exact hp
        rw [if_neg hnot, Nat.le_antisymm (Nat.le_of_sub_eq_zero hlast) (Nat.le_of_not_lt hlt)]

theorem naming_variablesOf (refs : List VariableReference) : Naming (variablesOf refs) := by
  have h (known : List EngineVariable) (hk : Naming known) : Naming (refs.foldl addVariable known)
      := by
    induction refs generalizing known with
    | nil => exact hk
    | cons r refs ih => exact ih _ (hk.addVariable r)
  exact h [] ⟨List.nodup_nil, nofun, nofun⟩

/-! ## Names of references -/

/-- Whether a variable is that of a reference. -/
def IsVariableOf (v : EngineVariable) (r : VariableReference) : Prop :=
  v.pfx = r.pfx ∧ v.localName = r.name

theorem isVariableOf_of_findVariable? {v : EngineVariable}
    (h : findVariable? known r.pfx r.name = some v) : v ∈ known ∧ IsVariableOf v r := by
  have hv := List.find?_some h
  rw [Bool.and_eq_true, beq_iff_eq, beq_iff_eq] at hv
  exact ⟨List.mem_of_find?_eq_some h, hv⟩

theorem mem_addVariable {v : EngineVariable} (h : v ∈ known) : v ∈ addVariable known r := by
  unfold addVariable
  split
  · exact h
  · exact List.mem_append_left _ h

theorem exists_mem_addVariable (known : List EngineVariable) (r : VariableReference) :
    ∃ v ∈ addVariable known r, IsVariableOf v r := by
  unfold addVariable
  cases hf : findVariable? known r.pfx r.name with
  | some v => exact ⟨v, isVariableOf_of_findVariable? hf⟩
  | none => exact ⟨_, List.mem_append_right _ (List.mem_singleton_self _), rfl, rfl⟩

theorem mem_foldl_addVariable (refs : List VariableReference) {v : EngineVariable}
    (h : v ∈ known) : v ∈ refs.foldl addVariable known := by
  induction refs generalizing known with
  | nil => exact h
  | cons r refs ih => exact ih (mem_addVariable h)

theorem exists_variable (hr : r ∈ refs) : ∃ v ∈ variablesOf refs, IsVariableOf v r := by
  have h (known : List EngineVariable) : ∃ v ∈ refs.foldl addVariable known, IsVariableOf v r := by
    induction refs generalizing known with
    | nil => cases hr
    | cons r' refs ih =>
      rcases List.mem_cons.1 hr with rfl | hr
      · obtain ⟨v, hv, h⟩ := exists_mem_addVariable known r
        exact ⟨v, mem_foldl_addVariable refs hv, h⟩
      · exact ih hr _
  exact h []

theorem exists_reference {v : EngineVariable} (hv : v ∈ variablesOf refs) :
    ∃ r ∈ refs, IsVariableOf v r := by
  have h (known : List EngineVariable) : v ∈ refs.foldl addVariable known →
      v ∈ known ∨ ∃ r ∈ refs, IsVariableOf v r := by
    clear hv
    induction refs generalizing known with
    | nil => exact .inl
    | cons r refs ih =>
      intro hv
      rcases ih _ hv with hv | ⟨r', hr', h⟩
      · unfold addVariable at hv
        split at hv
        · exact .inl hv
        · rcases List.mem_append.1 hv with hv | hv
          · exact .inl hv
          · cases List.mem_singleton.1 hv
            exact .inr ⟨r, List.mem_cons_self, rfl, rfl⟩
      · exact .inr ⟨r', List.mem_cons_of_mem _ hr', h⟩
  exact (h [] hv).resolve_left List.not_mem_nil

theorem Naming.findVariable? (h : Naming known) {v : EngineVariable} (hv : v ∈ known)
    (hr : IsVariableOf v r) : findVariable? known r.pfx r.name = some v := by
  cases hf : Plan.findVariable? known r.pfx r.name with
  | none =>
    exact absurd (List.mem_map.2 ⟨v, hv, by rw [hr.1, hr.2]⟩) (findVariable?_eq_none hf)
  | some w =>
    obtain ⟨hw, hwr⟩ := isVariableOf_of_findVariable? hf
    rw [List.inj_on_of_nodup_map h.nodup hw hv (by rw [hwr.1, hwr.2, hr.1, hr.2])]

theorem engineName_eq {v : EngineVariable} (hv : v ∈ variablesOf refs) (hr : IsVariableOf v r) :
    engineName (variablesOf refs) r = v.engineName := by
  rw [engineName, (naming_variablesOf refs).findVariable? hv hr]
  rfl

theorem mem_variablesOf (hr : r ∈ refs) :
    ⟨r.pfx, r.name, engineName (variablesOf refs) r⟩ ∈ variablesOf refs := by
  obtain ⟨v, hv, h⟩ := exists_variable hr
  rw [engineName_eq hv h, ← h.1, ← h.2]
  exact hv

theorem engineName_of_plain (hr : r ∈ refs) (hp : r.pfx = none) :
    engineName (variablesOf refs) r = r.name :=
  (naming_variablesOf refs).own _ (mem_variablesOf hr) hp

theorem eq_of_numbered {v v' : EngineVariable} (hv : v ∈ variablesOf refs)
    (hv' : v' ∈ variablesOf refs) (hp : v.pfx.isSome = true) (hp' : v'.pfx.isSome = true)
    (h : v.engineName = v'.engineName) : v = v' := by
  obtain ⟨i, hi⟩ := List.getElem?_of_mem hv
  obtain ⟨i', hi'⟩ := List.getElem?_of_mem hv'
  have hnaming := naming_variablesOf refs
  rw [hnaming.numbered i v hi hp, hnaming.numbered i' v' hi' hp'] at h
  rw [freshVariable_injective h] at hi
  exact Option.some.inj (hi.symm.trans hi')

/-- No variable that is written without a prefix has the name that is made for one with a prefix. -/
def Distinguishable (refs : List VariableReference) : Prop :=
  ∀ r ∈ refs, ∀ r' ∈ refs, r.pfx = none → r'.pfx.isSome = true →
    r.name ≠ engineName (variablesOf refs) r'

theorem Distinguishable.injective (hd : Distinguishable refs) (hr : r ∈ refs) (hr' : r' ∈ refs)
    (h : engineName (variablesOf refs) r = engineName (variablesOf refs) r') :
    r.pfx = r'.pfx ∧ r.name = r'.name := by
  cases hp : r.pfx with
  | none =>
    rw [engineName_of_plain hr hp] at h
    cases hp' : r'.pfx with
    | none =>
      rw [engineName_of_plain hr' hp'] at h
      exact ⟨rfl, h⟩
    | some p' => exact absurd h (hd r hr r' hr' hp (by rw [hp']; rfl))
  | some p =>
    cases hp' : r'.pfx with
    | none =>
      rw [engineName_of_plain hr' hp'] at h
      exact absurd h.symm (hd r' hr' r hr hp' (by rw [hp]; rfl))
    | some p' =>
      have he := eq_of_numbered (mem_variablesOf hr) (mem_variablesOf hr')
        (show r.pfx.isSome = true by rw [hp]; rfl) (show r'.pfx.isSome = true by rw [hp']; rfl) h
      injection he with hpfx hname
      rw [hp, hp'] at hpfx
      exact ⟨hpfx, hname⟩

/-- References to different variables have different names exactly if they are distinguishable. -/
theorem distinguishable_iff : Distinguishable refs ↔ ∀ r ∈ refs, ∀ r' ∈ refs,
    engineName (variablesOf refs) r = engineName (variablesOf refs) r' →
      r.pfx = r'.pfx ∧ r.name = r'.name := by
  refine ⟨fun hd r hr r' hr' h => hd.injective hr hr' h, fun h r hr r' hr' hp hp' he => ?_⟩
  have hsame := (h r hr r' hr' ((engineName_of_plain hr hp).trans he)).1
  rw [← hsame, hp] at hp'
  cases hp'

theorem Distinguishable.nodup (hd : Distinguishable refs) :
    ((variablesOf refs).map (·.engineName)).Nodup := by
  refine ((naming_variablesOf refs).nodup.of_map _).map_on fun v hv v' hv' h => ?_
  obtain ⟨r, hr, hvr⟩ := exists_reference hv
  obtain ⟨r', hr', hvr'⟩ := exists_reference hv'
  rw [← engineName_eq hv hvr, ← engineName_eq hv' hvr'] at h
  obtain ⟨hp, hn⟩ := hd.injective hr hr' h
  exact List.inj_on_of_nodup_map (naming_variablesOf refs).nodup hv hv'
    (by rw [hvr.1, hvr.2, hvr'.1, hvr'.2, hp, hn])

end Plan

/-! ## Values -/

namespace CompiledQuery

variable {η σ ε : Type} {e : Engine η ε} {query : Query σ} {q q' : CompiledQuery η σ}
  {ts : List Token} {s s' : ε} {log : List (Event η)}

theorem setEntry_of_not_mem {α : Type} {name : String} {entries : List (String × α)} (value : α)
    (h : name ∉ entries.map Prod.fst) :
    setEntry name value entries = entries ++ [(name, value)] := by
  induction entries with
  | nil => rfl
  | cons entry entries ih =>
    rw [List.map_cons, List.mem_cons, not_or] at h
    rw [setEntry, if_neg (Ne.symm h.1), ih h.2]
    rfl

theorem bindVariables_run {f : Forest} {scope : List (String × String)}
    {value : Option String → String → Value} {vs : List EngineVariable}
    (hv : ∀ v ∈ vs, query.resolveVariable scope none v.pfx v.localName =
      .ok (value v.pfx v.localName))
    (bound : List (String × EngineValue))
    (hn : (bound.map Prod.fst ++ vs.map (·.engineName)).Nodup) (n : Navigator) :
    (bindVariables f query scope bound vs).run n =
      (((Navigator.toEngineAll f (vs.map fun v => value v.pfx v.localName)).run n).1.map fun xs =>
          bound ++ (vs.map (·.engineName)).zip xs,
        ((Navigator.toEngineAll f (vs.map fun v => value v.pfx v.localName)).run n).2) := by
  induction vs generalizing bound n with
  | nil =>
    rw [List.map_nil, List.map_nil, Navigator.toEngineAll, bindVariables]
    show (Except.ok bound, n) = (Except.ok (bound ++ []), n)
    rw [List.append_nil]
  | cons v vs ih =>
    rw [List.map_cons, List.map_cons, Navigator.toEngineAll, bindVariables,
      hv v List.mem_cons_self]
    cases hx : (Navigator.toEngine f (value v.pfx v.localName)).run n with
    | mk answer m =>
      cases answer with
      | error fault => rw [Navigator.run_bind_error hx, Navigator.run_bind_error hx]; rfl
      | ok x =>
        rw [List.map_cons] at hn
        have hnew : v.engineName ∉ bound.map Prod.fst :=
          fun hm => List.nodup_append.1 hn |>.2.2 _ hm _ List.mem_cons_self rfl
        rw [Navigator.run_bind_ok hx, Navigator.run_bind_ok hx]
        dsimp only
        rw [setEntry_of_not_mem x hnew,
          ih (fun w hw => hv w (List.mem_cons_of_mem _ hw)) (bound ++ [(v.engineName, x)])
            (by rwa [List.map_append, List.append_assoc]) m]
        cases hxs : (Navigator.toEngineAll f (vs.map fun v => value v.pfx v.localName)).run m with
        | mk answers m' =>
          cases answers with
          | error fault => rw [Navigator.run_bind_error hxs]; rfl
          | ok xs =>
            rw [Navigator.run_bind_ok hxs]
            show (Except.ok (bound ++ [(v.engineName, x)] ++ _), m') = (Except.ok (bound ++ _), m')
            rw [List.append_assoc]
            rfl

theorem length_of_toEngineAll {f : Forest} {vs : List Value} {xs : List EngineValue}
    {n n' : Navigator} (h : (Navigator.toEngineAll f vs).run n = (.ok xs, n')) :
    xs.length = vs.length := by
  induction vs generalizing xs n with
  | nil =>
    rw [Navigator.toEngineAll] at h
    cases h
    rfl
  | cons v vs ih =>
    rw [Navigator.toEngineAll] at h
    obtain ⟨x, m, -, h⟩ := Navigator.run_bind_eq_ok h
    obtain ⟨xs', m', hxs, h⟩ := Navigator.run_bind_eq_ok h
    cases h
    rw [List.length_cons, List.length_cons, ih hxs]

theorem handle_keeps (e : Engine η ε) (q : CompiledQuery η σ) (key : HandleKey) (s : ε) :
    (handle e q key s).2.1.query = q.query ∧ (handle e q key s).2.1.plan = q.plan := by
  cases hl : q.handles.lookup key with
  | some x => rw [handle_of_lookup hl]; exact ⟨rfl, rfl⟩
  | none =>
    cases hc : e.compile (q.plan.request key.resolved key.anchored) s with
    | mk answer s' =>
      cases answer with
      | ok x => rw [handle_of_ok hl hc]; exact ⟨rfl, rfl⟩
      | error fault => rw [handle_of_error hl hc]; exact ⟨rfl, rfl⟩

theorem ask_of_handle {f : Forest} {isDocument : Bool} {n n' : Navigator} {x : η}
    {values : List (String × EngineValue)}
    (hh : handle e q (handleKey q.plan (q.resolvePrefixes n.scope) isDocument) s =
      (.ok x, q', s'))
    (hb : (bindVariables f q.query n.scope [] q.plan.engineVariables).run n = (.ok values, n')) :
    ask e f q isDocument n s = ((e.call x n'.context values n' s').1,
      (e.call x n'.context values n' s').2.1, q', (e.call x n'.context values n' s').2.2) := by
  have hkeeps := handle_keeps e q (handleKey q.plan (q.resolvePrefixes n.scope) isDocument) s
  rw [hh] at hkeeps
  unfold ask
  rw [hh]
  dsimp only at hkeeps ⊢
  rw [hkeeps.1, hkeeps.2, hb]

theorem Kept.engineVariables (h : Kept e query ts q log) :
    q.plan.engineVariables = Plan.variablesOf (variableReferences ts) := by
  rw [h.plan]
  rfl

/-- All variables are bound to their values, each under a name of its own. -/
theorem Kept.bindVariables_run (h : Kept e query ts q log)
    (hd : Plan.Distinguishable (variableReferences ts)) {f : Forest} {n n' : Navigator}
    {value : Option String → String → Value} {xs : List EngineValue}
    (hv : ∀ r ∈ variableReferences ts,
      query.resolveVariable n.scope none r.pfx r.name = .ok (value r.pfx r.name))
    (hx : (Navigator.toEngineAll f (q.plan.engineVariables.map fun v =>
      value v.pfx v.localName)).run n = (.ok xs, n')) :
    (bindVariables f query n.scope [] q.plan.engineVariables).run n =
      (.ok ((q.plan.engineVariables.map (·.engineName)).zip xs), n') := by
  have hvalues : ∀ v ∈ q.plan.engineVariables,
      query.resolveVariable n.scope none v.pfx v.localName = .ok (value v.pfx v.localName) := by
    intro v hm
    obtain ⟨r, hr, hvr⟩ := Plan.exists_reference (h.engineVariables ▸ hm)
    rw [hvr.1, hvr.2]
    exact hv r hr
  rw [CompiledQuery.bindVariables_run hvalues [] (h.engineVariables ▸ hd.nodup) n, hx]
  rfl

/-- References to different variables have different names, under which an evaluation gives each
reference the value of its own variable: what stands for a prefixed variable is written in its
place, the values are converted in the order of the variables, and the engine is called with all of
them. -/
theorem references_keep_values (h : History e query q log) (ht : tokenize query.expression = .ok ts)
    (hd : Plan.Distinguishable (variableReferences ts)) (f : Forest) {n n' : Navigator}
    {value : Option String → String → Value} {xs : List EngineValue}
    (hv : ∀ r ∈ variableReferences ts,
      query.resolveVariable n.scope none r.pfx r.name = .ok (value r.pfx r.name))
    (hx : (Navigator.toEngineAll f (q.plan.engineVariables.map fun v =>
      value v.pfx v.localName)).run n = (.ok xs, n')) :
    let name := Plan.engineName q.plan.engineVariables
    (∀ r ∈ variableReferences ts, ∀ r' ∈ variableReferences ts, name r = name r' →
      r.pfx = r'.pfx ∧ r.name = r'.name) ∧
    (∀ r ∈ variableReferences ts, (r.pfx = none → name r = r.name) ∧
      (r.pfx.isSome = true → ∀ resolved anchored,
        ⟨r.start, r.stop, "$" ++ name r⟩ ∈ q.plan.replacements resolved anchored)) ∧
    ∃ values, (∀ isDocument s x q' s',
        handle e q (handleKey q.plan (q.resolvePrefixes n.scope) isDocument) s = (.ok x, q', s') →
        ask e f q isDocument n s = ((e.call x n'.context values n' s').1,
          (e.call x n'.context values n' s').2.1, q', (e.call x n'.context values n' s').2.2)) ∧
      ∀ r ∈ variableReferences ts, ∃ x,
        (⟨r.pfx, r.name, name r⟩, x) ∈ q.plan.engineVariables.zip xs ∧
          values.lookup (name r) = some x := by
  obtain ⟨ts', ht', hkept⟩ := h.kept
  obtain rfl : ts = ts' := Except.ok.inj (ht.symm.trans ht')
  have hvars := hkept.engineVariables
  have hrenames :
      q.plan.renames = Plan.renamesOf q.plan.engineVariables (variableReferences ts) := by
    rw [hkept.plan]
    rfl
  have hlen : xs.length = q.plan.engineVariables.length :=
    (length_of_toEngineAll hx).trans (List.length_map _)
  have hbind := hkept.bindVariables_run hd hv hx
  rw [← hkept.source] at hbind
  refine ⟨?_, fun r hr => ⟨fun hp => ?_, fun hp resolved anchored => ?_⟩,
    (q.plan.engineVariables.map (·.engineName)).zip xs, ?_, ?_⟩
  · rw [hvars]
    exact Plan.distinguishable_iff.1 hd
  · rw [hvars]
    exact Plan.engineName_of_plain hr hp
  · rw [Plan.replacements, hrenames]
    exact List.mem_append_left _ (List.mem_append_left _
      (List.mem_map_of_mem (List.mem_filter.2 ⟨hr, hp⟩)))
  · exact fun isDocument s x q' s' hh => ask_of_handle hh hbind
  · intro r hr
    have hm := Plan.mem_variablesOf hr
    rw [← hvars] at hm
    exact exists_lookup_zip EngineVariable.engineName (hvars ▸ hd.nodup) hlen hm

/-- The tokens of `$p:x = $n`, where `n` is a name. -/
def comparison (name : List Char) : List Token :=
  [⟨.dollar, ['$'], 0⟩, ⟨.name, ['p'], 1⟩, ⟨.colon, [':'], 2⟩, ⟨.name, ['x'], 3⟩,
    ⟨.equality, ['='], 5⟩, ⟨.dollar, ['$'], 7⟩, ⟨.name, name, 8⟩]

theorem variableReferences_comparison (name : List Char) :
    variableReferences (comparison name) =
      [⟨some "p", "x", 0, 4⟩, ⟨none, String.ofList name, 7, 8 + name.length⟩] := by
  simp [variableReferences, comparison, qualified?, isQualified, Token.isName, Token.stop,
    Token.string]

/-- A query that an engine takes as it is asked can be compiled. -/
theorem exists_history {e : Engine Request Unit} (he : ∀ r s, e.compile r s = (.ok r, s))
    {query : Query σ} (ht : tokenize query.expression = .ok ts) :
    ∃ q log, History e query q log ∧
      q.plan = Plan.make query.expression query.namespaces ts ∧ q.query = query := by
  have hc : ∃ q log, compile e.recording query ((), []) = (.ok q, (), log) := by
    unfold compile
    rw [ht]
    unfold handle
    simp only [List.lookup_nil, Engine.recording, he]
    exact ⟨_, _, rfl⟩
  obtain ⟨q, log, hc⟩ := hc
  obtain ⟨ts', ht', hkept⟩ := (History.compiled hc).kept
  obtain rfl : ts = ts' := Except.ok.inj (ht.symm.trans ht')
  exact ⟨q, log, .compiled hc, hkept.plan, hkept.source⟩

/-- A compiled query of two variables, of which only the first is in a namespace. -/
theorem exists_history_comparison {e : Engine Request Unit}
    (he : ∀ r s, e.compile r s = (.ok r, s)) {query : Query Unit} {name : List Char}
    (ht : tokenize query.expression = .ok (comparison name)) :
    ∃ q log, History e query q log ∧
      q.plan = Plan.make query.expression query.namespaces (comparison name) ∧ q.query = query :=
  exists_history he ht

/-- Two variables of one local name, the first in a namespace. -/
theorem references_keep_values_prefixed :
    let e : Engine Request Unit := ⟨fun r s => (.ok r, s), fun _ _ _ n s => (.ok (.many []), n, s)⟩
    let p : Namespace := ⟨"p", "u", by decide, by decide, by decide⟩
    let query : Query Unit := ⟨"$p:x = $x", .passthrough, [Namespace.none, p],
      [(⟨"u", "x"⟩, .int 1), (⟨"", "x"⟩, .int 2)]⟩
    let value : Option String → String → Value := fun pfx _ => .int (if pfx.isSome then 1 else 2)
    let refs := variableReferences (comparison ['x'])
    ∃ q log, History e query q log ∧ tokenize query.expression = .ok (comparison ['x']) ∧
      Plan.Distinguishable refs ∧
      (∀ r ∈ refs, query.resolveVariable [] none r.pfx r.name = .ok (value r.pfx r.name)) ∧
      (Navigator.toEngineAll Forest.empty (q.plan.engineVariables.map fun v =>
        value v.pfx v.localName)).run {} = (.ok [.value (.int 1), .value (.int 2)], {}) ∧
      ∀ r ∈ refs, ∀ r' ∈ refs,
        Plan.engineName q.plan.engineVariables r = Plan.engineName q.plan.engineVariables r' →
          r.pfx = r'.pfx ∧ r.name = r'.name := by
  intro e p query value refs
  have ht : tokenize query.expression = .ok (comparison ['x']) :=
    tokenize_of_readFrom (by decide +kernel)
  have hrefs : refs = [⟨some "p", "x", 0, 4⟩, ⟨none, "x", 7, 9⟩] :=
    variableReferences_comparison ['x']
  have hd : Plan.Distinguishable refs := by
    rw [hrefs]
    unfold Plan.Distinguishable
    decide +kernel
  have hv : ∀ r ∈ refs, query.resolveVariable [] none r.pfx r.name = .ok (value r.pfx r.name) := by
    rw [hrefs]
    exact List.forall_mem_cons.2 ⟨rfl, List.forall_mem_singleton.2 rfl⟩
  obtain ⟨q, log, h, hplan, -⟩ := exists_history_comparison (e := e) (fun _ _ => rfl) ht
  have hx : (Navigator.toEngineAll Forest.empty (q.plan.engineVariables.map fun v =>
      value v.pfx v.localName)).run {} = (.ok [.value (.int 1), .value (.int 2)], {}) := by
    rw [hplan]
    show (Navigator.toEngineAll _ ((Plan.variablesOf refs).map _)).run {} = _
    rw [hrefs]
    rfl
  exact ⟨q, log, h, ht, hd, hv, hx, (references_keep_values h ht hd Forest.empty hv hx).1⟩

/-- A variable whose name is the one made for another takes the place of its value. -/
theorem value_replaced :
    let e : Engine Request Unit := ⟨fun r s => (.ok r, s), fun _ _ _ n s => (.ok (.many []), n, s)⟩
    let p : Namespace := ⟨"p", "u", by decide, by decide, by decide⟩
    let query : Query Unit := ⟨"$p:x = $__xpv00", .passthrough, [Namespace.none, p],
      [(⟨"u", "x"⟩, .int 1), (⟨"", "__xpv00"⟩, .int 2)]⟩
    let refs := variableReferences (comparison "__xpv00".toList)
    tokenize query.expression = .ok (comparison "__xpv00".toList) ∧
      ∃ q log, History e query q log ∧ ∃ r ∈ refs,
        query.resolveVariable [] none r.pfx r.name = .ok (.int 1) ∧
        (bindVariables Forest.empty q.query [] [] q.plan.engineVariables).run {} =
          (.ok [(Plan.engineName q.plan.engineVariables r, .value (.int 2))], {}) := by
  intro e p query refs
  have ht : tokenize query.expression = .ok (comparison "__xpv00".toList) :=
    tokenize_of_readFrom (by decide +kernel)
  have hrefs : refs = [⟨some "p", "x", 0, 4⟩, ⟨none, "__xpv00", 7, 15⟩] := by
    show variableReferences _ = _
    rw [variableReferences_comparison]
    rfl
  obtain ⟨q, log, h, hplan, hquery⟩ := exists_history_comparison (e := e) (fun _ _ => rfl) ht
  have hvars : q.plan.engineVariables = Plan.variablesOf refs := by
    rw [hplan]
    rfl
  refine ⟨ht, q, log, h, ⟨some "p", "x", 0, 4⟩, hrefs ▸ List.mem_cons_self, rfl, ?_⟩
  rw [hvars, hrefs, hquery]
  rfl

end CompiledQuery

end TreeQuery
