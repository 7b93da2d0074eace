import Mathlib.Data.List.Forall2
import TreeQuery.Query.Evaluation

/-!
# Lazy and eager evaluation

A filter is given results as they are to a caller (`Unwraps`), and if it never fails it sifts them
one after the other (`Sifts`). All results can be filtered exactly if they can be diagnosed, and a
diagnosis is what the filter sifts (`diagnose_eq_ok_iff`). A search for the first kept value looks
at no more than the results before it (`Search`), so it may succeed where an evaluation of all
results fails. Where that succeeds, the search finds its first value (`evaluations_agree`).
-/

namespace TreeQuery.Query

variable {σ : Type} {f : Forest} {filter : Filter σ} {results : Results} {s s' : σ}
  {v w : Value} {vs ws ks ds items : List Value} {pulled : Nat}

/-- What a result is to a caller: the node that an engine makes of a namespace is the namespace, and
anything else is itself. -/
inductive Unwraps : Value → Value → Prop where
  | namespace (n : Namespace) (owner : Option NodeId) : Unwraps (.nsNode n owner) (.ns n)
  | other {v : Value} : (∀ n owner, v ≠ .nsNode n owner) → Unwraps v v

/-- From state `s`, a filter is given `vs` one after the other, answers `ks` and nothing to `ds`,
and is left in `s'`. -/
inductive Sifts (f : Forest) (filter : Filter σ) :
    (s : σ) → (vs ks ds : List Value) → (s' : σ) → Prop where
  | nil {s : σ} : Sifts f filter s [] [] [] s
  | kept {s s' s'' : σ} {v w : Value} {vs ks ds : List Value} :
    filter.apply f v s = (.ok w, s') → w.isNone = false → Sifts f filter s' vs ks ds s'' →
      Sifts f filter s (v :: vs) (w :: ks) ds s''
  | dropped {s s' s'' : σ} {v w : Value} {vs ks ds : List Value} :
    filter.apply f v s = (.ok w, s') → w.isNone = true → Sifts f filter s' vs ks ds s'' →
      Sifts f filter s (v :: vs) ks (v :: ds) s''

/-- The failure of an evaluation whose filter failed on a value. -/
def filterFault (f : Forest) (filter : Filter σ) (v : Value) (fault : Failure) : Failure :=
  f.failureOn v fun shown =>
    .evaluationFailed ("Result filter " ++ filter.shown?.getD "" ++ " failed on " ++ shown)
      (some fault)

/-- From state `s`, a filter fails on one of `vs` when it has been given those before it. -/
inductive Breaks (f : Forest) (filter : Filter σ) (s : σ) (vs : List Value) : Failure → Prop where
  | failed {s' s'' : σ} (before : List Value) {after ks ds : List Value} {v : Value} {fault : Failure} :
    vs = before ++ v :: after → Sifts f filter s before ks ds s' →
      filter.apply f v s' = (.error fault, s'') → Breaks f filter s vs (filterFault f filter v fault)

/-- How a search for the first kept value ends, and its diagnosis with it: at the first value that
the filter answers, at a value that it fails on before that, or with the results. -/
inductive Search (f : Forest) (filter : Filter σ) (results : Results) (s : σ) :
    Outcome σ (Option Value) → Outcome σ Diagnosis → Prop where
  | found {s' s'' : σ} {before after : List Value} {v w : Value} :
    List.Forall₂ Unwraps results.items (before ++ v :: after) →
      Sifts f filter s before [] before s' →
      filter.apply f v s' = (.ok w, s'') → w.isNone = false →
      Search f filter results s ⟨.ok (some w), before.length + 1, s''⟩
        ⟨.ok ⟨before ++ [v], [w], before⟩, before.length + 1, s''⟩
  | failed {s' s'' : σ} {before after : List Value} {v : Value} {fault : Failure} :
    List.Forall₂ Unwraps results.items (before ++ v :: after) →
      Sifts f filter s before [] before s' →
      filter.apply f v s' = (.error fault, s'') →
      Search f filter results s ⟨.error (filterFault f filter v fault), before.length + 1, s''⟩
        ⟨.error (filterFault f filter v fault), before.length + 1, s''⟩
  | exhausted {s' : σ} {all : List Value} :
    List.Forall₂ Unwraps results.items all → Sifts f filter s all [] all s' →
      Search f filter results s (ending results all.length none s')
        (ending results all.length ⟨all, [], all⟩ s')

/-! ## Single results -/

theorem unwraps_iff : Unwraps v w ↔ v.unwrap = w := by
  constructor
  · rintro (_ | hv)
    · rfl
    · cases v with
      | nsNode n owner => exact absurd rfl (hv n owner)
      | _ => rfl
  · rintro rfl
    cases v with
    | nsNode n owner => exact .namespace n owner
    | _ => exact .other nofun

theorem forall₂_unwraps_iff : List.Forall₂ Unwraps items vs ↔ items.map Value.unwrap = vs := by
  rw [← List.forall₂_eq_eq_eq, List.forall₂_map_left_iff, funext₂ fun v w =>
    propext (unwraps_iff (v := v) (w := w))]

theorem filterOne_of_ok (h : filter.apply f v s = (.ok w, s')) :
    filterOne f filter v s = (.ok w, s') := by
  simp only [filterOne, h]
  rfl

theorem filterOne_of_error {fault : Failure} (h : filter.apply f v s = (.error fault, s')) :
    filterOne f filter v s = (.error (filterFault f filter v fault), s') := by
  simp only [filterOne, h]
  rfl

theorem Breaks.cons {fault : Failure} (h : Breaks f filter s' vs fault)
    (ha : filter.apply f v s = (.ok w, s')) : Breaks f filter s (v :: vs) fault := by
  cases h with
  | failed before hvs hs hfail =>
    subst hvs
    cases hw : w.isNone with
    | true => exact .failed (v :: before) rfl (.dropped ha hw hs) hfail
    | false => exact .failed (v :: before) rfl (.kept ha hw hs) hfail

/-! ## Evaluations of all results -/

theorem keepAll_of_sifts (h : Sifts f filter s vs ks ds s') :
    keepAll f filter vs s = (.ok ks, s') := by
  induction h with
  | nil => rfl
  | kept ha hw _ ih =>
    simp only [keepAll, filterOne_of_ok ha, ih, hw, Bool.false_eq_true, if_false, Except.map]
  | dropped ha hw _ ih => simp only [keepAll, filterOne_of_ok ha, ih, hw, if_true]

/-- A filter either sifts all values or fails on one. -/
theorem keepAll_cases (f : Forest) (filter : Filter σ) (vs : List Value) (s : σ) :
    (∃ ks ds s', Sifts f filter s vs ks ds s') ∨
      ∃ fault, Breaks f filter s vs fault ∧ (keepAll f filter vs s).1 = .error fault := by
  induction vs generalizing s with
  | nil => exact .inl ⟨[], [], s, .nil⟩
  | cons v vs ih =>
    cases ha : filter.apply f v s with
    | mk answer s₁ =>
      cases answer with
      | error fault =>
        exact .inr ⟨filterFault f filter v fault, .failed [] rfl .nil ha,
          by rw [keepAll, filterOne_of_error ha]⟩
      | ok w =>
        rcases ih s₁ with ⟨ks, ds, s₂, h⟩ | ⟨fault, hb, h⟩
        · cases hw : w.isNone with
          | true => exact .inl ⟨ks, v :: ds, s₂, .dropped ha hw h⟩
          | false => exact .inl ⟨w :: ks, ds, s₂, .kept ha hw h⟩
        · refine .inr ⟨fault, hb.cons ha, ?_⟩
          simp only [keepAll, filterOne_of_ok ha, h]
          cases w.isNone <;> rfl

/-- The results that a filter sifts are diagnosed as sifted, up to the end of the results. -/
theorem diagnoseFrom_of_sifts (h : Sifts f filter s (items.map Value.unwrap) ks ds s')
    (results : Results) (pulled : Nat) :
    diagnoseFrom f filter results false pulled items s =
      ending results (pulled + items.length) ⟨items.map Value.unwrap, ks, ds⟩ s' := by
  induction items generalizing s ks ds pulled with
  | nil =>
    cases h
    rfl
  | cons item items ih =>
    have hend (d d' : Diagnosis) (change : Diagnosis → Diagnosis) (hd : change d = d') (n : Nat) :
        (ending results n d s').map change = ending results n d' s' := by
      unfold ending
      cases results.failure with
      | none => exact congrArg (fun d => Outcome.mk (.ok d) n s') hd
      | some fault => rfl
    rw [List.map_cons] at h
    cases h with
    | kept ha hw hrest =>
      simp only [diagnoseFrom, filterOne_of_ok ha, hw, Bool.false_eq_true, if_false,
        ih hrest (pulled + 1)]
      rw [hend _ ⟨(item :: items).map Value.unwrap, _, _⟩ _ rfl, List.length_cons]
      congr 1
      omega
    | dropped ha hw hrest =>
      simp only [diagnoseFrom, filterOne_of_ok ha, hw, if_true, ih hrest (pulled + 1)]
      rw [hend _ ⟨(item :: items).map Value.unwrap, _, _⟩ _ rfl, List.length_cons]
      congr 1
      omega

theorem diagnoseFrom_of_error {fault : Failure}
    (h : (keepAll f filter (items.map Value.unwrap) s).1 = .error fault) (results : Results)
    (pulled : Nat) :
    (diagnoseFrom f filter results false pulled items s).answer = .error fault := by
  induction items generalizing s pulled with
  | nil => cases h
  | cons item items ih =>
    cases ha : filter.apply f item.unwrap s with
    | mk answer s₁ =>
      cases answer with
      | error fault' =>
        simp only [List.map_cons, keepAll, filterOne_of_error ha] at h
        cases h
        simp only [diagnoseFrom, filterOne_of_error ha]
      | ok w =>
        simp only [List.map_cons, keepAll, filterOne_of_ok ha] at h
        simp only [diagnoseFrom, filterOne_of_ok ha, Bool.false_eq_true, if_false]
        cases hw : w.isNone with
        | true =>
          rw [hw] at h
          simp only [if_true, Outcome.map, ih h (pulled + 1), Except.map]
        | false =>
          rw [hw] at h
          cases hr : (keepAll f filter (items.map Value.unwrap) s₁).1 with
          | ok ws =>
            rw [hr] at h
            cases h
          | error fault' =>
            rw [hr] at h
            cases h
            simp only [Bool.false_eq_true, if_false, Outcome.map, ih hr (pulled + 1), Except.map]

theorem evaluateAll_of_sifts (hf : results.failure = none)
    (h : Sifts f filter s (results.items.map Value.unwrap) ks ds s') :
    evaluateAll f filter results s = ⟨.ok ks, results.items.length, s'⟩ := by
  simp only [evaluateAll, hf, keepAll_of_sifts h, Results.pulls, Option.isSome_none,
    Bool.false_eq_true, if_false, Nat.add_zero]

theorem diagnose_of_sifts (hf : results.failure = none)
    (h : Sifts f filter s (results.items.map Value.unwrap) ks ds s') :
    diagnose f filter results false s =
      ⟨.ok ⟨results.items.map Value.unwrap, ks, ds⟩, results.items.length, s'⟩ := by
  simp only [diagnose, diagnoseFrom_of_sifts h, ending, hf, Nat.zero_add]

/-- Results are diagnosed if they do not fail and neither does the filter. -/
theorem diagnose_eq_ok_iff {d : Diagnosis} :
    (diagnose f filter results false s).answer = .ok d ↔
      results.failure = none ∧ d.raw = results.items.map Value.unwrap ∧
        ∃ s', Sifts f filter s (results.items.map Value.unwrap) d.result d.dropped s' := by
  constructor
  · intro h
    rcases keepAll_cases f filter (results.items.map Value.unwrap) s with
      ⟨ks, ds, s', hs⟩ | ⟨fault, -, he⟩
    · cases hf : results.failure with
      | some fault =>
        simp only [diagnose, diagnoseFrom_of_sifts hs, ending, hf] at h
        cases h
      | none =>
        rw [diagnose_of_sifts hf hs] at h
        cases h
        exact ⟨rfl, rfl, s', hs⟩
    · rw [diagnose, diagnoseFrom_of_error he] at h
      cases h
  · rintro ⟨hf, hraw, s', hs⟩
    rw [diagnose_of_sifts hf hs, ← hraw]

/-- All results can be filtered exactly if they can be diagnosed. -/
theorem evaluateAll_eq_ok_iff :
    (evaluateAll f filter results s).answer = .ok ws ↔
      ∃ d, (diagnose f filter results false s).answer = .ok d ∧ d.result = ws := by
  constructor
  · intro h
    cases hf : results.failure with
    | some fault =>
      simp only [evaluateAll, hf] at h
      cases h
    | none =>
      rcases keepAll_cases f filter (results.items.map Value.unwrap) s with
        ⟨ks, ds, s', hs⟩ | ⟨fault, -, he⟩
      · rw [evaluateAll_of_sifts hf hs] at h
        cases h
        exact ⟨_, congrArg Outcome.answer (diagnose_of_sifts hf hs), rfl⟩
      · simp only [evaluateAll, hf, he] at h
        cases h
  · rintro ⟨d, h, rfl⟩
    obtain ⟨hf, -, s', hs⟩ := diagnose_eq_ok_iff.1 h
    rw [evaluateAll_of_sifts hf hs]

/-! ## Searches -/

/-- A search passes over results that the filter drops, and so does its diagnosis. -/
theorem search_of_sifts (h : Sifts f filter s (items.map Value.unwrap) [] ds s')
    (results : Results) (pulled : Nat) (rest : List Value) :
    firstFrom f filter results pulled (items ++ rest) s =
        firstFrom f filter results (pulled + items.length) rest s' ∧
      diagnoseFrom f filter results true pulled (items ++ rest) s =
        (diagnoseFrom f filter results true (pulled + items.length) rest s').map fun d =>
          ⟨items.map Value.unwrap ++ d.raw, d.result, items.map Value.unwrap ++ d.dropped⟩ := by
  induction items generalizing s ds pulled with
  | nil =>
    cases h
    refine ⟨rfl, ?_⟩
    show _ = Outcome.mk (Except.map id _) _ _
    rw [Except.map_id]
    rfl
  | cons item items ih =>
    rw [List.map_cons] at h
    cases h with
    | dropped ha hw hrest =>
      obtain ⟨hfirst, hdiagnose⟩ := ih hrest (pulled + 1)
      have hlen : pulled + 1 + items.length = pulled + (item :: items).length := by
        rw [List.length_cons]
        omega
      rw [hlen] at hfirst hdiagnose
      constructor
      · simp only [List.cons_append, firstFrom, filterOne_of_ok ha, hw, if_true, hfirst]
      · simp only [List.cons_append, diagnoseFrom, filterOne_of_ok ha, hw, if_true, hdiagnose]
        simp only [Outcome.map]
        cases (diagnoseFrom f filter results true (pulled + (item :: items).length) rest _).answer
          <;> rfl

/-- A filter drops all of some values, or comes to one that it keeps or fails on. -/
theorem drops_or_stops (f : Forest) (filter : Filter σ) (vs : List Value) (s : σ) :
    (∃ s', Sifts f filter s vs [] vs s') ∨
      ∃ before v after s', vs = before ++ v :: after ∧ Sifts f filter s before [] before s' ∧
        ((∃ w s'', filter.apply f v s' = (.ok w, s'') ∧ w.isNone = false) ∨
          ∃ fault s'', filter.apply f v s' = (.error fault, s'')) := by
  induction vs generalizing s with
  | nil => exact .inl ⟨s, .nil⟩
  | cons v vs ih =>
    cases ha : filter.apply f v s with
    | mk answer s₁ =>
      cases answer with
      | error fault => exact .inr ⟨[], v, vs, s, rfl, .nil, .inr ⟨fault, s₁, ha⟩⟩
      | ok w =>
        cases hw : w.isNone with
        | false => exact .inr ⟨[], v, vs, s, rfl, .nil, .inl ⟨w, s₁, ha, hw⟩⟩
        | true =>
          rcases ih s₁ with ⟨s', h⟩ | ⟨before, u, after, s', rfl, h, hstop⟩
          · exact .inl ⟨s', .dropped ha hw h⟩
          · exact .inr ⟨v :: before, u, after, s', rfl, .dropped ha hw h, hstop⟩

theorem Search.eq {first : Outcome σ (Option Value)} {report : Outcome σ Diagnosis}
    (h : Search f filter results s first report) :
    first = evaluateFirst f filter results s ∧ report = diagnose f filter results true s := by
  have hpass {before after : List Value} {s' : σ}
      (hv : results.items.map Value.unwrap = before ++ after)
      (hs : Sifts f filter s before [] before s') :
      ∃ rest, rest.map Value.unwrap = after ∧
        evaluateFirst f filter results s = firstFrom f filter results before.length rest s' ∧
        diagnose f filter results true s =
          (diagnoseFrom f filter results true before.length rest s').map fun d =>
            ⟨before ++ d.raw, d.result, before ++ d.dropped⟩ := by
    obtain ⟨items, rest, hi, rfl, rfl⟩ := List.map_eq_append_iff.1 hv
    obtain ⟨hfirst, hreport⟩ := search_of_sifts hs results 0 rest
    rw [Nat.zero_add] at hfirst hreport
    rw [evaluateFirst, diagnose, hi, List.length_map]
    exact ⟨rest, rfl, hfirst, hreport⟩
  cases h with
  | found hv hs ha hw =>
    obtain ⟨rest, hr, hfirst, hreport⟩ := hpass (forall₂_unwraps_iff.1 hv) hs
    obtain ⟨item, rest, rfl, rfl, rfl⟩ := List.map_eq_cons_iff.1 hr
    rw [hfirst, hreport]
    simp only [firstFrom, diagnoseFrom, filterOne_of_ok ha, hw, Bool.false_eq_true, if_false,
      if_true, Outcome.map, Except.map, List.append_nil, and_self]
  | failed hv hs ha =>
    obtain ⟨rest, hr, hfirst, hreport⟩ := hpass (forall₂_unwraps_iff.1 hv) hs
    obtain ⟨item, rest, rfl, rfl, rfl⟩ := List.map_eq_cons_iff.1 hr
    rw [hfirst, hreport]
    simp only [firstFrom, diagnoseFrom, filterOne_of_error ha, Outcome.map, Except.map, and_self]
  | exhausted hv hs =>
    obtain ⟨rest, hr, hfirst, hreport⟩ :=
      hpass ((forall₂_unwraps_iff.1 hv).trans (List.append_nil _).symm) hs
    obtain rfl : rest = [] := List.map_eq_nil_iff.1 hr
    rw [hfirst, hreport]
    refine ⟨rfl, ?_⟩
    simp only [diagnoseFrom, ending]
    cases results.failure with
    | none => simp only [Outcome.map, Except.map, List.append_nil]
    | some fault => rfl

/-- Every search ends in one of the three ways. -/
theorem search_iff {first : Outcome σ (Option Value)} {report : Outcome σ Diagnosis} :
    Search f filter results s first report ↔
      first = evaluateFirst f filter results s ∧ report = diagnose f filter results true s := by
  refine ⟨Search.eq, ?_⟩
  rintro ⟨rfl, rfl⟩
  obtain ⟨first, report, h⟩ : ∃ first report, Search f filter results s first report := by
    rcases drops_or_stops f filter (results.items.map Value.unwrap) s with
      ⟨s', h⟩ | ⟨before, v, after, s', hv, h, ⟨w, s'', ha, hw⟩ | ⟨fault, s'', ha⟩⟩
    · exact ⟨_, _, .exhausted (forall₂_unwraps_iff.2 rfl) h⟩
    · exact ⟨_, _, .found (forall₂_unwraps_iff.2 hv) h ha hw⟩
    · exact ⟨_, _, .failed (forall₂_unwraps_iff.2 hv) h ha⟩
  obtain ⟨rfl, rfl⟩ := h.eq
  exact h

/-! ## Agreement -/

theorem Sifts.first (h : Sifts f filter s vs ks ds s') :
    (ks = [] ∧ Sifts f filter s vs [] vs s') ∨
      ∃ before v after w s₁ s₂, vs = before ++ v :: after ∧ Sifts f filter s before [] before s₁ ∧
        filter.apply f v s₁ = (.ok w, s₂) ∧ w.isNone = false ∧ ks.head? = some w := by
  induction h with
  | nil => exact .inl ⟨rfl, .nil⟩
  | @kept s₀ s₁ _ v w vs ks ds ha hw _ _ =>
    exact .inr ⟨[], v, vs, w, s₀, s₁, rfl, .nil, ha, hw, rfl⟩
  | @dropped _ _ _ v _ _ _ _ ha hw _ ih =>
    rcases ih with ⟨rfl, h⟩ | ⟨before, u, after, w, s₁, s₂, rfl, h, hrest⟩
    · exact .inl ⟨rfl, .dropped ha hw h⟩
    · exact .inr ⟨v :: before, u, after, w, s₁, s₂, rfl, .dropped ha hw h, hrest⟩

/-- Of values that a filter sifts, a search finds the first that is kept. -/
theorem search_of_sifted (hf : results.failure = none)
    (h : Sifts f filter s (results.items.map Value.unwrap) ks ds s') :
    (evaluateFirst f filter results s).answer = .ok ks.head? ∧
      ∃ d, (diagnose f filter results true s).answer = .ok d ∧ d.result = ks.head?.toList := by
  rcases h.first with ⟨rfl, hs⟩ | ⟨before, v, after, w, s₁, s₂, hv, hs, ha, hw, hk⟩
  · have hsearch : Search f filter results s _ _ := .exhausted (forall₂_unwraps_iff.2 rfl) hs
    obtain ⟨hfirst, hreport⟩ := hsearch.eq
    rw [← hfirst, ← hreport]
    simp only [ending, hf]
    exact ⟨rfl, _, rfl, rfl⟩
  · obtain ⟨hfirst, hreport⟩ := (Search.found (forall₂_unwraps_iff.2 hv) hs ha hw).eq
    rw [← hfirst, ← hreport, hk]
    exact ⟨rfl, _, rfl, rfl⟩

/-- All results can be filtered exactly if they can be diagnosed, and then the filter has sifted
them, unwrapped, both times, with the same values kept. A search for the first kept value and its
diagnosis end as a `Search` does, having taken from the results and given to the filter no more than
that. If all results can be filtered, the search finds the first of the values kept. -/
theorem evaluations_agree (f : Forest) (filter : Filter σ) (results : Results) (s : σ) :
    (∀ ws, (evaluateAll f filter results s).answer = .ok ws ↔
      ∃ d, (diagnose f filter results false s).answer = .ok d ∧ d.result = ws) ∧
    (∀ d, (diagnose f filter results false s).answer = .ok d →
      List.Forall₂ Unwraps results.items d.raw ∧
      Sifts f filter s d.raw d.result d.dropped (diagnose f filter results false s).state ∧
      (evaluateAll f filter results s).state = (diagnose f filter results false s).state ∧
      (evaluateAll f filter results s).pulled = d.raw.length ∧
      (diagnose f filter results false s).pulled = d.raw.length) ∧
    (∀ first report, Search f filter results s first report ↔
      first = evaluateFirst f filter results s ∧ report = diagnose f filter results true s) ∧
    (∀ ws, (evaluateAll f filter results s).answer = .ok ws →
      (evaluateFirst f filter results s).answer = .ok ws.head? ∧
      ∃ d, (diagnose f filter results true s).answer = .ok d ∧ d.result = ws.head?.toList) := by
  refine ⟨fun ws => evaluateAll_eq_ok_iff, fun d hd => ?_, fun first report => search_iff,
    fun ws hws => ?_⟩
  · obtain ⟨hf, hraw, s', hs⟩ := diagnose_eq_ok_iff.1 hd
    rw [evaluateAll_of_sifts hf hs, diagnose_of_sifts hf hs, hraw, List.length_map]
    exact ⟨forall₂_unwraps_iff.2 rfl, hs, rfl, rfl, rfl⟩
  · obtain ⟨d, hd, rfl⟩ := evaluateAll_eq_ok_iff.1 hws
    obtain ⟨hf, -, s', hs⟩ := diagnose_eq_ok_iff.1 hd
    exact search_of_sifted hf hs

end TreeQuery.Query
