import TreeQuery.Proofs.Evaluation.Lazy

/-!
# Faults of evaluations

An evaluation of results fails with the failure that comes first: the one that ends the results, or
one of the filter. All results are taken before the first is filtered; a search and a diagnosis
filter each result as it is taken (`FirstFault`).
-/

namespace TreeQuery.Query

variable {σ : Type} {f : Forest} {filter : Filter σ} {results : Results} {s : σ} {fault : Failure}

/-- The failure that an evaluation of results comes to first. An eager one takes all results before
it filters them. -/
inductive FirstFault (f : Forest) (filter : Filter σ) (results : Results) (s : σ) (eager : Bool) :
    Failure → Prop where
  /-- The results end in a failure, and the filter has not failed on one of them before. -/
  | results {fault : Failure} : results.failure = some fault →
      (eager = false → ∃ ks ds s', Sifts f filter s (results.items.map Value.unwrap) ks ds s') →
      FirstFault f filter results s eager fault
  /-- The filter fails on a result. -/
  | filter {fault : Failure} : (eager = true → results.failure = none) →
      Breaks f filter s (results.items.map Value.unwrap) fault →
      FirstFault f filter results s eager fault

theorem evaluateAll_eq_error (h : (evaluateAll f filter results s).answer = .error fault) :
    FirstFault f filter results s true fault := by
  cases hf : results.failure with
  | some fault' =>
    simp only [evaluateAll, hf] at h
    cases h
    exact .results hf fun heager => by cases heager
  | none =>
    rcases keepAll_cases f filter (results.items.map Value.unwrap) s with
      ⟨ks, ds, s', hs⟩ | ⟨fault', hb, he⟩
    · rw [evaluateAll_of_sifts hf hs] at h
      cases h
    · simp only [evaluateAll, hf, he] at h
      cases h
      exact .filter (fun _ => hf) hb

theorem ending_eq_error {α : Type} {found : α} {pulled : Nat} {s' : σ} {eager : Bool}
    {ks ds : List Value} (hs : Sifts f filter s (results.items.map Value.unwrap) ks ds s')
    (h : (ending results pulled found s').answer = .error fault) :
    FirstFault f filter results s eager fault := by
  unfold ending at h
  cases hf : results.failure with
  | none =>
    rw [hf] at h
    cases h
  | some fault' =>
    rw [hf] at h
    cases h
    exact .results hf fun _ => ⟨ks, ds, s', hs⟩

/-- A search and its diagnosis fail with the failure that they come to first. -/
theorem Search.firstFault {first : Outcome σ (Option Value)} {report : Outcome σ Diagnosis}
    (h : Search f filter results s first report) :
    (first.answer = .error fault → FirstFault f filter results s false fault) ∧
      (report.answer = .error fault → FirstFault f filter results s false fault) := by
  cases h with
  | found hv hs ha hw => exact ⟨nofun, nofun⟩
  | failed hv hs ha =>
    have hbreaks := Breaks.failed _ (forall₂_unwraps_iff.1 hv) hs ha
    constructor
    · rintro ⟨⟩
      exact .filter nofun hbreaks
    · rintro ⟨⟩
      exact .filter nofun hbreaks
  | exhausted hv hs =>
    obtain rfl := forall₂_unwraps_iff.1 hv
    exact ⟨ending_eq_error hs, ending_eq_error hs⟩

theorem evaluateFirst_eq_error (h : (evaluateFirst f filter results s).answer = .error fault) :
    FirstFault f filter results s false fault :=
  (search_iff.2 ⟨rfl, rfl⟩ : Search f filter results s _ _).firstFault.1 h

theorem diagnose_eq_error {firstOnly : Bool}
    (h : (diagnose f filter results firstOnly s).answer = .error fault) :
    FirstFault f filter results s false fault := by
  cases firstOnly with
  | true => exact (search_iff.2 ⟨rfl, rfl⟩ : Search f filter results s _ _).firstFault.2 h
  | false =>
    rcases keepAll_cases f filter (results.items.map Value.unwrap) s with
      ⟨ks, ds, s', hs⟩ | ⟨fault', hb, he⟩
    · rw [diagnose, diagnoseFrom_of_sifts hs] at h
      exact ending_eq_error hs h
    · rw [diagnose, diagnoseFrom_of_error he] at h
      cases h
      exact .filter (fun heager => by cases heager) hb

end TreeQuery.Query
