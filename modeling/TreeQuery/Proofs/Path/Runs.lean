import Mathlib.Data.List.Nodup
import TreeQuery.AbsolutePath
import TreeQuery.Proofs.View.Shape

/-!
# Runs

The runs of a list are its maximal stretches of entries that pass a test. They cover just these
entries, each once (`flatten_runs`), so an entry is in one run only (`eq_of_mem_runs`). The texts
that are left after merging are the runs that hold anything (`filter_isText_mergeTexts`).
-/

namespace TreeQuery

variable {α : Type} {p q : α → Bool} {a b : α} {run rest l r r' : List α}

theorem runs_of_forall (h : ∀ a ∈ run, p a = true) (hne : run ≠ []) : runs p run = [run] := by
  induction run with
  | nil => exact absurd rfl hne
  | cons a run ih =>
    rw [runs, if_pos (h a List.mem_cons_self)]
    cases run with
    | nil => rfl
    | cons b run =>
      rw [ih (fun c hc => h c (List.mem_cons_of_mem _ hc)) (List.cons_ne_nil _ _)]
      have hb : (b :: run).head?.any p = true := h b (by simp)
      rw [hb]

theorem runs_append_cons (h : ∀ a ∈ run, p a = true) (hb : p b = false) (rest : List α) :
    runs p (run ++ b :: rest) = runs p run ++ runs p rest := by
  have hrest : runs p (b :: rest) = runs p rest := by
    rw [runs, hb, if_neg Bool.false_ne_true]
  induction run with
  | nil => exact hrest
  | cons a run ih =>
    have hrun := fun c hc => h c (List.mem_cons_of_mem a hc)
    rw [List.cons_append, runs, if_pos (h a List.mem_cons_self), ih hrun,
      runs_of_forall h (List.cons_ne_nil a run)]
    cases run with
    | nil => simp [hb, runs]
    | cons c run =>
      rw [runs_of_forall hrun (List.cons_ne_nil c run)]
      have hc : (c :: run ++ b :: rest).head?.any p = true := hrun c (by simp)
      rw [hc]
      rfl

theorem flatten_runs (p : α → Bool) (l : List α) : (runs p l).flatten = l.filter p := by
  have hrun {run : List α} (h : ∀ a ∈ run, p a = true) : (runs p run).flatten = run.filter p := by
    rw [List.filter_eq_self.2 h]
    by_cases hne : run = []
    · rw [hne]
      rfl
    · rw [runs_of_forall h hne, List.flatten_singleton]
  induction l using run_induction (p := p) with
  | last run h => exact hrun h
  | ended run a rest h ha ih =>
    rw [runs_append_cons h ha, List.flatten_append, hrun h, ih, List.filter_append,
      List.filter_cons_of_neg (by simp [ha])]

theorem mem_of_mem_runs (hr : r ∈ runs p l) (ha : a ∈ r) : a ∈ l ∧ p a = true := by
  rw [← List.mem_filter, ← flatten_runs]
  exact List.mem_flatten.2 ⟨r, hr, ha⟩

theorem eq_of_mem_runs (hl : l.Nodup) (hr : r ∈ runs p l) (hr' : r' ∈ runs p l) (ha : a ∈ r)
    (ha' : a ∈ r') : r = r' := by
  have hnodup : (runs p l).flatten.Nodup := flatten_runs p l ▸ hl.filter p
  by_contra hne
  have hdisjoint := (List.nodup_flatten.1 hnodup).2
  have : Std.Symm (@List.Disjoint α) := ⟨fun _ _ h _ hx hy => h hy hx⟩
  exact hdisjoint.forall hr hr' hne ha ha'

namespace Shape

variable {β : Type} {g : α → Shape β}

/-- What is left of a run of texts after merging: the run, if it holds anything. -/
theorem ofRun_eq_flatMap (hp : ∀ a ∈ run, p a = true) (ht : ∀ a ∈ run, (g a).isText = p a)
    (hq : ∀ a ∈ run, (g a).hasText = q a) :
    (ofRun (run.map g)).filter isText =
      ((runs p run).filter (·.any q)).flatMap fun r => ofRun (r.map g) := by
  have htext : ∀ s ∈ run.map g, s.isText = true := List.forall_mem_map.2 fun a ha =>
    (ht a ha).trans (hp a ha)
  rw [List.filter_eq_self.2 (isText_of_mem_ofRun htext)]
  by_cases hne : run = []
  · rw [hne]
    rfl
  · rw [runs_of_forall hp hne, List.filter_singleton]
    cases hany : run.any q with
    | true => exact (List.flatMap_singleton _ _).symm
    | false =>
      refine ofRun_eq_nil htext (List.find?_eq_none.2 (List.forall_mem_map.2 fun a ha => ?_))
      rw [hq a ha]
      exact List.any_eq_false.1 hany a ha

/-- What is left of the texts of some shapes after merging: the runs that hold anything. -/
theorem filter_isText_mergeTexts (ht : ∀ a ∈ l, (g a).isText = p a)
    (hq : ∀ a ∈ l, (g a).hasText = q a) :
    (mergeTexts (l.map g)).filter isText =
      ((runs p l).filter (·.any q)).flatMap fun r => ofRun (r.map g) := by
  induction l using run_induction (p := p) with
  | last run h =>
    rw [mergeTexts_run (List.forall_mem_map.2 fun a ha => (ht a ha).trans (h a ha)),
      ofRun_eq_flatMap h ht hq]
  | ended run a rest h ha ih =>
    have hs : (g a).isText = false := (ht a (by simp)).trans ha
    have htrun (b) (hb : b ∈ run) := ht b (List.mem_append_left _ hb)
    rw [List.map_append, List.map_cons,
      mergeTexts_append_cons (List.forall_mem_map.2 fun b hb => (htrun b hb).trans (h b hb)) hs,
      runs_append_cons h ha, List.filter_append, List.filter_append, List.flatMap_append,
      ofRun_eq_flatMap h htrun fun b hb => hq b (List.mem_append_left _ hb),
      List.filter_cons_of_neg (by simp [hs]), ih (fun b hb => ht b (by simp [hb]))
        fun b hb => hq b (by simp [hb])]

end Shape

end TreeQuery
