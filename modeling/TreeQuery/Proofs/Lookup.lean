import Mathlib.Data.List.Forall2
import Mathlib.Data.List.Nodup

/-!
# Lookups

What is found by a key is an entry with that key. Where no key is twice, every entry is found by its
own key (`lookup_eq_some_iff_mem`). In a list that is related to another one place by place, there is
something for each member of the other.
-/

namespace TreeQuery

variable {α β γ : Type} [BEq α] [LawfulBEq α] {l : List (α × β)} {k : α} {v : β}

theorem mem_of_lookup (h : l.lookup k = some v) : (k, v) ∈ l := by
  obtain ⟨l₁, l₂, rfl, -⟩ := List.lookup_eq_some_iff.1 h
  simp

theorem isSome_lookup_iff : (l.lookup k).isSome = true ↔ k ∈ l.map (·.1) := by
  rw [Option.isSome_iff_ne_none, Ne, List.lookup_eq_none_iff, List.mem_map]
  refine ⟨fun h => ?_, fun ⟨e, he, hk⟩ h => ?_⟩
  · by_contra hno
    exact h fun e he => bne_iff_ne.2 fun hk => hno ⟨e, he, hk.symm⟩
  · exact bne_iff_ne.1 (h e he) hk.symm

theorem lookup_eq_some_iff_mem (hl : (l.map (·.1)).Nodup) : l.lookup k = some v ↔ (k, v) ∈ l := by
  refine ⟨mem_of_lookup, fun h => ?_⟩
  obtain ⟨l₁, l₂, rfl⟩ := List.append_of_mem h
  refine List.lookup_eq_some_iff.2 ⟨l₁, l₂, rfl, fun c hc => ?_⟩
  rw [List.map_append, List.map_cons, List.nodup_append] at hl
  rw [bne_iff_ne]
  exact (hl.2.2 c.1 (List.mem_map_of_mem hc) k List.mem_cons_self).symm

theorem exists_lookup_zip (name : γ → α) {ws : List γ} {xs : List β} {w : γ}
    (hn : (ws.map name).Nodup) (hl : xs.length = ws.length) (hw : w ∈ ws) :
    ∃ x, (w, x) ∈ ws.zip xs ∧ ((ws.map name).zip xs).lookup (name w) = some x := by
  obtain ⟨i, hi, rfl⟩ := List.mem_iff_getElem.1 hw
  have hix : i < xs.length := hl ▸ hi
  have hzip : (ws[i], xs[i]) ∈ ws.zip xs := by
    rw [← List.getElem_zip (h := by rw [List.length_zip, hl, Nat.min_self]; exact hi)]
    exact List.getElem_mem _
  refine ⟨xs[i], hzip, (lookup_eq_some_iff_mem ?_).2 ?_⟩
  · rwa [List.map_fst_zip (by rw [List.length_map]; exact Nat.le_of_eq hl.symm)]
  · rw [List.zip_map_left]
    exact List.mem_map_of_mem hzip

/-! ## Related lists -/

theorem exists_left_of_forall₂ {α β : Type} {R : α → β → Prop} {as : List α} {bs : List β}
    (h : List.Forall₂ R as bs) {b : β} (hb : b ∈ bs) : ∃ a ∈ as, R a b := by
  induction h with
  | nil => cases hb
  | cons hr _ ih =>
    rcases List.mem_cons.1 hb with rfl | hb
    · exact ⟨_, List.mem_cons_self, hr⟩
    · exact (ih hb).imp fun _ ha => ha.imp_left (List.mem_cons_of_mem _)

theorem exists_right_of_forall₂ {α β : Type} {R : α → β → Prop} {as : List α} {bs : List β}
    (h : List.Forall₂ R as bs) {a : α} (ha : a ∈ as) : ∃ b ∈ bs, R a b := by
  obtain ⟨b, hb, hr⟩ := exists_left_of_forall₂ h.flip ha
  exact ⟨b, hb, hr⟩

end TreeQuery
