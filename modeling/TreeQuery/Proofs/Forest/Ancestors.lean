import Mathlib.Data.List.Perm.Subperm
import TreeQuery.Forest.Scope

/-!
# Chains of parents

`Chain f id l` says that `l` holds the parents from a node up to one that has none. No node is on
its own chain, so a chain is no longer than the forest, and `Forest.ancestors` finds all of it
(`Chain.ancestors_eq`).
-/

namespace TreeQuery.Forest

variable {f : Forest} {id p q : NodeId} {l l' : List NodeId}

/-- The parents of a node, nearest first, up to one without a parent. -/
inductive Chain (f : Forest) : NodeId → List NodeId → Prop where
  | top {id : NodeId} : f.parent? id = none → Chain f id []
  | step {id p : NodeId} {l : List NodeId} : f.parent? id = some p → Chain f p l →
      Chain f id (p :: l)

namespace Chain

theorem unique (h : Chain f id l) (h' : Chain f id l') : l = l' := by
  induction h generalizing l' with
  | top hp =>
    cases h' with
    | top => rfl
    | step hp' => rw [hp] at hp'; cases hp'
  | step hp _ ih =>
    cases h' with
    | top hp' => rw [hp] at hp'; cases hp'
    | step hp' h' =>
      obtain rfl := Option.some.inj (hp.symm.trans hp')
      rw [ih h']

theorem rest {before : List NodeId} (h : Chain f id (before ++ p :: l)) : Chain f p l := by
  induction before generalizing id with
  | nil =>
    cases h with
    | step _ h => exact h
  | cons q before ih =>
    cases h with
    | step _ h => exact ih h

theorem not_mem (h : Chain f id l) : id ∉ l := by
  intro hm
  obtain ⟨before, after, rfl⟩ := List.append_of_mem hm
  have := congrArg List.length (h.unique h.rest)
  simp only [List.length_append, List.length_cons] at this
  omega

theorem nodup (h : Chain f id l) : l.Nodup := by
  induction h with
  | top => exact List.nodup_nil
  | step _ h ih => exact List.nodup_cons.2 ⟨h.not_mem, ih⟩

theorem congr {g : Forest} (h : Chain f id l) (hp : ∀ id, g.parent? id = f.parent? id) :
    Chain g id l := by
  induction h with
  | top hi => exact .top ((hp _).trans hi)
  | step hi _ ih => exact .step ((hp _).trans hi) ih

theorem ancestorsUpTo_eq (h : Chain f id l) (steps : Nat) :
    f.ancestorsUpTo steps id = l.take steps := by
  induction steps generalizing id l with
  | zero => rfl
  | succ steps ih =>
    cases h with
    | top hp =>
      rw [ancestorsUpTo, hp]
      rfl
    | step hp h =>
      rw [ancestorsUpTo, hp, List.take_succ_cons]
      exact congrArg _ (ih h)

theorem length_le (h : Chain f id l) (hf : ∀ p ∈ l, p < f.nodes.size) :
    l.length ≤ f.nodes.size := by
  have := (h.nodup.subperm fun p hp => List.mem_range.2 (hf p hp)).length_le
  rwa [List.length_range] at this

theorem ancestors_eq (h : Chain f id l) (hf : ∀ p ∈ l, p < f.nodes.size) :
    f.ancestors id = l := by
  rw [ancestors, h.ancestorsUpTo_eq, List.take_of_length_le (h.length_le hf)]

end Chain

/-- Chains are finite after nodes have lost their parents and one node has got one that it is not
above. -/
theorem exists_chain {g : Forest} (child : NodeId) (h : ∀ id, ∃ l, Chain f id l)
    (hp : ∀ id, g.parent? id = f.parent? id ∨ g.parent? id = none ∨
      id = child ∧ g.parent? id = some p) (hc : ∀ l, Chain f p l → child ∉ p :: l) (id : NodeId) :
    ∃ l, Chain g id l := by
  have habove {id : NodeId} {l : List NodeId} (h : Chain f id l) (hm : child ∉ id :: l) :
      ∃ l, Chain g id l := by
    induction h with
    | @top id hi =>
      rcases hp id with hg | hg | ⟨rfl, -⟩
      · exact ⟨[], .top (hg.trans hi)⟩
      · exact ⟨[], .top hg⟩
      · exact absurd List.mem_cons_self hm
    | @step id q l hi _ ih =>
      rw [List.mem_cons, not_or] at hm
      rcases hp id with hg | hg | ⟨rfl, -⟩
      · obtain ⟨l', hl'⟩ := ih hm.2
        exact ⟨q :: l', .step (hg.trans hi) hl'⟩
      · exact ⟨[], .top hg⟩
      · exact absurd rfl hm.1
  have hchild (hg : g.parent? child = some p) : ∃ l, Chain g child l := by
    obtain ⟨l, hl⟩ := h p
    obtain ⟨l', hl'⟩ := habove hl (hc l hl)
    exact ⟨p :: l', .step hg hl'⟩
  obtain ⟨l, hl⟩ := h id
  induction hl with
  | @top id hi =>
    rcases hp id with hg | hg | ⟨rfl, hg⟩
    · exact ⟨[], .top (hg.trans hi)⟩
    · exact ⟨[], .top hg⟩
    · exact hchild hg
  | @step id q l hi _ ih =>
    rcases hp id with hg | hg | ⟨rfl, hg⟩
    · obtain ⟨l', hl'⟩ := ih
      exact ⟨q :: l', .step (hg.trans hi) hl'⟩
    · exact ⟨[], .top hg⟩
    · exact hchild hg

end TreeQuery.Forest
