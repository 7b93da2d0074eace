import Mathlib.Data.List.Forall2
import TreeQuery.Proofs.Anchoring.Scan

/-!
# Places in a tree

A part of a tree has its place: the number of symbols of the tree that come before it. A scan of
the tokens of the tree should find one thing for each part that it looks for, at its place
(`Found`). It does if it does so for the parts of the tree one after the other (`Finds.append`).
-/

namespace TreeQuery.XPath

variable {α β : Type} {stands : α → β → List Token → Prop} {ts us : List Token}
  {parts parts' : List (Nat × α)} {found found' : List β}

/-- Places after `n` more symbols. -/
def shifted (n : Nat) (parts : List (Nat × α)) : List (Nat × α) :=
  parts.map (Prod.map (n + ·) id)

theorem shifted_shifted (n m : Nat) (parts : List (Nat × α)) :
    shifted n (shifted m parts) = shifted (n + m) parts := by
  rw [shifted, shifted, shifted, List.map_map]
  refine List.map_congr_left fun p _ => ?_
  rw [Function.comp_apply, Prod.map_map, Function.comp_id]
  simp only [Function.comp_def, Nat.add_assoc]

/-- The parts of a kind, as what they are. -/
def picked (f : α → Option β) (parts : List (Nat × α)) : List (Nat × β) :=
  parts.filterMap fun p => (f p.2).map (p.1, ·)

theorem picked_append (f : α → Option β) (parts parts' : List (Nat × α)) :
    picked f (parts ++ parts') = picked f parts ++ picked f parts' :=
  List.filterMap_append

theorem picked_shifted (f : α → Option β) (n : Nat) (parts : List (Nat × α)) :
    picked f (shifted n parts) = shifted n (picked f parts) := by
  rw [picked, picked, shifted, shifted, List.filterMap_map, List.map_filterMap]
  refine List.filterMap_congr fun p _ => ?_
  rw [Function.comp_apply, Option.map_map]
  rfl

/-- For each part in turn there is one thing found, with the tokens at the place of the part. -/
def Found (stands : α → β → List Token → Prop) (ts : List Token) (parts : List (Nat × α))
    (found : List β) : Prop :=
  List.Forall₂ (fun p r => ∃ us, us <+: ts.drop p.1 ∧ stands p.2 r us) parts found

theorem Found.nil : Found stands ts [] [] := List.Forall₂.nil

theorem Found.single {a : α} {b : β} (h : stands a b ts) : Found stands ts [(0, a)] [b] :=
  .cons ⟨ts, List.prefix_rfl, h⟩ .nil

theorem Found.imp {stands' : α → β → List Token → Prop} (h : Found stands ts parts found)
    (hs : ∀ a b us, us <:+: ts → stands a b us → stands' a b us) :
    Found stands' ts parts found :=
  List.Forall₂.imp (fun _ _ ⟨us, hu, hr⟩ =>
    ⟨us, hu, hs _ _ _ (hu.isInfix.trans (List.drop_suffix _ _).isInfix) hr⟩) h

theorem Found.append (h : Found stands ts parts found) (h' : Found stands us parts' found') :
    Found stands (ts ++ us) (parts ++ shifted ts.length parts') (found ++ found') := by
  refine List.rel_append (List.Forall₂.imp ?_ h)
    (List.forall₂_map_left_iff.2 (List.Forall₂.imp ?_ h'))
  · rintro ⟨i, a⟩ b ⟨vs, hv, hs⟩
    refine ⟨vs, hv.trans ?_, hs⟩
    rw [List.drop_append]
    exact List.prefix_append _ _
  · rintro ⟨i, a⟩ b ⟨vs, hv, hs⟩
    refine ⟨vs, ?_, hs⟩
    show vs <+: (ts ++ us).drop (ts.length + i)
    rwa [List.drop_length_add_append]

/-! ## Scans -/

/-- Among tokens that stand between others a scan finds certain parts. What it finds may depend on
the token before. -/
def Finds (scan : Option Token → List Token → List β) (stands : α → β → List Token → Prop)
    (last : Option Token) (us rest : List Token) (parts : List (Nat × α)) : Prop :=
  ∃ found, scan last (us ++ rest) = found ++ scan (lastOf last us) rest ∧
    Found stands us parts found

section Scan

variable {scan : Option Token → List Token → List β} {last : Option Token} {vs rest : List Token}

theorem Finds.nothing (h : scan last (us ++ rest) = scan (lastOf last us) rest) :
    Finds scan stands last us rest [] :=
  ⟨[], h, .nil⟩

theorem Finds.append (h : Finds scan stands last us (vs ++ rest) parts)
    (h' : Finds scan stands (lastOf last us) vs rest parts') {n : Nat} (hn : us.length = n) :
    Finds scan stands last (us ++ vs) rest (parts ++ shifted n parts') := by
  obtain ⟨found, hs, hf⟩ := h
  obtain ⟨found', hs', hf'⟩ := h'
  refine ⟨found ++ found', ?_, hn ▸ hf.append hf'⟩
  rw [List.append_assoc, hs, hs', lastOf_append, List.append_assoc]

theorem Finds.after (h : Finds scan stands last us (vs ++ rest) [])
    (h' : Finds scan stands (lastOf last us) vs rest parts) {n : Nat} (hn : us.length = n) :
    Finds scan stands last (us ++ vs) rest (shifted n parts) :=
  h.append h' hn

theorem Finds.before (h : Finds scan stands last us (vs ++ rest) parts)
    (h' : Finds scan stands (lastOf last us) vs rest []) :
    Finds scan stands last (us ++ vs) rest parts := by
  have ha := h.append h' rfl
  rwa [shifted, List.map_nil, List.append_nil] at ha

/-- What is found among all tokens. -/
theorem Finds.all (h : Finds scan stands last ts [] parts) (hn : ∀ last, scan last [] = []) :
    Found stands ts parts (scan last ts) := by
  obtain ⟨found, hs, hf⟩ := h
  rw [hn, List.append_nil, List.append_nil] at hs
  rwa [hs]

end Scan

end TreeQuery.XPath
