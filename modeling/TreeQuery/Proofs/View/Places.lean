import Mathlib.Data.List.Basic
import Mathlib.Data.List.Induction
import TreeQuery.XPath.Node

/-!
# Places

A node of a document is found by going down to it, so what goes from nodes to their children holds
of every node (`node_induction`), and the nodes above a child are its parent and those above that.
-/

namespace TreeQuery.XPath

variable {ds : Documents} {d : Nat} {path : List Nat} {p c x : XNode}

/-- What stands below a node. -/
def XNode.branches (n : XNode) : List Branch :=
  match n.item with
  | .document cs => cs
  | .branch b => b.children
  | _ => []

theorem XNode.getElem?_children (n : XNode) (i : Nat) :
    n.children[i]? = n.branches[i]?.map fun b =>
      ⟨⟨n.place.document, n.place.path ++ [i], .whole⟩, .branch b⟩ := by
  show (n.branches.zipIdx.map _)[i]? = _
  rw [List.getElem?_map, List.getElem?_zipIdx]
  cases n.branches[i]? with
  | none => rfl
  | some b => simp

theorem descend?_append (n : XNode) (path : List Nat) (i : Nat) :
    descend? n (path ++ [i]) = (descend? n path).bind fun m => m.children[i]? := by
  induction path generalizing n with
  | nil =>
    show (n.children[i]?).bind some = n.children[i]?
    exact Option.bind_fun_some _
  | cons j path ih =>
    rw [List.cons_append, descend?, descend?]
    cases n.children[j]? with
    | none => rfl
    | some m => exact ih m

theorem nodeAt?_append (ds : Documents) (d : Nat) (path : List Nat) (i : Nat) :
    nodeAt? ds d (path ++ [i]) = (nodeAt? ds d path).bind fun m => m.children[i]? :=
  descend?_append ..

/-- What holds of a document and goes from nodes to their children holds of all nodes. -/
theorem node_induction {motive : List Nat → XNode → Prop} (top : motive [] (documentNode ds d))
    (child : ∀ path p i c, nodeAt? ds d path = some p → motive path p → p.children[i]? = some c →
      motive (path ++ [i]) c) : ∀ path x, nodeAt? ds d path = some x → motive path x := by
  intro path
  induction path using List.reverseRecOn with
  | nil =>
    intro x hx
    cases hx
    exact top
  | append_singleton path i ih =>
    intro x hx
    rw [nodeAt?_append] at hx
    obtain ⟨p, hp, hc⟩ := Option.bind_eq_some_iff.1 hx
    exact child path p i x hp (ih p hp) hc

theorem place_of_nodeAt? (h : nodeAt? ds d path = some x) : x.place = ⟨d, path, .whole⟩ := by
  refine node_induction (motive := fun path x => x.place = ⟨d, path, .whole⟩) rfl
    (fun path p i c _ hp hc => ?_) path x h
  rw [XNode.getElem?_children] at hc
  obtain ⟨b, -, rfl⟩ := Option.map_eq_some_iff.1 hc
  rw [hp]

theorem exists_child {b : Branch} (h : nodeAt? ds d path = some p) (hb : b ∈ p.branches) :
    ∃ path' x, nodeAt? ds d path' = some x ∧ x.item = .branch b := by
  obtain ⟨i, hi⟩ := List.mem_iff_getElem?.1 hb
  refine ⟨path ++ [i], ⟨⟨p.place.document, p.place.path ++ [i], .whole⟩, .branch b⟩, ?_, rfl⟩
  rw [nodeAt?_append, h, Option.bind_some, XNode.getElem?_children, hi]
  rfl

theorem XNode.ancestors_of_child {i : Nat} (hp : nodeAt? ds d path = some p)
    (hc : p.children[i]? = some c) : c.ancestors ds = p :: p.ancestors ds := by
  have hplace := place_of_nodeAt? hp
  have htree : p.isTree = true := by
    rw [XNode.isTree]
    cases hitem : p.item with
    | document | branch => rfl
    | attr | ns =>
      rw [XNode.getElem?_children, XNode.branches, hitem] at hc
      cases hc
  rw [XNode.getElem?_children] at hc
  obtain ⟨b, -, rfl⟩ := Option.map_eq_some_iff.1 hc
  have hbefore : (List.range path.length).reverse.filterMap
      (fun k => nodeAt? ds d ((path ++ [i]).take k)) =
        (List.range path.length).reverse.filterMap fun k => nodeAt? ds d (path.take k) := by
    refine List.filterMap_congr fun k hk => ?_
    rw [List.take_append_of_le_length (Nat.le_of_lt (List.mem_range.1 (List.mem_reverse.1 hk)))]
  rw [XNode.ancestors, XNode.ancestors, hplace, htree]
  show ((List.range (path ++ [i]).length).reverse.filterMap fun k =>
    nodeAt? ds d ((path ++ [i]).take k)) = _
  rw [List.length_append, List.length_singleton, List.range_succ, List.reverse_append,
    List.reverse_singleton, List.singleton_append, List.filterMap_cons, List.take_left, hp, hbefore]
  rfl

theorem exists_parent {b : Branch} (h : nodeAt? ds d path = some x) (hx : x.item = .branch b) :
    ∃ path' p, nodeAt? ds d path' = some p ∧ b ∈ p.branches := by
  rcases List.eq_nil_or_concat path with rfl | ⟨path', i, rfl⟩
  · cases h
    cases hx
  · rw [List.concat_eq_append, nodeAt?_append] at h
    obtain ⟨p, hp, hc⟩ := Option.bind_eq_some_iff.1 h
    rw [XNode.getElem?_children] at hc
    obtain ⟨c, hget, rfl⟩ := Option.map_eq_some_iff.1 hc
    cases hx
    exact ⟨path', p, hp, List.mem_of_getElem? hget⟩

end TreeQuery.XPath
