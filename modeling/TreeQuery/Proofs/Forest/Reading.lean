import TreeQuery.Proofs.Forest.Built

/-!
# Reading trees

A tree of a well-formed forest is read out down to its leaves, so each of its children is the tree
of a child (`WellFormed.tree_eq`), and it holds every node whose chain of parents comes to its top
(`WellFormed.mem_ids_root`).
-/

namespace TreeQuery

theorem Tree.idsAll_eq (ts : List Tree) : Tree.idsAll ts = ts.flatMap Tree.ids := by
  induction ts with
  | nil => rfl
  | cons t ts ih => rw [Tree.idsAll, ih, List.flatMap_cons]

theorem Tree.mem_idsAll {ts : List Tree} {i : NodeId} :
    i ∈ Tree.idsAll ts ↔ ∃ t ∈ ts, i ∈ t.ids := by
  induction ts with
  | nil => simp [Tree.idsAll]
  | cons t ts ih => simp [Tree.idsAll, ih]

namespace Forest

variable {f : Forest} {id p c : NodeId}

/-! ## Ancestors -/

theorem ancestors_of_top (h : f.parent? id = none) : f.ancestors id = [] := by
  unfold ancestors
  cases f.nodes.size with
  | zero => rfl
  | succ n => rw [ancestorsUpTo, h]

theorem root_of_top (h : f.parent? id = none) : f.root id = id := by
  rw [root, ancestors_of_top h]
  rfl

namespace WellFormed

theorem ancestors_of_parent (h : WellFormed f) (hp : f.parent? id = some p) :
    f.ancestors id = p :: f.ancestors p :=
  (h.chain id).unique (.step hp (h.chain p))

theorem root_of_parent (h : WellFormed f) (hp : f.parent? id = some p) : f.root id = f.root p := by
  rw [root, h.ancestors_of_parent hp, List.getLast?_cons, root]
  rfl

theorem length_ancestors_lt (h : WellFormed f) (hid : id < f.nodes.size) :
    (f.ancestors id).length < f.nodes.size := by
  have hc := h.chain id
  have hnodup : (id :: f.ancestors id).Nodup := List.nodup_cons.2 ⟨hc.not_mem, hc.nodup⟩
  have hlt : ∀ p ∈ id :: f.ancestors id, p < f.nodes.size :=
    List.forall_mem_cons.2 ⟨hid, h.lt_of_mem_chain hc⟩
  have := (hnodup.subperm fun p hp => List.mem_range.2 (hlt p hp)).length_le
  rwa [List.length_range] at this

/-- What is proved of the top of every chain and goes from parents to their children and attributes
holds of every node. -/
theorem induction_down {motive : NodeId → Prop} (h : WellFormed f)
    (top : ∀ id, f.parent? id = none → motive id)
    (below : ∀ id p, f.parent? id = some p → motive p → motive id) (id : NodeId) : motive id := by
  obtain ⟨l, hl⟩ := h.chains id
  induction hl with
  | top hp => exact top _ hp
  | step hp _ ih => exact below _ _ hp ih

/-- What holds of a node as soon as it holds of its children holds of every node. -/
theorem induction_up {motive : NodeId → Prop} (h : WellFormed f)
    (step : ∀ id, (∀ c ∈ f.children id, motive c) → motive id) (id : NodeId) : motive id := by
  have hsize (n : Nat) : ∀ id, f.nodes.size - (f.ancestors id).length = n → motive id := by
    induction n using Nat.strongRecOn with
    | _ n ih =>
      rintro id rfl
      refine step id fun c hc => ih _ ?_ c rfl
      obtain ⟨x, hx⟩ := exists_content?_of_child hc
      have := h.length_ancestors_lt (lt_size_of_content? hx)
      rw [h.ancestors_of_parent (h.parent_of_child hc), List.length_cons]
      omega
  exact hsize _ id rfl

theorem parent?_root (h : WellFormed f) (id : NodeId) : f.parent? (f.root id) = none :=
  h.induction_down (motive := fun id => f.parent? (f.root id) = none)
    (fun id hp => by rw [root_of_top hp, hp])
    (fun id p hp ih => by rw [h.root_of_parent hp, ih]) id

/-! ## Depth -/

/-- Below a node that is deep enough nothing is left to read. -/
theorem treeTo_succ (h : WellFormed f) (depth : Nat) (id : NodeId)
    (hd : f.nodes.size ≤ depth + (f.ancestors id).length) :
    f.treeTo (depth + 1) id = f.treeTo depth id := by
  induction depth generalizing id with
  | zero =>
    have hnone : f.content? id = none := by
      cases hx : f.content? id with
      | none => rfl
      | some x =>
        have := h.length_ancestors_lt (lt_size_of_content? hx)
        omega
    rw [treeTo, treeTo, hnone]
  | succ depth ih =>
    have hchildren : (f.children id).map (f.treeTo (depth + 1)) =
        (f.children id).map (f.treeTo depth) := by
      refine List.map_congr_left fun c hc => ih c ?_
      rw [h.ancestors_of_parent (h.parent_of_child hc), List.length_cons]
      omega
    rw [treeTo, treeTo.eq_def f (depth + 1)]
    cases hx : f.content? id with
    | none => rfl
    | some x =>
      rw [children_of_content? hx] at hchildren
      cases x with
      | document cs => exact congrArg _ hchildren
      | element e => exact congrArg _ hchildren
      | _ => rfl

/-- What is read of a node, given what is read of its children. -/
def layer (f : Forest) (id : NodeId) (below : List Tree) : Tree :=
  match f.content? id with
  | some (.document _) => .document id below
  | some (.element e) =>
    .element id e.name e.ns e.declared (e.attributes.filterMap f.attr?) below
  | some (.attr name value ns) => .attr ⟨id, name, value, ns⟩
  | some (.text v) => .text id v
  | some (.comment v) => .comment id v
  | some (.instruction target data) => .instruction id target data
  | none => .document id []

theorem tree_eq (h : WellFormed f) (id : NodeId) :
    f.tree id = layer f id ((f.children id).map f.tree) := by
  have hchildren (depth : Nat) (hs : f.nodes.size = depth + 1) :
      (f.children id).map (f.treeTo depth) = (f.children id).map f.tree := by
    refine List.map_congr_left fun c hc => ?_
    rw [tree, hs, h.treeTo_succ]
    rw [h.ancestors_of_parent (h.parent_of_child hc), List.length_cons]
    omega
  unfold layer
  cases hx : f.content? id with
  | none =>
    rw [tree]
    cases f.nodes.size <;> rw [treeTo, hx]
  | some x =>
    rw [tree]
    cases hs : f.nodes.size with
    | zero => exact absurd (lt_size_of_content? hx) (hs ▸ Nat.not_lt_zero id)
    | succ depth =>
      have hchildren := hchildren depth hs
      rw [children_of_content? hx] at hchildren ⊢
      rw [treeTo, hx]
      cases x with
      | document cs => exact congrArg _ hchildren
      | element e => exact congrArg _ hchildren
      | _ => rfl

theorem isElement_tree (h : WellFormed f) (id : NodeId) :
    (f.tree id).isElement = f.isElement id := by
  rw [h.tree_eq, layer, isElement, class?]
  cases f.content? id with
  | none => rfl
  | some x => cases x <;> rfl

section Contents

variable {cs as : List NodeId} {e : ElementData} {name value target data : String}
  {ns : Namespace} {v : Value}

theorem tree_document (h : WellFormed f) (hx : f.content? id = some (.document cs)) :
    f.tree id = .document id (cs.map f.tree) := by
  rw [h.tree_eq, layer, hx, children_of_content? hx]
  rfl

theorem tree_element (h : WellFormed f) (hx : f.content? id = some (.element e)) :
    f.tree id = .element id e.name e.ns e.declared (e.attributes.filterMap f.attr?)
      (e.children.map f.tree) := by
  rw [h.tree_eq, layer, hx, children_of_content? hx]
  rfl

theorem tree_text (h : WellFormed f) (hx : f.content? id = some (.text v)) :
    f.tree id = .text id v := by
  rw [h.tree_eq, layer, hx]

theorem tree_comment (h : WellFormed f) (hx : f.content? id = some (.comment v)) :
    f.tree id = .comment id v := by
  rw [h.tree_eq, layer, hx]

theorem tree_instruction (h : WellFormed f) (hx : f.content? id = some (.instruction target data)) :
    f.tree id = .instruction id target data := by
  rw [h.tree_eq, layer, hx]

theorem content?_of_tree_text {i : NodeId} (h : WellFormed f) (ht : f.tree id = .text i v) :
    i = id ∧ f.content? id = some (.text v) := by
  rw [h.tree_eq, layer] at ht
  split at ht
  · cases ht
  · cases ht
  · cases ht
  · next hx =>
    cases ht
    exact ⟨rfl, hx⟩
  · cases ht
  · cases ht
  · cases ht

theorem children_of_tree_document {i : NodeId} {ts : List Tree} (h : WellFormed f)
    (ht : f.tree id = .document i ts) : i = id ∧ ts = (f.children id).map f.tree := by
  rw [h.tree_eq, layer] at ht
  split at ht
  · cases ht
    exact ⟨rfl, rfl⟩
  · cases ht
  · cases ht
  · cases ht
  · cases ht
  · cases ht
  · next hx =>
    cases ht
    rw [children, hx]
    exact ⟨rfl, rfl⟩

end Contents

/-! ## Membership -/

theorem mem_ids_iff (h : WellFormed f) {i : NodeId} (hid : f.class? id ≠ some .attr) :
    i ∈ (f.tree id).ids ↔ i = id ∨ ∃ c ∈ f.children id, i ∈ (f.tree c).ids := by
  have hbelow : i ∈ Tree.idsAll ((f.children id).map f.tree) ↔
      ∃ c ∈ f.children id, i ∈ (f.tree c).ids := by
    rw [Tree.mem_idsAll]
    simp only [List.mem_map, exists_exists_and_eq_and]
  rw [h.tree_eq, ← hbelow, layer]
  cases hx : f.content? id with
  | none =>
    rw [children, hx]
    exact List.mem_cons
  | some x =>
    rw [children_of_content? hx]
    cases x with
    | document cs => exact List.mem_cons
    | element e => exact List.mem_cons
    | attr => exact absurd (class?_of_content? hx) hid
    | _ => exact List.mem_cons

theorem ids_of_attr (h : WellFormed f) (ha : f.class? id = some .attr) :
    (f.tree id).ids = [] := by
  obtain ⟨x, hx, hn⟩ := Option.map_eq_some_iff.1 ha
  cases x with
  | attr =>
    rw [h.tree_eq, layer, hx]
    rfl
  | _ => cases hn

theorem class?_of_mem_children (hc : c ∈ f.children p) :
    f.class? p = some .document ∨ f.class? p = some .element := by
  obtain ⟨x, hx⟩ := exists_content?_of_child hc
  rw [children_of_content? hx] at hc
  rw [class?_of_content? hx]
  cases x with
  | document => exact .inl rfl
  | element => exact .inr rfl
  | _ => cases hc

theorem class?_ne_attr_of_mem_children (hc : c ∈ f.children p) : f.class? p ≠ some .attr := by
  rcases class?_of_mem_children hc with h | h <;> rw [h] <;> nofun

theorem parent?_of_document (h : WellFormed f) (hd : f.class? id = some .document) :
    f.parent? id = none := by
  cases hp : f.parent? id with
  | none => rfl
  | some p =>
    rcases h.listed hp with hc | ha
    · obtain ⟨k, hk, hin, hin'⟩ := h.class_of_child hc
      cases hd.symm.trans hk
      rcases class?_of_mem_children hc with hp | hp
      · cases hin hp
      · cases hin' hp
    · cases hd.symm.trans (h.class?_of_attribute ha)

theorem self_mem_ids (h : WellFormed f) (hid : f.class? id ≠ some .attr) : id ∈ (f.tree id).ids :=
  (h.mem_ids_iff hid).2 (.inl rfl)

theorem ids_subset_of_child (h : WellFormed f) (hc : c ∈ f.children p) :
    (f.tree c).ids ⊆ (f.tree p).ids := fun _ hx =>
  (h.mem_ids_iff (class?_ne_attr_of_mem_children hc)).2 (.inr ⟨c, hc, hx⟩)

theorem mem_ids_of_child (h : WellFormed f) (hc : c ∈ f.children p) (t : NodeId)
    (hp : p ∈ (f.tree t).ids) : c ∈ (f.tree t).ids := by
  induction t using h.induction_up with
  | _ t ih =>
    by_cases ht : f.class? t = some .attr
    · rw [h.ids_of_attr ht] at hp
      cases hp
    · rcases (h.mem_ids_iff ht).1 hp with rfl | ⟨d, hd, hp⟩
      · exact h.ids_subset_of_child hc (h.self_mem_ids (h.class?_ne_attr_of_child hc))
      · exact h.ids_subset_of_child hd (ih d hd hp)

theorem ids_subset_of_mem (h : WellFormed f) {t : NodeId} (hid : id ∈ (f.tree t).ids) :
    (f.tree id).ids ⊆ (f.tree t).ids := by
  induction id using h.induction_up with
  | _ id ih =>
    intro x hx
    by_cases hclass : f.class? id = some .attr
    · rw [h.ids_of_attr hclass] at hx
      cases hx
    · rcases (h.mem_ids_iff hclass).1 hx with rfl | ⟨c, hc, hx⟩
      · exact hid
      · exact ih c hc (h.mem_ids_of_child hc t hid) hx

/-- Every node but an attribute is in the tree of its top. -/
theorem mem_ids_root (h : WellFormed f) (hid : f.class? id ≠ some .attr) :
    id ∈ (f.tree (f.root id)).ids := by
  induction id using h.induction_down with
  | top id hp =>
    rw [root_of_top hp]
    exact h.self_mem_ids hid
  | below id p hp ih =>
    rw [h.root_of_parent hp]
    have hc := h.mem_children hp hid
    exact h.mem_ids_of_child hc _ (ih (class?_ne_attr_of_mem_children hc))

/-- The way up from a node of a tree goes through the top of the tree. -/
theorem exists_append_of_mem_ids (h : WellFormed f) {i : NodeId} (hi : i ∈ (f.tree id).ids) :
    ∃ l, i :: f.ancestors i = l ++ id :: f.ancestors id := by
  induction id using h.induction_up with
  | _ id ih =>
    by_cases ha : f.class? id = some .attr
    · rw [h.ids_of_attr ha] at hi
      cases hi
    · rcases (h.mem_ids_iff ha).1 hi with rfl | ⟨c, hc, hi⟩
      · exact ⟨[], rfl⟩
      · obtain ⟨l, hl⟩ := ih c hc hi
        refine ⟨l ++ [c], ?_⟩
        rw [hl, h.ancestors_of_parent (h.parent_of_child hc), List.append_assoc]
        rfl

theorem nodup_ids (h : WellFormed f) (id : NodeId) : (f.tree id).ids.Nodup := by
  induction id using h.induction_up with
  | _ id ih =>
    have hself : id ∉ Tree.idsAll ((f.children id).map f.tree) := by
      rw [Tree.mem_idsAll]
      rintro ⟨t, ht, hid⟩
      obtain ⟨c, hc, rfl⟩ := List.mem_map.1 ht
      obtain ⟨l, hl⟩ := h.exists_append_of_mem_ids hid
      have := congrArg List.length hl
      rw [h.ancestors_of_parent (h.parent_of_child hc)] at this
      simp only [List.length_append, List.length_cons] at this
      omega
    -- a node in the trees of two children would have both on its way up, at the same height
    have hbelow : (Tree.idsAll ((f.children id).map f.tree)).Nodup := by
      rw [Tree.idsAll_eq, List.flatMap_map, List.nodup_flatMap]
      refine ⟨ih, (h.nodup_children id).pairwise_of_forall_ne fun c hc d hd hne i hic hid => hne ?_⟩
      obtain ⟨l, hl⟩ := h.exists_append_of_mem_ids hic
      obtain ⟨l', hl'⟩ := h.exists_append_of_mem_ids hid
      rw [h.ancestors_of_parent (h.parent_of_child hc)] at hl
      rw [h.ancestors_of_parent (h.parent_of_child hd)] at hl'
      exact (List.cons.inj (List.append_inj_right' (hl.symm.trans hl') (by simp))).1
    rw [h.tree_eq, layer]
    cases hx : f.content? id with
    | none => exact List.nodup_singleton id
    | some x =>
      cases x with
      | document | element => exact List.nodup_cons.2 ⟨hself, hbelow⟩
      | attr => exact List.nodup_nil
      | _ => exact List.nodup_singleton id

end WellFormed

end Forest

end TreeQuery
