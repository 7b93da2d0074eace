import TreeQuery.Proofs.View.Unfinished

/-!
# Looking up attributes and texts

Attributes and texts are parts of the views of their elements and have none of their own. To ask for
one fails, but not before the view of its whole tree has been made, be it there already or not
(`Navigator.run_viewOf_part`). Then the nodes of the tree have new views, and the old ones are still
taken for views of theirs (`Navigator.Remade`).
-/

namespace TreeQuery

namespace Forest

variable {f : Forest} {id p : NodeId}

/-- An attribute or a text. -/
def IsPart (f : Forest) (id : NodeId) : Prop :=
  f.class? id = some .attr ∨ f.class? id = some .text

theorem IsPart.not_isViewed (h : f.IsPart id) : ¬ f.IsViewed id := by
  rintro (hx | hx | hx) <;> rcases h with h | h <;> cases hx.symm.trans h

theorem IsPart.class?_ne_document (h : f.IsPart id) : f.class? id ≠ some .document := by
  rintro hd
  rcases h with h | h <;> cases hd.symm.trans h

theorem WellFormed.isElement_of_part (hf : f.WellFormed) (h : f.IsPart id)
    (hp : f.parent? id = some p) : f.class? p = some .element := by
  rcases hf.listed hp with hc | ha
  · refine (class?_of_mem_children hc).resolve_left fun hd => ?_
    exact h.not_isViewed (hf.isViewed_of_document hd hc)
  · obtain ⟨e, he, -⟩ := exists_content?_of_attribute ha
    exact class?_of_content? he

end Forest

namespace Navigator

variable {f : Forest} {n n' : Navigator} {id p top x : NodeId} {v : ViewId}

theorem rooted_of_isElement (hf : f.WellFormed) (he : f.class? p = some .element) :
    Rooted f (f.root p) := by
  induction p using hf.induction_down with
  | top p hp =>
    rw [Forest.root_of_top hp]
    exact ⟨p, contextNode_eq_ok.2 (.inr ⟨.inl he, rfl⟩)⟩
  | below p q hp ih =>
    rw [hf.root_of_parent hp]
    have hc : p ∈ f.children q := hf.mem_children hp (by rw [he]; nofun)
    rcases Forest.WellFormed.class?_of_mem_children hc with hd | hq
    · rw [Forest.root_of_top (hf.parent?_of_document hd)]
      have hfound : (f.rootElement? q).isSome :=
        List.find?_isSome.2 ⟨p, hc, by rw [Forest.isElement, he]; rfl⟩
      obtain ⟨r, hr⟩ := Option.isSome_iff_exists.1 hfound
      exact ⟨r, contextNode_eq_ok.2 (.inl ⟨hd, hr⟩)⟩
    · exact ih hq

/-- What changes when the view of a tree is made, be it there or not: its nodes get new views, and
the views that there were stay views of their nodes. -/
structure Remade (f : Forest) (top : NodeId) (n n' : Navigator) : Prop where
  new : ∀ x, f.IsViewed x → f.root x = top →
    ∃ v, n.next ≤ v ∧ n'.views.lookup x = some v ∧ n'.nodes.lookup v = some x
  others : ∀ x, f.root x ≠ top → n'.views.lookup x = n.views.lookup x
  nodes : ∀ v < n.next, n'.nodes.lookup v = n.nodes.lookup v
  texts : ∀ s : Slot, s.view < n.next → n'.texts.lookup s = n.texts.lookup s

/-- A view that was there is no longer the view of its node. -/
theorem Remade.stale (h : Remade f top n n') (hx : f.IsViewed x) (hr : f.root x = top)
    (hv : n.nodes.lookup v = some x) (hlt : v < n.next) :
    n'.nodes.lookup v = some x ∧ n'.views.lookup x ≠ some v := by
  obtain ⟨w, hge, hw, -⟩ := h.new x hx hr
  refine ⟨(h.nodes v hlt).trans hv, fun hv' => ?_⟩
  obtain rfl := Option.some.inj (hw.symm.trans hv')
  exact Nat.not_lt.2 hge hlt

/-- An attribute or a text in a tree that can be shown has no view, but to ask for it makes the view
of the tree. -/
theorem run_viewOf_part (hf : f.WellFormed) (hid : f.IsPart id) (hp : f.parent? id = some p)
    (hbuild : ∀ n, ∃ n', (buildTop f.typeName (f.tree (f.root id))).run n = (.ok (), n'))
    (hv : n.views.lookup id = none) : ∃ n',
      (viewOf f id).run n = (.error (f.failureOn (.node id) .unrepresentable), n') ∧
        Remade f (f.root id) n n' := by
  rcases buildTop_cases f.typeName (f.tree (f.root id)) with ⟨ids, fault, -, hcourse⟩ | hmade
  · obtain ⟨m, hrun, -⟩ := hcourse.run_error n
    obtain ⟨n', hrun'⟩ := hbuild n
    cases hrun.symm.trans hrun'
  have hroot : Rooted f (f.root id) :=
    hf.root_of_parent hp ▸ rooted_of_isElement hf (hf.isElement_of_part hid hp)
  obtain ⟨m, n', hrun, hremembers, hsame⟩ := hmade n
  have hothers (x) (hx : x ∉ (f.tree (f.root id)).viewedTop) :
      n'.views.lookup x = n.views.lookup x := by
    rw [hsame.views, hremembers.views, views_rememberedAll_of_not_mem hx]
  have hmem {x} (hx : x ∈ (f.tree (f.root id)).viewedTop) : f.IsViewed x ∧ f.root x = f.root id := by
    obtain ⟨hviewed, hm⟩ := hf.isViewed_of_mem_viewedTop hx
    exact ⟨hviewed, (hf.root_of_mem_ids hm).trans (hf.root_root id)⟩
  refine ⟨n', run_viewOf_of_empty hid.class?_ne_document hv hrun ?_,
    fun x hx hr => ?_, fun x hx => hothers x fun hm => hx (hmem hm).2, fun v hlt => ?_,
    fun s hlt => ?_⟩
  · rw [hothers id fun hm => hid.not_isViewed (hmem hm).1, hv]
  · have hmade' : x ∈ (f.tree (f.root x)).viewedTop :=
      mem_viewedTop_of_rooted hf hx (hr ▸ hroot) (hr ▸ hmade)
    obtain ⟨v, hge, hviews, hnodes⟩ := exists_view_of_mem (hr ▸ hmade') n
    rw [← hremembers.views, ← hsame.views] at hviews
    rw [← hremembers.nodes, ← hsame.nodes] at hnodes
    exact ⟨v, hge, hviews, hnodes⟩
  · rw [hsame.nodes, hremembers.nodes, nodes_rememberedAll hlt]
  · rw [hsame.texts, hremembers.texts s nofun (.inl hlt)]

/-- An attribute or a text that is not in a tree can not be made a view of. -/
theorem run_viewOf_detached (hf : f.WellFormed) (hid : f.IsPart id) (hp : f.parent? id = none)
    (hv : n.views.lookup id = none) :
    (viewOf f id).run n = (.error (f.noMember (.node id) "target"), n) := by
  have hbuild : (buildTop f.typeName (f.tree (f.root id))).run n =
      (.error (f.noMember (.node id) "target"), n) := by
    rw [Forest.root_of_top hp, hf.tree_eq, Forest.WellFormed.layer]
    rw [Forest.noMember, Forest.typeName]
    rcases hid with h | h
    · obtain ⟨x, hx, hclass⟩ := Option.map_eq_some_iff.1 h
      cases x with
      | attr name value ns =>
        rw [h, hx]
        rfl
      | _ => cases hclass
    · obtain ⟨x, hx, hclass⟩ := Option.map_eq_some_iff.1 h
      cases x with
      | text value =>
        rw [h, hx]
        rfl
      | _ => cases hclass
  exact run_viewOf_of_error hid.class?_ne_document hv hbuild

end Navigator

end TreeQuery
