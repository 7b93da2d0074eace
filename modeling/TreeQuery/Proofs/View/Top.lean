import TreeQuery.Proofs.View.Building
import TreeQuery.Proofs.View.Tops

/-!
# Views of whole trees

A navigator that was bound to a node shows the whole tree of that node as its only document
(`Navigator.showsTree_of_bind`): all nodes at the top of the tree in their order.
-/

namespace TreeQuery.Navigator

open XPath (Branch)

variable {n n' m : Navigator} {f : Forest} {id top : NodeId}

theorem topShapes_of_ne_document {t : Tree} (h : ∀ i ts, t ≠ .document i ts) :
    t.topShapes = [t.shape] := by
  unfold Tree.topShapes
  split
  · exact absurd rfl (h _ _)
  · rfl

theorem topShapes_of_document (hf : f.WellFormed) (hd : f.class? top = some .document) :
    (f.tree top).topShapes = (f.children top).map fun c => (f.tree c).shape := by
  obtain ⟨cs, hx⟩ := Forest.exists_document hd
  rw [hf.tree_document hx, Tree.topShapes, Tree.shapeAll_eq, List.map_map,
    Forest.children_of_content? hx]
  rfl

theorem Made.shape {around : Surroundings} {b : Branch} (h : Made f around id m b)
    (hm : Mirrors f id) : m.shown f b = expected (f.tree id).shape := by
  obtain ⟨n₁, n₂, v, ht, hnew, hbuild, hknows, rfl⟩ := h
  exact (hm ht hnew hbuild).shape m hknows

/-- The views at the top of a tree show it. -/
theorem shape_tops (hf : f.WellFormed) (hn : ∀ x ∈ (f.tree top).ids, f.hasNames x = true)
    {d : ViewDocument}
    (h : List.Forall₂ (fun c v => Made f outerSurroundings c m (.ofView v)) (f.tops top) d) :
    (d.map Branch.ofView).map (m.shown f) = (f.tree top).topShapes.map expected := by
  by_cases hd : f.class? top = some .document
  · rw [topShapes_of_document hf hd, ← Forest.tops_of_document hd]
    have hmirrors (c) (hc : c ∈ f.tops top) : Mirrors f c := hf.mirrors fun x hx =>
      hn x (hf.ids_subset_of_child (Forest.tops_of_document hd ▸ hc) hx)
    generalize f.tops top = cs at h hmirrors
    induction h with
    | nil => rfl
    | cons hmade _ ih =>
      have hrest := ih fun c hc => hmirrors c (List.mem_cons_of_mem _ hc)
      rw [List.map_cons, List.map_cons, List.map_cons, List.map_cons, hrest,
        hmade.shape (hmirrors _ List.mem_cons_self)]
  · rw [Forest.tops_of_ne_document hd] at h
    obtain ⟨v, d, hmade, hd, rfl⟩ := List.forall₂_cons_left_iff.1 h
    obtain rfl := List.forall₂_nil_left_iff.1 hd
    have hno : ∀ i ts, f.tree top ≠ .document i ts := by
      obtain ⟨n₁, n₂, w, -, -, hbuild, -⟩ := hmade
      intro i ts ht
      rw [ht] at hbuild
      cases hbuild
    rw [topShapes_of_ne_document hno, List.map_singleton, List.map_singleton, List.map_singleton,
      hmade.shape (hf.mirrors hn)]

/-! ## Binding -/

/-- A navigator whose only document shows the tree below a node. -/
structure ShowsTree (f : Forest) (top : NodeId) (n : Navigator) (bs : List Branch) : Prop where
  tidy : Tidy n
  documents : XPath.documentsOf n.documents = [bs]
  shape : bs.map (n.shown f) = (f.tree top).topShapes.map expected
  accounts : ∀ x ∈ (f.tree top).ids, Accounts f n x
  made : ∀ b ∈ bs, ∃ c, (c = top ∨ c ∈ f.children top ∧ f.class? top = some .document) ∧
    Made f outerSurroundings c n b

theorem showsTree_of_bind (hf : f.WellFormed) {context : Value}
    (hc : contextNode f context = .ok id)
    (hn : ∀ x ∈ (f.tree (f.root id)).ids, f.hasNames x = true)
    (h : (Navigator.bind f context).run n = (.ok (), n')) :
    (∃ bs, ShowsTree f (f.root id) n' bs) ∧
      ∃ v, n'.context = some v ∧ n'.nodes.lookup v = some id := by
  obtain ⟨id', v, m, hid, hbuild, hv, rfl⟩ := bind_eq_ok h
  cases hc.symm.trans hid
  rcases buildTop_eq_ok hf (tidy_reset n) (fun _ _ => rfl) hbuild with ⟨rfl, -⟩ | htraces
  · cases hv
  · obtain ⟨d, hd, hmade⟩ := htraces.document
    have hknows : Knows m { m with
        context := some v
        scope := ((scopeElement? f id).map (scopeOf f)).getD [] } := ⟨fun hv => hv, fun hs => hs⟩
    replace hmade := hmade.imp fun _ _ hm => hm.mono hknows
    refine ⟨⟨d.map Branch.ofView, {
      tidy := ⟨htraces.tidy.nodes_lt, htraces.tidy.texts_lt, htraces.tidy.inverse⟩
      documents := ?_
      shape := shape_tops hf hn hmade
      accounts := fun x hx => (htraces.accounts hf hx).mono hknows
      made := fun b hb => ?_ }⟩,
      v, rfl, htraces.tidy.inverse.2 hv⟩
    · show XPath.documentsOf m.documents = _
      rw [hd]
      rfl
    · obtain ⟨w, hw, rfl⟩ := List.mem_map.1 hb
      obtain ⟨c, hc, hmade⟩ := exists_left_of_forall₂ hmade hw
      refine ⟨c, ?_, hmade⟩
      by_cases htop : f.class? (f.root id) = some .document
      · exact .inr ⟨Forest.tops_of_document htop ▸ hc, htop⟩
      · exact .inl (List.mem_singleton.1 (Forest.tops_of_ne_document htop ▸ hc))

end TreeQuery.Navigator
