import TreeQuery.Forest.Navigate
import TreeQuery.Proofs.View.Accepted
import TreeQuery.Proofs.View.Places

/-!
# Views mirror trees

The view of a tree of accepted nodes is the tree with its adjacent texts merged, and every part of
it is taken back to the node that it shows (`Navigator.mirrors_tree`). The string value of an
element of the view is that of its node.
-/

namespace TreeQuery

/-! ## String values -/

namespace Forest.WellFormed

variable {f : Forest} {id : NodeId}

/-- The string values of some nodes join to the text below them, if those of the elements are the
texts below these. -/
theorem join_childValues (hf : f.WellFormed) {cs : List NodeId}
    (hc : ∀ c ∈ cs, (∃ s, f.content? c = some (.text (.text s))) ∨ f.IsViewed c ∧
      (f.class? c = some .element →
        (f.tree c).stringValue f.typeName = .ok (.text (f.tree c).shape.textBelow))) :
    ∃ vs, Tree.childValues f.typeName (cs.map f.tree) = .ok vs ∧ ∀ k,
      Tree.join k f.typeName vs = .ok (Shape.textOf (Tree.shapeAll (cs.map f.tree))) := by
  induction cs with
  | nil => exact ⟨[], rfl, fun _ => rfl⟩
  | cons c cs ih =>
    obtain ⟨vs, hvs, hjoin⟩ := ih fun d hd => hc d (List.mem_cons_of_mem _ hd)
    rw [List.map_cons, Tree.shapeAll, Shape.textOf]
    rcases hc c List.mem_cons_self with ⟨s, hx⟩ | ⟨hv, he⟩
    · refine ⟨.text s :: vs, ?_, fun k => ?_⟩
      · rw [hf.tree_text hx, Tree.childValues, Tree.stringValue, hvs]
        rfl
      · rw [hf.tree_text hx, Tree.join, hjoin]
        rfl
    · rcases hv.content? with ⟨e, hx⟩ | ⟨v, hx⟩ | ⟨target, data, hx⟩
      · have htree := hf.tree_element hx
        have he := he (class?_of_content? hx)
        refine ⟨.text (f.tree c).shape.textBelow :: vs, ?_, fun k => ?_⟩
        · rw [htree] at he ⊢
          rw [Tree.childValues, he, hvs]
          rfl
        · rw [Tree.join, hjoin]
          rfl
      · refine ⟨vs, ?_, fun k => ?_⟩
        · simp [hf.tree_comment hx, Tree.childValues, hvs]
        · rw [hf.tree_comment hx, hjoin]
          exact congrArg _ (String.empty_append).symm
      · refine ⟨vs, ?_, fun k => ?_⟩
        · simp [hf.tree_instruction hx, Tree.childValues, hvs]
        · rw [hf.tree_instruction hx, hjoin]
          exact congrArg _ (String.empty_append).symm

/-- The string value of an element is the text below it. -/
theorem stringValue_eq (hf : f.WellFormed) {n : Navigator}
    (ha : ∀ x ∈ (f.tree id).ids, n.Accounts f x) (hid : f.class? id = some .element) :
    (f.tree id).stringValue f.typeName = .ok (.text (f.tree id).shape.textBelow) := by
  induction id using hf.induction_up with
  | _ id ih =>
    obtain ⟨e, hx⟩ := exists_element hid
    have hchildren (c) (hc : c ∈ e.children) :
        (∃ s, f.content? c = some (.text (.text s))) ∨ f.IsViewed c ∧
          (f.class? c = some .element →
            (f.tree c).stringValue f.typeName = .ok (.text (f.tree c).shape.textBelow)) := by
      have hc' : c ∈ f.children id := children_of_content? hx ▸ hc
      have hbelow (x) (hm : x ∈ (f.tree c).ids) := ha x (hf.ids_subset_of_child hc' hm)
      rcases hf.isViewed_or_text hid hc' with hv | ⟨v, hv⟩
      · exact .inr ⟨hv, ih c hc' hbelow⟩
      · have hself := hf.self_mem_ids (hf.class?_ne_attr_of_child hc')
        obtain ⟨s, rfl⟩ := (hbelow c hself).legible hv
        exact .inl ⟨s, hv⟩
    obtain ⟨vs, hvs, hjoin⟩ := hf.join_childValues hchildren
    rw [hf.tree_element hx, Tree.stringValue, hvs]
    show (Tree.join 0 f.typeName vs).map Value.text = _
    rw [hjoin, Tree.shape, Shape.textBelow, Shape.textOf_mergeTexts]
    rfl

end Forest.WellFormed

/-! ## Parts of views -/

namespace Navigator

open XPath

variable {f : Forest} {n : Navigator} {id top : NodeId}

theorem isText_shape_iff {b : Branch} : b.shape.isText = true ↔ ∃ slot s, b = .text slot s := by
  cases b with
  | text slot s => exact ⟨fun _ => ⟨slot, s, rfl⟩, fun _ => rfl⟩
  | _ => exact ⟨nofun, nofun⟩

/-- What shows an element is an element of the view with its name, its attributes and, its texts
merged, its children. -/
theorem shown_element {e : ElementData} {b : Branch} (hf : f.WellFormed)
    (he : f.content? id = some (.element e)) (h : n.shown f b = expected (f.tree id).shape) :
    ∃ v data cs, b = .element v data cs ∧ n.toTree f (.view v) = .ok (.node id) ∧
      data.name = ⟨e.ns.uri, e.name⟩ ∧
      data.attributes.map
          (fun a => (n.toTree f (.attr v a.name.clark a.value), a.name, a.value)) =
        (e.attributes.filterMap f.attr?).map
          (fun a => (.ok (.node a.id), (⟨a.ns.uri, a.name⟩ : ExpandedName), a.value)) ∧
      cs.map (n.shown f) = (Shape.mergeTexts (Tree.shapeAll (e.children.map f.tree))).map
        expected := by
  rw [hf.tree_element he, Tree.shape, expected, Shape.map, Shape.mapAll_eq, List.map_map] at h
  cases b with
  | element v data cs =>
    rw [shown, Branch.shape, Shape.map, Shape.mapAll_eq, Branch.shapeAll_eq, List.map_map,
      List.map_map] at h
    obtain ⟨hview, hname, hattributes, hchildren⟩ := Shape.element.inj h
    exact ⟨v, data, cs, rfl, hview, hname, hattributes, hchildren⟩
  | _ => cases h

/-- A part of a view that shows a node of the tree, or a text. -/
def ShowsPart (f : Forest) (top : NodeId) (n : Navigator) (b : Branch) : Prop :=
  (∃ slot s, b = .text slot s) ∨
    ∃ id ∈ (f.tree top).ids, f.IsViewed id ∧ n.shown f b = expected (f.tree id).shape

theorem showsPart_of_mem {cs : List Branch} {l : List (Shape NodeId)}
    (h : cs.map (n.shown f) = l.map expected)
    (hl : ∀ s ∈ l, s.isText = false →
      ∃ id ∈ (f.tree top).ids, f.IsViewed id ∧ s = (f.tree id).shape) :
    ∀ c ∈ cs, ShowsPart f top n c := by
  intro c hc
  have hm : n.shown f c ∈ l.map expected := h ▸ List.mem_map_of_mem hc
  obtain ⟨s, hs, he⟩ := List.mem_map.1 hm
  cases ht : s.isText with
  | true =>
    refine .inl (isText_shape_iff.1 ?_)
    rw [← Shape.isText_map (n.toTree f), ← ht,
      ← Shape.isText_map (fun i => Except.ok (Value.node i))]
    exact congrArg Shape.isText he.symm
  | false =>
    obtain ⟨id, hid, hv, rfl⟩ := hl s hs ht
    exact .inr ⟨id, hid, hv, he.symm⟩

theorem ShowsPart.child (hf : f.WellFormed) {v : ViewId} {data : ViewElement} {cs : List Branch}
    (h : ShowsPart f top n (.element v data cs)) : ∀ c ∈ cs, ShowsPart f top n c := by
  rcases h with ⟨_, _, ht⟩ | ⟨id, hid, hv, hshown⟩
  · cases ht
  · rcases hv.content? with ⟨e, hx⟩ | ⟨value, hx⟩ | ⟨target, text, hx⟩
    · obtain ⟨_, _, _, hb, -, -, -, hchildren⟩ := shown_element hf hx hshown
      cases hb
      refine showsPart_of_mem hchildren fun s hs ht => ?_
      have hmem : s ∈ (Tree.shapeAll (e.children.map f.tree)).filter (!·.isText) := by
        rw [← Shape.filter_mergeTexts (by simp), List.mem_filter]
        exact ⟨hs, by rw [ht]; rfl⟩
      rw [Tree.shapeAll_eq, List.map_map] at hmem
      obtain ⟨c, hc, rfl⟩ := List.mem_map.1 (List.mem_of_mem_filter hmem)
      have hc' : c ∈ f.children id := Forest.children_of_content? hx ▸ hc
      rcases hf.isViewed_or_text (Forest.class?_of_content? hx) hc' with hv | ⟨value, hx⟩
      · exact ⟨c, hf.mem_ids_of_child hc' top hid, hv, rfl⟩
      · rw [Function.comp, hf.tree_text hx] at ht
        cases ht
    · rw [hf.tree_comment hx] at hshown
      cases hshown
    · rw [hf.tree_instruction hx] at hshown
      cases hshown

theorem ShowsTree.showsPart {bs : List Branch} (hf : f.WellFormed) (h : ShowsTree f top n bs)
    (htop : f.IsViewed top ∨ f.class? top = some .document) {path : List Nat} {x : XNode}
    (hx : nodeAt? [bs] 0 path = some x) : ∀ b ∈ x.branches, ShowsPart f top n b := by
  refine node_induction (motive := fun _ x => ∀ b ∈ x.branches, ShowsPart f top n b) ?_
    (fun path p i c _ hp hc b hb => ?_) path x hx
  · refine showsPart_of_mem h.shape fun s hs _ => ?_
    rcases htop with hv | hd
    · rw [topShapes_of_ne_document fun _ _ => hf.tree_ne_document hv, List.mem_singleton] at hs
      exact ⟨top, hf.self_mem_ids hv.class?_ne_attr, hv, hs⟩
    · rw [topShapes_of_document hf hd] at hs
      obtain ⟨c, hc, rfl⟩ := List.mem_map.1 hs
      have htop : f.class? top ≠ some .attr := by
        rw [hd]
        nofun
      exact ⟨c, hf.mem_ids_of_child hc top (hf.self_mem_ids htop),
        hf.isViewed_of_document hd hc, rfl⟩
  · rw [XNode.getElem?_children] at hc
    obtain ⟨d, hd, rfl⟩ := Option.map_eq_some_iff.1 hc
    have hpart := hp d (List.mem_of_getElem? hd)
    cases d with
    | element v data cs => exact hpart.child hf b hb
    | _ => cases hb

/-- Every element of the view of a tree shows an element of the tree. -/
theorem ShowsTree.showsElement {bs : List Branch} (hf : f.WellFormed) (h : ShowsTree f top n bs)
    (htop : f.IsViewed top ∨ f.class? top = some .document) {path : List Nat} {x : XNode}
    {v : ViewId} {data : ViewElement} {cs : List Branch} (hx : nodeAt? [bs] 0 path = some x)
    (hitem : x.item = .branch (.element v data cs)) :
    ∃ id ∈ (f.tree top).ids, f.class? id = some .element ∧ n.toTree f (.view v) = .ok (.node id) ∧
      n.shown f (.element v data cs) = expected (f.tree id).shape := by
  obtain ⟨path', p, hp, hmem⟩ := exists_parent hx hitem
  rcases h.showsPart hf htop hp _ hmem with ⟨_, _, ht⟩ | ⟨id, hid, hv, hshown⟩
  · cases ht
  · rcases hv.content? with ⟨e, he⟩ | ⟨value, he⟩ | ⟨target, text, he⟩
    · obtain ⟨_, _, _, hb, hview, -⟩ := shown_element hf he hshown
      cases hb
      exact ⟨id, hid, Forest.class?_of_content? he, hview, hshown⟩
    · rw [hf.tree_comment he] at hshown
      cases hshown
    · rw [hf.tree_instruction he] at hshown
      cases hshown

theorem mem_mergeTexts_of_child {e : ElementData} {c : NodeId} (hf : f.WellFormed)
    (he : f.content? id = some (.element e)) (hc : c ∈ f.children id) (hv : f.IsViewed c) :
    (f.tree c).shape ∈ Shape.mergeTexts (Tree.shapeAll (e.children.map f.tree)) := by
  have hno : (f.tree c).shape.isText = false := by
    rcases hv.content? with ⟨y, hy⟩ | ⟨y, hy⟩ | ⟨y, z, hy⟩
    · rw [hf.tree_element hy]
      rfl
    · rw [hf.tree_comment hy]
      rfl
    · rw [hf.tree_instruction hy]
      rfl
  refine List.mem_of_mem_filter (p := (!·.isText)) ?_
  rw [Shape.filter_mergeTexts (by simp), Tree.shapeAll_eq, List.map_map, List.mem_filter, hno]
  rw [Forest.children_of_content? he] at hc
  exact ⟨List.mem_map.2 ⟨c, hc, rfl⟩, rfl⟩

/-- Every node of a tree that has a view of its own is shown in the view of the tree. -/
theorem ShowsTree.exists_node {bs : List Branch} {r : NodeId} (hf : f.WellFormed)
    (h : ShowsTree f top n bs) (htop : contextNode f (.node top) = .ok r) (hid : f.root id = top)
    (hv : f.IsViewed id) :
    ∃ path x b, nodeAt? [bs] 0 path = some x ∧ x.item = .branch b ∧
      n.shown f b = expected (f.tree id).shape := by
  have hfind {path : List Nat} {p : XNode} {l : List (Shape NodeId)} {s : Shape NodeId}
      (hp : nodeAt? [bs] 0 path = some p) (hbranches : p.branches.map (n.shown f) = l.map expected)
      (hs : s ∈ l) : ∃ path x b, nodeAt? [bs] 0 path = some x ∧ x.item = .branch b ∧
        n.shown f b = expected s := by
    have hm : expected s ∈ p.branches.map (n.shown f) := hbranches ▸ List.mem_map_of_mem hs
    obtain ⟨b, hb, hshown⟩ := List.mem_map.1 hm
    obtain ⟨path', x, hx, hitem⟩ := exists_child hp hb
    exact ⟨path', x, b, hx, hitem, hshown⟩
  have hdocument : nodeAt? [bs] 0 [] = some (documentNode [bs] 0) := rfl
  induction id using hf.induction_down with
  | top id hp =>
    obtain rfl : id = top := (Forest.root_of_top hp).symm.trans hid
    refine hfind hdocument h.shape ?_
    rw [topShapes_of_ne_document fun _ _ => hf.tree_ne_document hv]
    exact List.mem_singleton_self _
  | below id p hp ih =>
    have hc := hf.mem_children hp hv.class?_ne_attr
    have hroot : f.root p = top := (hf.root_of_parent hp).symm.trans hid
    rcases Forest.WellFormed.class?_of_mem_children hc with hd | he
    · obtain rfl : p = top := (Forest.root_of_top (hf.parent?_of_document hd)).symm.trans hroot
      refine hfind hdocument h.shape ?_
      rw [topShapes_of_document hf hd]
      exact List.mem_map.2 ⟨id, hc, rfl⟩
    · obtain ⟨path, x, b, hx, hitem, hshown⟩ := ih hroot (.inl he)
      obtain ⟨e, he⟩ := Forest.exists_element he
      obtain ⟨v, data, cs, rfl, -, -, -, hchildren⟩ := shown_element hf he hshown
      have hbranches : x.branches = cs := by
        rw [XNode.branches, hitem]
        rfl
      exact hfind hx (hbranches ▸ hchildren) (mem_mergeTexts_of_child hf he hc hv)

/-- The view of a tree is the tree with its adjacent texts merged, and each of its parts is taken
back to the node that it shows. -/
theorem mirrors_tree (hb : f.Built) {context : Value} {r : NodeId}
    (hc : contextNode f context = .ok id) (htop : contextNode f (.node (f.root id)) = .ok r)
    (ha : ∀ x ∈ (f.tree (f.root id)).ids, f.isAccepted x = true) (n : Navigator) :
    ∃ n' bs, (Navigator.bind f context).run n = (.ok (), n') ∧ documentsOf n'.documents = [bs] ∧
      bs.map (n'.shown f) = (f.tree (f.root id)).topShapes.map expected ∧
      (∀ x ∈ (f.tree (f.root id)).ids, f.IsViewed x →
        ∃ v, n'.views.lookup x = some v ∧ ∀ u, n'.toTree f (.view u) = .ok (.node x) ↔ u = v) ∧
      ∀ path x v data cs, nodeAt? [bs] 0 path = some x → x.item = .branch (.element v data cs) →
        ∃ e, n'.toTree f (.view v) = .ok (.node e) ∧
          f.stringValueOf (.node e) = .ok (.text x.stringValue) := by
  have hf := hb.wellFormed
  obtain ⟨n', hbind⟩ := bind_succeeds hf hc htop ha n
  obtain ⟨⟨bs, hshow⟩, -⟩ :=
    showsTree_of_bind hf hc (fun x hx => Forest.hasNames_of_isAccepted (ha x hx)) hbind
  refine ⟨n', bs, hbind, hshow.documents, hshow.shape, fun x hx hv => ?_,
    fun path x v data cs hx hitem => ?_⟩
  · obtain ⟨v, hv⟩ := (hshow.accounts x hx).viewed hv
    refine ⟨v, hshow.tidy.inverse.1 hv, fun u => ?_⟩
    rw [toTree_view_iff, hshow.tidy.inverse, hshow.tidy.inverse.1 hv, Option.some.injEq, eq_comm]
  · have htop := (contextNode_eq_ok.1 htop).symm.imp And.left And.left
    obtain ⟨e, he, hclass, hview, hshown⟩ := hshow.showsElement hf htop hx hitem
    refine ⟨e, hview, ?_⟩
    have haccounts (y) (hy : y ∈ (f.tree e).ids) : Accounts f n' y :=
      hshow.accounts y (hf.ids_subset_of_mem he hy)
    rw [Forest.stringValueOf, hf.stringValue_eq haccounts hclass, XNode.stringValue, hitem,
      ← Shape.textBelow_map (fun i => Except.ok (Value.node i)), ← expected, ← hshown, shown,
      Shape.textBelow_map, Branch.textBelow_shape]

/-- A document with a comment before its root element and an instruction after it. Of two adjacent
texts the first is empty. -/
theorem mirrors_tree_mixed :
    let p : Namespace := ⟨"p", "u", by decide, by decide, by decide⟩
    let f : Forest := ⟨#[⟨none, .document [1, 2, 8]⟩, ⟨some 0, .comment (.text "c")⟩,
      ⟨some 0, .element ⟨"r", Namespace.none, [], [3], [4, 5, 6, 7]⟩⟩, ⟨some 2, .attr "a" "v" p⟩,
      ⟨some 2, .text (.text "")⟩, ⟨some 2, .text (.text "x")⟩,
      ⟨some 2, .element ⟨"e", p, [], [], []⟩⟩, ⟨some 2, .text (.text "y")⟩, ⟨some 0, .instruction "t" "d"⟩]⟩
    ∃ n bs, (Navigator.bind f (.node 0)).run {} = (.ok (), n) ∧ documentsOf n.documents = [bs] ∧
      bs.map (n.shown f) = [.comment (.ok (.node 1)) "c",
        .element (.ok (.node 2)) ⟨"", "r"⟩ [(.ok (.node 3), ⟨"u", "a"⟩, "v")]
          [.text (.ok (.node 5)) "x", .element (.ok (.node 6)) ⟨"u", "e"⟩ [] [],
            .text (.ok (.node 7)) "y"],
        .instruction (.ok (.node 8)) "t" "d"] := by
  intro p f
  have hbuilt : f.Built := by
    have h := Forest.Built.comment (.text "c")
      (.document .empty (rfl : Forest.empty.newDocument .none = .ok (_, 0)))
    have h := h.element (rfl : Forest.newElement _ (some "r") Namespace.none = .ok (_, 2))
    have h := h.setAttribute (rfl : Forest.setAttribute _ 2 (some "a") (.text "v") p = .ok (_, 3))
    have h := (h.text (.text "")).text (.text "x")
    have h := h.element (rfl : Forest.newElement _ (some "e") p = .ok (_, 6))
    have h := (h.text (.text "y")).instruction
      (rfl : Forest.newInstruction _ (some "t") "d" = .ok (_, 8))
    have h := (h.extend 2 [.node 4, .node 5, .node 6, .node 7]).extend 0 [.node 1, .node 2, .node 8]
    cbv at h
    exact h
  obtain ⟨n, bs, hbind, hdocuments, hshape, -⟩ := mirrors_tree hbuilt
    (rfl : contextNode f (.node 0) = .ok 2) (rfl : contextNode f (.node 0) = .ok 2) (by decide) {}
  exact ⟨n, bs, hbind, hdocuments, hshape⟩

end Navigator

end TreeQuery
