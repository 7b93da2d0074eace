import TreeQuery.Proofs.Path.Parsed
import TreeQuery.Proofs.Path.Step
import TreeQuery.XPath.Program

/-!
# What absolute paths select

The path to a node goes down the elements around it, each of which is selected alone, so the path
leads to one node of the view alone, and this one is taken back to the node. The text of the path is
read as an expression with this node for its value (`Selects`). Main statement:
`Navigator.absolutePath_selects`.
-/

namespace TreeQuery

open XPath

namespace Forest

variable {f : Forest} {id p : NodeId} {e : ElementData}

/-- The path to the parent of a node. -/
def pathBefore (f : Forest) (id : NodeId) : AbsolutePath :=
  ((f.parent? id).map f.elementPath).getD []

theorem absolutePath_eq (hd : f.class? id ≠ some .document) (ha : f.class? id ≠ some .attr) :
    f.absolutePath (.node id) = (f.step id).map fun s => f.pathBefore id ++ [s] := by
  unfold absolutePath
  dsimp only
  split
  · next hx => exact absurd (class?_of_content? hx) hd
  · next hx => exact absurd (class?_of_content? hx) ha
  · rfl

theorem elementPath_of_not_element (h : f.isElement id = false) : f.elementPath id = [] := by
  rw [elementPath, elementChain_of_not_element h]
  rfl

theorem WellFormed.elementPath_eq (hf : f.WellFormed) (he : f.content? id = some (.element e)) :
    f.elementPath id = f.pathBefore id ++ [f.elementStep id e] := by
  have helement := isElement_of_content? he
  have hdata : f.element? id = some e := by
    rw [element?, he]
  have hlast : [id].filterMap (fun a => (f.element? a).map (f.elementStep a)) =
      [f.elementStep id e] := by
    simp [hdata]
  rw [elementPath, elementChain, List.takeWhile_cons_of_pos helement, List.reverse_cons,
    List.filterMap_append, hlast, pathBefore]
  cases hp : f.parent? id with
  | none =>
    rw [ancestors_of_top hp]
    rfl
  | some p =>
    rw [hf.ancestors_of_parent hp]
    rfl

/-- A node has a path unless it is a text whose run holds nothing or an attribute of no element. -/
theorem WellFormed.absolutePath_eq_error {fault : Failure} (hf : f.WellFormed)
    (hid : (f.content? id).isSome = true) :
    f.absolutePath (.node id) = .error fault ↔
      f.isText id = true ∧ (f.parent? id).isSome = true ∧
        (f.textRun id).any f.hasText = false ∧ fault = f.failureOn (.node id) .noText ∨
      f.class? id = some .attr ∧ f.parent? id = none ∧ fault = f.failureOn (.node id) .detached := by
  obtain ⟨x, hx⟩ := Option.isSome_iff_exists.1 hid
  have hclass := class?_of_content? hx
  cases x with
  | document cs => simp [absolutePath, hx, isText, hclass, Content.nodeClass]
  | attr name value ns =>
    have hno : f.isText id = false := by
      rw [isText, hclass]
      rfl
    cases hp : f.parent? id with
    | none =>
      simp only [absolutePath, hx, hp, hno, hclass, Except.error.injEq, Content.nodeClass,
        Bool.false_eq_true, false_and, true_and, false_or]
      exact eq_comm
    | some p => simp [absolutePath, hx, hp, hno]
  | text v =>
    have htext := isText_of_content? hx
    have hattr : f.class? id ≠ some .attr := class?_ne_of_content? hx (by rintro ⟨⟩)
    rw [absolutePath_eq (class?_ne_of_content? hx (by rintro ⟨⟩)) hattr, step, hx]
    cases hp : f.parent? id with
    | none => simp [textPosition, hp, Except.map, hattr]
    | some p =>
      have hc : id ∈ f.children p := hf.mem_children hp hattr
      cases hr : (f.textRun id).any f.hasText with
      | true =>
        obtain ⟨position, hposition, -⟩ := hf.textPosition_eq_ok hp hc htext hr
        simp [hposition, Except.map, hattr]
      | false =>
        simp only [textPosition_eq_error hp hc htext hf hr, Except.map, htext, hattr,
          Except.error.injEq, Option.isSome_some, false_and, or_false, true_and]
        exact eq_comm
  | element | comment | instruction =>
    rw [absolutePath_eq (class?_ne_of_content? hx (by rintro ⟨⟩))
      (class?_ne_of_content? hx (by rintro ⟨⟩)), step, hx]
    simp [Except.map, isText, hclass, Content.nodeClass]

theorem kind_noText {s : String} (hx : f.content? id = some (.text (.text s))) :
    (f.failureOn (.node id) .noText).kind = .value := by
  have hs : f.shown (.node id) = .ok ("<Text " ++ Text.quote s ++ ">") := by
    rw [shown, Value.shown, shownNode, shownUpTo, hx]
    rfl
  rw [failureOn_of_shown hs]
  rfl

theorem kind_detached (ha : f.class? id = some .attr) :
    (f.failureOn (.node id) .detached).kind = .type := by
  obtain ⟨name, value, ns, hx⟩ := exists_attr ha
  have hs : f.shown (.node id) =
      .ok ("<Attribute " ++ Namespace.clark ns.uri name ++ "=" ++ Text.quote value ++ ">") := by
    rw [shown, Value.shown, shownNode, shownUpTo, hx]
    rfl
  rw [failureOn_of_shown hs]
  rfl

theorem WellFormed.filter_attributes {a : Attr} (hf : f.WellFormed)
    (he : f.content? p = some (.element e)) (hid : id ∈ e.attributes) (ha : f.attr? id = some a) :
    (e.attributes.filterMap f.attr?).filter
      (fun b => (nameTest a.name a.ns).acceptsName ⟨b.ns.uri, b.name⟩) = [a] := by
  have hnodup : (e.attributes.filterMap f.attr?).Nodup := by
    have hattributes := hf.nodup_attributes p
    rw [attributes_of_content? he] at hattributes
    refine List.Nodup.filterMap (fun c d b hc hd => ?_) hattributes
    rw [← (content?_of_attr? hc).1, ← (content?_of_attr? hd).1]
  have hmem (b : Attr) : b ∈ (e.attributes.filterMap f.attr?).filter
      (fun b => (nameTest a.name a.ns).acceptsName ⟨b.ns.uri, b.name⟩) ↔ b ∈ [a] := by
    rw [List.mem_filter, List.mem_filterMap, List.mem_singleton, acceptsName_nameTest,
      Bool.and_eq_true, beq_iff_eq, beq_iff_eq]
    constructor
    · rintro ⟨⟨c, hc, hb⟩, hname, huri⟩
      obtain rfl :=
        hf.attribute_name (mem_attributes he hid) (mem_attributes he hc) ha hb hname huri
      exact (Option.some.inj (ha.symm.trans hb)).symm
    · rintro rfl
      exact ⟨⟨id, hid, ha⟩, rfl, rfl⟩
  have hperm := (List.perm_ext_iff_of_nodup (hnodup.filter _) (List.nodup_singleton a)).2 hmem
  exact hperm.eq_singleton

/-! ## Names in paths -/

section Names

variable {s : PathStep} {name : String}

/-- The name of an element or an attribute, or the target of an instruction. -/
def name? (f : Forest) (id : NodeId) : Option String :=
  match f.content? id with
  | some (.element e) => some e.name
  | some (.attr name _ _) => some name
  | some (.instruction target _) => some target
  | _ => none

theorem name_of_nameTest {ns : Namespace} {n : String} (h : name ∈ (nameTest n ns).name?) :
    name = n := by
  unfold nameTest at h
  split at h
  · exact (Option.some_inj.1 h).symm
  · cases h

theorem name_of_step (hs : f.step id = .ok s) (hn : name ∈ s.name?) : f.name? id = some name := by
  unfold step at hs
  unfold name?
  split at hs
  · next e he =>
    cases hs
    rw [he, name_of_nameTest hn]
  · cases hs
    cases hn
  · next target data hx =>
    cases hs
    rw [hx]
    exact hn
  · obtain ⟨position, -, rfl⟩ := map_eq_ok hs
    cases hn
  · cases hs

/-- The last step of a path is that of the node, unless the node is a document. -/
theorem absolutePath_eq_ok {path : AbsolutePath} (h : f.absolutePath (.node id) = .ok path) :
    f.class? id = some .document ∧ path = [] ∨ f.class? id ≠ some .document ∧
      ∃ s, path = f.pathBefore id ++ [s] ∧ ∀ name ∈ s.name?, f.name? id = some name := by
  by_cases hd : f.class? id = some .document
  · obtain ⟨children, hx⟩ := exists_document hd
    rw [absolutePath, hx] at h
    exact .inl ⟨hd, (Except.ok.inj h).symm⟩
  · refine .inr ⟨hd, ?_⟩
    by_cases ha : f.class? id = some .attr
    · obtain ⟨n, value, ns, hx⟩ := exists_attr ha
      rw [absolutePath, hx] at h
      cases hp : f.parent? id with
      | none =>
        rw [hp] at h
        cases h
      | some p =>
        rw [hp] at h
        cases h
        refine ⟨.attr (nameTest n ns), by rw [pathBefore, hp]; rfl, fun name hn => ?_⟩
        rw [name?, hx, name_of_nameTest hn]
    · rw [absolutePath_eq hd ha] at h
      obtain ⟨s, hs, rfl⟩ := map_eq_ok h
      exact ⟨s, rfl, fun name hn => name_of_step hs hn⟩

namespace WellFormed

theorem name_of_pathBefore (hf : f.WellFormed) (hs : s ∈ f.pathBefore id) (hn : name ∈ s.name?) :
    ∃ x, f.root x = f.root id ∧ f.name? x = some name := by
  induction id using hf.induction_down with
  | top id hp =>
    rw [pathBefore, hp] at hs
    cases hs
  | below id p hp ih =>
    have hbefore : f.pathBefore id = f.elementPath p := by
      rw [pathBefore, hp]
      rfl
    rw [hbefore] at hs
    rw [hf.root_of_parent hp]
    cases he : f.isElement p with
    | false =>
      rw [elementPath_of_not_element he] at hs
      cases hs
    | true =>
      obtain ⟨e, hx⟩ := exists_element (eq_of_beq he)
      rw [hf.elementPath_eq hx] at hs
      rcases List.mem_append.1 hs with hs | hs
      · exact ih hs
      · have hstep : f.step p = .ok s := by
          rw [step, hx, List.mem_singleton.1 hs]
        exact ⟨p, rfl, name_of_step hstep hn⟩

theorem name_of_path (hf : f.WellFormed) {path : AbsolutePath}
    (h : f.absolutePath (.node id) = .ok path) (hs : s ∈ path) (hn : name ∈ s.name?) :
    ∃ x, f.root x = f.root id ∧ f.name? x = some name := by
  rcases absolutePath_eq_ok h with ⟨-, rfl⟩ | ⟨-, last, rfl, hlast⟩
  · cases hs
  · rcases List.mem_append.1 hs with hs | hs
    · exact hf.name_of_pathBefore hs hn
    · obtain rfl := List.mem_singleton.1 hs
      exact ⟨id, rfl, hlast name hn⟩

theorem isName_of_name? (hf : f.WellFormed) {top : NodeId}
    (hn : ∀ x ∈ (f.tree top).ids, f.hasNames x = true) (htop : f.class? top ≠ some .attr)
    (hid : f.root id = top) (hname : f.name? id = some name) : Text.isName name.toList = true := by
  have hmem {x : NodeId} (hx : f.root x = top) (ha : f.class? x ≠ some .attr) :
      f.hasNames x = true := hn x (hx ▸ hf.mem_ids_root ha)
  unfold name? at hname
  split at hname
  · next e he =>
    cases hname
    have hnames := hmem hid (class?_ne_of_content? he (by rintro ⟨⟩))
    rw [hasNames, he, Bool.and_eq_true] at hnames
    exact hnames.1
  · next name value ns hx =>
    cases hname
    have ha : f.class? id = some .attr := class?_of_content? hx
    cases hp : f.parent? id with
    | none => exact absurd ha (((root_of_top hp).symm.trans hid) ▸ htop)
    | some p =>
      have hattr : id ∈ f.attributes p :=
        (hf.listed hp).resolve_left fun hc => hf.class?_ne_attr_of_child hc ha
      obtain ⟨e, he, hlisted⟩ := exists_content?_of_attribute hattr
      obtain ⟨a, hdata, -⟩ := hf.attribute_data hattr
      have hnames := hmem ((hf.root_of_parent hp).symm.trans hid)
        (class?_ne_of_content? he (by rintro ⟨⟩))
      rw [hasNames, he, Bool.and_eq_true, List.all_eq_true] at hnames
      have hwhole := (content?_of_attr? hdata).2
      rw [hx] at hwhole
      cases hwhole
      exact hnames.2 a (List.mem_filterMap.2 ⟨id, hlisted, hdata⟩)
  · next target data hx =>
    cases hname
    have hnames := hmem hid (class?_ne_of_content? hx (by rintro ⟨⟩))
    rwa [hasNames, hx] at hnames
  · cases hname

end WellFormed

end Names

end Forest

namespace Navigator

variable {f : Forest} {n : Navigator} {id p top : NodeId} {bs : List Branch} {s : PathStep}

/-- A node of the view below which the siblings of a node are shown. -/
structure ShowsSiblings (f : Forest) (n : Navigator) (id : NodeId) (x : XNode) : Prop where
  document : x.place.document = 0
  branches : x.branches.map (n.shown f) = (f.siblingShapes id).map expected

/-- A node of the view that shows a shape. -/
structure ShowsShape (f : Forest) (n : Navigator) (t : Shape NodeId) (x : XNode) : Prop where
  document : x.place.document = 0
  item : ∃ b, x.item = .branch b ∧ n.shown f b = expected t

/-- Which nodes are shown together with a node, and that the node is one of them. -/
structure HasContent (f : Forest) (id : NodeId) : Prop where
  mem : id ∈ f.siblings id
  content : ∀ d ∈ f.siblings id, f.IsContent d

theorem class?_ne_attr_of_contextNode {r : NodeId} (h : contextNode f (.node top) = .ok r) :
    f.class? top ≠ some .attr := by
  rcases contextNode_eq_ok.1 h with ⟨hd, -⟩ | ⟨hv, -⟩
  · rw [hd]
    nofun
  · exact hv.class?_ne_attr

theorem showsSiblings_document (hf : f.WellFormed) (h : ShowsTree f top n bs)
    (hid : f.parent? id = none ∧ id = top ∧ f.IsViewed id ∨
      f.parent? id = some top ∧ f.class? top = some .document) :
    ShowsSiblings f n id (documentNode [bs] 0) := by
  refine ⟨rfl, ?_⟩
  show bs.map (n.shown f) = _
  have hno {c : NodeId} (hv : f.IsViewed c) : (f.tree c).shape.isText = false :=
    (hf.isText_shape (.inl hv)).trans (Forest.isText_of_isViewed hv)
  rw [h.shape, Forest.siblingShapes]
  rcases hid with ⟨hp, rfl, hv⟩ | ⟨hp, hd⟩
  · rw [Forest.siblings_of_top hp, topShapes_of_ne_document fun _ _ => hf.tree_ne_document hv,
      Shape.mergeTexts_eq_self]
    · rfl
    · exact fun s hs => List.mem_singleton.1 hs ▸ hno hv
  · rw [Forest.siblings_of_parent hp, topShapes_of_document hf hd, Shape.mergeTexts_eq_self]
    exact List.forall_mem_map.2 fun c hc => hno (hf.isViewed_of_document hd hc)

theorem ShowsShape.showsSiblings {x : XNode} {e : ElementData} (hf : f.WellFormed)
    (hp : f.parent? id = some p) (he : f.content? p = some (.element e))
    (h : ShowsShape f n (f.tree p).shape x) : ShowsSiblings f n id x := by
  obtain ⟨b, hb, hshown⟩ := h.item
  obtain ⟨v, data, cs, rfl, -, -, -, hchildren⟩ := shown_element hf he hshown
  refine ⟨h.document, ?_⟩
  rw [Forest.siblingShapes, Forest.siblings_of_parent hp, Forest.children_of_content? he,
    XNode.branches, hb]
  rw [Tree.shapeAll_eq, List.map_map] at hchildren
  exact hchildren

/-- A node below which siblings are shown leads to one node alone by the step to one of them. -/
theorem ShowsSiblings.select {x : XNode} {t : Shape NodeId} (ds : Documents)
    (h : ShowsSiblings f n id x) (hs : s.axis = .child)
    (ht : pick s.position? ((f.siblingShapes id).filter s.acceptsShape) = [t]) :
    ∃ y, s.select ds x = [y] ∧ ShowsShape f n t y := by
  obtain ⟨y, b, hy, hdocument, hb, hshown⟩ := PathStep.select_eq_singleton hs h.branches ht
  exact ⟨y, hy, hdocument.trans h.document, b, hb, hshown⟩

/-- Where the siblings of an element are shown, the path to the element leads to it. -/
theorem leads_elementPath {e : ElementData} (hf : f.WellFormed)
    (he : f.content? id = some (.element e)) (hc : HasContent f id)
    (hbefore : ∃ x, (f.pathBefore id).Leads [bs] x ∧ ShowsSiblings f n id x) :
    ∃ y, (f.elementPath id).Leads [bs] y ∧ ShowsShape f n (f.tree id).shape y := by
  obtain ⟨x, hx, hshow⟩ := hbefore
  have hv : f.IsViewed id := .inl (Forest.class?_of_content? he)
  have hs : f.step id = .ok (f.elementStep id e) := by
    rw [Forest.step, he]
  obtain ⟨haxis, -⟩ := Forest.step_of_isViewed hv hs
  obtain ⟨y, hy, hshape⟩ := hshow.select [bs] haxis (hf.pick_viewed hv hs hc.mem hc.content)
  rw [hf.elementPath_eq he]
  exact ⟨y, hx.step hy, hshape⟩

/-- A node that is no attribute is one of its siblings, and all of them can be shown. -/
theorem ShowsTree.hasContent {r : NodeId} (hf : f.WellFormed) (h : ShowsTree f top n bs)
    (htop : contextNode f (.node top) = .ok r) (hid : f.root id = top)
    (hd : f.class? id ≠ some .document) (ha : f.class? id ≠ some .attr) : HasContent f id := by
  cases hp : f.parent? id with
  | none =>
    obtain rfl : id = top := (Forest.root_of_top hp).symm.trans hid
    have hv : f.IsViewed id :=
      ((contextNode_eq_ok.1 htop).resolve_left fun hdoc => hd hdoc.1).1
    refine ⟨?_, fun d hm => ?_⟩ <;> rw [Forest.siblings_of_top hp] at *
    · exact List.mem_cons_self
    · exact List.mem_singleton.1 hm ▸ .inl hv
  | some p =>
    have hc : id ∈ f.children p := hf.mem_children hp ha
    refine ⟨?_, fun d hm => ?_⟩ <;> rw [Forest.siblings_of_parent hp] at *
    · exact hc
    · rcases Forest.WellFormed.class?_of_mem_children hc with hdoc | helement
      · exact .inl (hf.isViewed_of_document hdoc hm)
      · refine (hf.isViewed_or_text helement hm).imp_right fun ⟨v, hv⟩ => ?_
        have hroot : f.root d = top := by
          rw [hf.root_of_parent (hf.parent_of_child hm), ← hf.root_of_parent hp, hid]
        have hmem := hf.mem_ids_root (hf.class?_ne_attr_of_child hm)
        obtain ⟨s, rfl⟩ := (h.accounts d (hroot ▸ hmem)).legible hv
        exact ⟨s, hv⟩

/-- Before every node of a tree its path leads to the node of the view below which its siblings are
shown. -/
theorem ShowsTree.leads_pathBefore {r : NodeId} (hf : f.WellFormed) (h : ShowsTree f top n bs)
    (htop : contextNode f (.node top) = .ok r) (hid : f.root id = top)
    (hd : f.class? id ≠ some .document) :
    ∃ x, (f.pathBefore id).Leads [bs] x ∧ ShowsSiblings f n id x := by
  induction id using hf.induction_down with
  | top id hp =>
    obtain rfl : id = top := (Forest.root_of_top hp).symm.trans hid
    have hv : f.IsViewed id :=
      ((contextNode_eq_ok.1 htop).resolve_left fun hdoc => hd hdoc.1).1
    refine ⟨documentNode [bs] 0, ?_, showsSiblings_document hf h (.inl ⟨hp, rfl, hv⟩)⟩
    rw [Forest.pathBefore, hp]
    exact .root
  | below id p hp ih =>
    have hbefore : f.pathBefore id = f.elementPath p := by
      rw [Forest.pathBefore, hp]
      rfl
    have hroot : f.root p = top := (hf.root_of_parent hp).symm.trans hid
    have hclass : f.class? p = some .document ∨ ∃ e, f.content? p = some (.element e) := by
      rcases hf.listed hp with hc | ha
      · exact (Forest.WellFormed.class?_of_mem_children hc).imp_right Forest.exists_element
      · obtain ⟨e, he, -⟩ := Forest.exists_content?_of_attribute ha
        exact .inr ⟨e, he⟩
    rw [hbefore]
    rcases hclass with hdoc | ⟨e, he⟩
    · have htop' : p = top := (Forest.root_of_top (hf.parent?_of_document hdoc)).symm.trans hroot
      refine ⟨documentNode [bs] 0, ?_,
        showsSiblings_document hf h (.inr ⟨htop' ▸ hp, htop' ▸ hdoc⟩)⟩
      rw [Forest.elementPath_of_not_element]
      · exact .root
      · rw [Forest.isElement, hdoc]
        rfl
    · have hd : f.class? p ≠ some .document := Forest.class?_ne_of_content? he (by rintro ⟨⟩)
      have ha : f.class? p ≠ some .attr := Forest.class?_ne_of_content? he (by rintro ⟨⟩)
      obtain ⟨y, hy, hshape⟩ :=
        leads_elementPath hf he (h.hasContent hf htop hroot hd ha) (ih hroot hd)
      exact ⟨y, hy, hshape.showsSiblings hf hp he⟩

/-- What is shown is taken back to the node that its label says. -/
theorem ShowsShape.toTree {t : Shape NodeId} {x : XNode} (fresh : ViewId)
    (h : ShowsShape f n t x) :
    (Program.rawItem? 0 fresh x).map (n.toTree f) = some (.ok (.node t.label)) := by
  obtain ⟨b, hb, hshown⟩ := h.item
  have hraw : Program.rawItem? 0 fresh x = some b.shape.label := by
    rw [Program.rawItem?, hb]
    cases b with
    | text => rfl
    | _ => exact congrArg (fun v => some (RawItem.view v)) (if_pos h.document)
  have hlabel := congrArg Shape.label hshown
  rw [shown, expected, Shape.label_map, Shape.label_map] at hlabel
  rw [hraw, Option.map_some, hlabel]

theorem ShowsTree.leads_path {r : NodeId} {path : AbsolutePath} (hf : f.WellFormed)
    (h : ShowsTree f top n bs) (htop : contextNode f (.node top) = .ok r) (hid : f.root id = top)
    (hd : f.class? id ≠ some .document) (ha : f.class? id ≠ some .attr)
    (hpath : f.absolutePath (.node id) = .ok path) :
    ∃ x t, path.Leads [bs] x ∧ ShowsShape f n t x ∧ t.label = f.shownAs id := by
  have hcontent := h.hasContent hf htop hid hd ha
  obtain ⟨x, hx, hshow⟩ := h.leads_pathBefore hf htop hid hd
  obtain ⟨s, hs, rfl⟩ : ∃ s, f.step id = .ok s ∧ path = f.pathBefore id ++ [s] := by
    rw [Forest.absolutePath_eq hd ha] at hpath
    obtain ⟨s, hs, hpath⟩ := map_eq_ok hpath
    exact ⟨s, hs, hpath.symm⟩
  rcases hcontent.content id hcontent.mem with hv | ⟨_, ht⟩
  · obtain ⟨haxis, -⟩ := Forest.step_of_isViewed hv hs
    obtain ⟨y, hy, hshape⟩ := hshow.select [bs] haxis
      (hf.pick_viewed hv hs hcontent.mem hcontent.content)
    refine ⟨y, _, hx.step hy, hshape, ?_⟩
    rw [hf.label_shape (.inl hv), Forest.shownAs, Forest.isText_of_isViewed hv]
    rfl
  · have htext := Forest.isText_of_content? ht
    cases hp : f.parent? id with
    | none =>
      obtain rfl : id = top := (Forest.root_of_top hp).symm.trans hid
      have hv := ((contextNode_eq_ok.1 htop).resolve_left fun hdoc => hd hdoc.1).1
      rw [Forest.isText_of_isViewed hv] at htext
      cases htext
    | some p =>
      obtain ⟨haxis, hany, hpick⟩ :=
        hf.pick_text htext hp hs hcontent.mem hcontent.content
      obtain ⟨y, hy, hshape⟩ := hshow.select [bs] haxis hpick
      refine ⟨y, _, hx.step hy, hshape, ?_⟩
      obtain ⟨d, hm, hd⟩ := List.any_eq_true.1 hany
      rw [Forest.shownAs, if_pos htext, Forest.runShape, Shape.label]
      cases hfind : (f.textRun id).find? f.hasText with
      | none => exact absurd hd (List.find?_eq_none.1 hfind d hm)
      | some d => rfl

theorem ShowsShape.select_attribute {e : ElementData} {a : Attr} {x : XNode} (fresh : ViewId)
    (hf : f.WellFormed) (he : f.content? p = some (.element e)) (hid : id ∈ e.attributes)
    (ha : f.attr? id = some a) (h : ShowsShape f n (f.tree p).shape x) :
    ∃ y, (PathStep.attr (nameTest a.name a.ns)).select [bs] x = [y] ∧
      (Program.rawItem? 0 fresh y).map (n.toTree f) = some (.ok (.node id)) := by
  refine List.map_eq_singleton_iff.1 ?_
  obtain ⟨b, hb, hshown⟩ := h.item
  obtain ⟨v, data, cs, rfl, -, -, hattributes, -⟩ := shown_element hf he hshown
  have hselect : (PathStep.attr (nameTest a.name a.ns)).select [bs] x =
      (data.attributes.zipIdx.map fun c => ⟨{ x.place with part := .attr c.2 }, .attr v c.1⟩).filter
        (PathStep.attr (nameTest a.name a.ns)).accepts := by
    rw [PathStep.select]
    show x.attributes.filter _ = _
    rw [XNode.attributes, hb]
  have hpairs := congrArg (List.filter fun q : Except Failure Value × ExpandedName × String =>
    (nameTest a.name a.ns).acceptsName q.2.1) hattributes
  rw [List.filter_map, List.filter_map] at hpairs
  rw [hselect, List.filter_map, List.map_map]
  refine (congrArg (List.map _)
    (List.filter_congr fun c _ => PathStep.accepts_attribute _)).trans ?_
  refine (map_filter_zipIdx (fun c : ViewAttribute => (nameTest a.name a.ns).acceptsName c.name)
    (fun c => some (n.toTree f (.attr v c.name.clark c.value))) data.attributes).trans ?_
  have hfirst := congrArg (List.map fun q => some q.1) hpairs
  rw [List.map_map, List.map_map] at hfirst
  have hone := congrArg (List.map fun b : Attr => some (.ok (.node b.id) : Except Failure Value))
    (hf.filter_attributes he hid ha)
  refine (hfirst.trans hone).trans ?_
  rw [List.map_singleton, (Forest.content?_of_attr? ha).1]

theorem ShowsTree.leads_attributePath {r : NodeId} {path : AbsolutePath} (fresh : ViewId)
    (hf : f.WellFormed) (h : ShowsTree f top n bs) (htop : contextNode f (.node top) = .ok r)
    (hid : f.root id = top) (ha : f.class? id = some .attr)
    (hpath : f.absolutePath (.node id) = .ok path) :
    ∃ y, path.Leads [bs] y ∧
      (Program.rawItem? 0 fresh y).map (n.toTree f) = some (.ok (.node id)) := by
  cases hp : f.parent? id with
  | none =>
    obtain rfl : id = top := (Forest.root_of_top hp).symm.trans hid
    exact absurd ha (class?_ne_attr_of_contextNode htop)
  | some p =>
    have hattr : id ∈ f.attributes p := (hf.listed hp).resolve_left fun hc =>
      hf.class?_ne_attr_of_child hc ha
    obtain ⟨e, he, hmem⟩ := Forest.exists_content?_of_attribute hattr
    obtain ⟨a, hdata, -⟩ := hf.attribute_data hattr
    have hroot : f.root p = top := (hf.root_of_parent hp).symm.trans hid
    have hd : f.class? p ≠ some .document := Forest.class?_ne_of_content? he (by rintro ⟨⟩)
    have ha : f.class? p ≠ some .attr := Forest.class?_ne_of_content? he (by rintro ⟨⟩)
    obtain ⟨x, hx, hshape⟩ := leads_elementPath hf he (h.hasContent hf htop hroot hd ha)
      (h.leads_pathBefore hf htop hroot hd)
    obtain rfl : path = f.elementPath p ++ [.attr (nameTest a.name a.ns)] := by
      rw [Forest.absolutePath, (Forest.content?_of_attr? hdata).2, hp] at hpath
      exact (Except.ok.inj hpath).symm
    obtain ⟨y, hy, hitem⟩ := hshape.select_attribute fresh hf he hmem hdata
    exact ⟨y, hx.step hy, hitem⟩

/-- The path of a node leads to one node of the view alone, which is taken back to the node. -/
theorem ShowsTree.leads {r : NodeId} {path : AbsolutePath} (fresh : ViewId) (hf : f.WellFormed)
    (h : ShowsTree f top n bs) (htop : contextNode f (.node top) = .ok r) (hid : f.root id = top)
    (hd : f.class? id ≠ some .document) (hpath : f.absolutePath (.node id) = .ok path) :
    ∃ x, path.Leads [bs] x ∧
      (Program.rawItem? 0 fresh x).map (n.toTree f) = some (.ok (.node (f.shownAs id))) := by
  by_cases ha : f.class? id = some .attr
  · have hno : f.isText id = false := by
      rw [Forest.isText, ha]
      rfl
    rw [Forest.shownAs, hno]
    exact h.leads_attributePath fresh hf htop hid ha hpath
  · obtain ⟨x, t, hx, hshape, hlabel⟩ := h.leads_path hf htop hid hd ha hpath
    exact ⟨x, hx, hlabel ▸ hshape.toTree fresh⟩

/-! ## Texts of paths -/

/-- A path has one node of the view alone for its result, which is taken back to a node of the tree.
This is so by the meaning of its steps, and the text of the path is read as an expression whose
value it is at every node of the view. Positions are numbers there, which are exact only below
`2 ^ 53`; no list is as long. -/
structure Selects (f : Forest) (n : Navigator) (path : AbsolutePath) (id : NodeId) : Prop where
  steps : (path.select (documentsOf n.documents)).map
      (fun x => (Program.rawItem? 0 n.next x).map (n.toTree f)) = [some (.ok (.node id))]
  text : ∃ e, parse? path.render = some e ∧ ∀ (env : Environment) (z : XNode),
      env.documents = documentsOf n.documents → z.place.document = 0 →
      (∀ s ∈ path, ∀ i ∈ s.position?, i < 2 ^ 53) →
        ∃ ns, valueAt env z e = some (.nodes ns) ∧
          ns.map (fun x => (Program.rawItem? 0 n.next x).map (n.toTree f)) =
            [some (.ok (.node id))]

theorem selects_of_leads {path : AbsolutePath} {x : XNode}
    (h : path.Leads (documentsOf n.documents) x) (hnamed : ∀ s ∈ path, s.IsNamed)
    (hx : (Program.rawItem? 0 n.next x).map (n.toTree f) = some (.ok (.node id))) :
    Selects f n path id where
  steps := by rw [h.select_eq, List.map_singleton, hx]
  text := by
    refine ⟨path.tree, AbsolutePath.parse?_render hnamed, fun env z hds hz hp => ⟨[x], ?_, ?_⟩⟩
    · rw [← hds] at h
      exact h.valueAt_tree hp hz
    · rw [List.map_singleton, hx]

theorem isNamed_of_hasNames {r : NodeId} {path : AbsolutePath} (hf : f.WellFormed)
    (htop : contextNode f (.node top) = .ok r) (hn : ∀ x ∈ (f.tree top).ids, f.hasNames x = true)
    (hid : f.root id = top) (hpath : f.absolutePath (.node id) = .ok path) :
    ∀ s ∈ path, s.IsNamed := by
  intro s hs name hname
  obtain ⟨x, hx, hname⟩ := hf.name_of_path hpath hs hname
  exact hf.isName_of_name? hn (class?_ne_attr_of_contextNode htop) (hx.trans hid) hname

/-- There is no path to a text whose run holds nothing or to an attribute of no element: the one
fails for its value, if that is a string, and the other for its type. The absolute path of any other
node has one node of the view of its tree alone for its result, which is taken back to the node or,
of the texts of one run, to the first that holds anything. -/
theorem absolutePath_selects (hb : f.Built) :
    (∀ id fault, (f.content? id).isSome = true → (f.absolutePath (.node id) = .error fault ↔
      f.isText id = true ∧ (f.parent? id).isSome = true ∧
        (f.textRun id).any f.hasText = false ∧ fault = f.failureOn (.node id) .noText ∨
      f.class? id = some .attr ∧ f.parent? id = none ∧ fault = f.failureOn (.node id) .detached)) ∧
    (∀ id s, f.content? id = some (.text (.text s)) →
      (f.failureOn (.node id) .noText).kind = .value) ∧
    (∀ id, f.class? id = some .attr → (f.failureOn (.node id) .detached).kind = .type) ∧
    ∀ (n n' : Navigator) (context : Value) (c r : NodeId), contextNode f context = .ok c →
      contextNode f (.node (f.root c)) = .ok r →
      (∀ x ∈ (f.tree (f.root c)).ids, f.hasNames x = true) →
      (Navigator.bind f context).run n = (.ok (), n') →
      (∀ id path, f.root id = f.root c → f.class? id ≠ some .document →
        f.absolutePath (.node id) = .ok path → Selects f n' path (f.shownAs id)) ∧
      ∀ id id' path, f.root id = f.root c → f.root id' = f.root c →
        f.class? id ≠ some .document → f.class? id' ≠ some .document →
        f.absolutePath (.node id) = .ok path → f.absolutePath (.node id') = .ok path →
          f.shownAs id = f.shownAs id' := by
  have hf := hb.wellFormed
  refine ⟨fun id fault hid => hf.absolutePath_eq_error hid, fun id s => Forest.kind_noText,
    fun id => Forest.kind_detached, fun n n' context c r hc htop hn hbind => ?_⟩
  obtain ⟨⟨bs, hshow⟩, -⟩ := showsTree_of_bind hf hc hn hbind
  have hselects (id path) (hid : f.root id = f.root c) (hd : f.class? id ≠ some .document)
      (hpath : f.absolutePath (.node id) = .ok path) : Selects f n' path (f.shownAs id) := by
    obtain ⟨x, hx, hitem⟩ := hshow.leads n'.next hf htop hid hd hpath
    rw [← hshow.documents] at hx
    exact selects_of_leads hx (isNamed_of_hasNames hf htop hn hid hpath) hitem
  refine ⟨hselects, fun id id' path hid hid' hd hd' hpath hpath' => ?_⟩
  have := (hselects id path hid hd hpath).steps.symm.trans (hselects id' path hid' hd' hpath').steps
  simpa using this

/-- Of two adjacent texts the first is empty, and so is the only text of the element after them. -/
theorem absolutePath_selects_texts :
    let p : Namespace := ⟨"p", "u", by decide, by decide, by decide⟩
    let f : Forest := ⟨#[⟨none, .element ⟨"r", Namespace.none, [], [1], [2, 3, 4, 5]⟩⟩,
      ⟨some 0, .attr "a" "v" p⟩, ⟨some 0, .text (.text "")⟩, ⟨some 0, .text (.text "x")⟩,
      ⟨some 0, .element ⟨"e", p, [], [], [6]⟩⟩, ⟨some 0, .text (.text "y")⟩,
      ⟨some 4, .text (.text "")⟩]⟩
    ∃ n, (Navigator.bind f (.node 0)).run {} = (.ok (), n) ∧
      AbsolutePath.render [.element (.plain "r") none, .text (some 1)] = "/r/text()[1]" ∧
      Selects f n [.element (.plain "r") none, .text (some 1)] 3 ∧
      AbsolutePath.render [.element (.plain "r") none, .attr (.expanded "a" "u")] =
        "/r/@*[local-name() = 'a' and namespace-uri() = 'u']" ∧
      Selects f n [.element (.plain "r") none, .attr (.expanded "a" "u")] 1 ∧
      f.absolutePath (.node 6) = .error (f.failureOn (.node 6) .noText) ∧
      (f.failureOn (.node 6) .noText).kind = .value := by
  intro p f
  have hbuilt : f.Built := by
    have h := Forest.Built.element .empty
      (rfl : Forest.newElement _ (some "r") Namespace.none = .ok (_, 0))
    have h := h.setAttribute (rfl : Forest.setAttribute _ 0 (some "a") (.text "v") p = .ok (_, 1))
    have h := (h.text (.text "")).text (.text "x")
    have h := h.element (rfl : Forest.newElement _ (some "e") p = .ok (_, 4))
    have h := (h.text (.text "y")).text (.text "")
    have h := (h.extend 4 [.node 6]).extend 0 [.node 2, .node 3, .node 4, .node 5]
    cbv at h
    exact h
  obtain ⟨herror, hvalue, -, hselect⟩ := absolutePath_selects hbuilt
  obtain ⟨n, hbind⟩ := bind_succeeds hbuilt.wellFormed
    (rfl : contextNode f (.node 0) = .ok 0) (rfl : contextNode f (.node 0) = .ok 0) (by decide) {}
  obtain ⟨hselect, -⟩ := hselect {} n (.node 0) 0 0 rfl rfl (by decide) hbind
  exact ⟨n, hbind, rfl, hselect 2 _ rfl (by decide) rfl, by decide, hselect 1 _ rfl (by decide) rfl,
    (herror 6 _ rfl).2 (.inl ⟨rfl, rfl, rfl, rfl⟩), hvalue 6 "" rfl⟩

end Navigator

end TreeQuery
