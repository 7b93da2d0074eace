import TreeQuery.Proofs.View.Traces

/-!
# Building views

A view that has been built has the shape of its tree, and all its parts are taken back to the nodes
that they stand for (`Forest.WellFormed.mirrors`), as long as the names in the tree are names of
XML. The proof goes up the tree: what holds of the trees of a node's children gives the content of
its view (`shape_of_fills`).
-/

namespace TreeQuery

open Text

namespace Forest

/-- Whether the names of a node are names of XML. -/
def hasNames (f : Forest) (id : NodeId) : Bool :=
  match f.content? id with
  | some (.element e) =>
    isName e.name.toList && (e.attributes.filterMap f.attr?).all fun a => isName a.name.toList
  | some (.instruction target _) => isName target.toList
  | _ => true

theorem clarkName_of_attr? {f : Forest} {x : NodeId} {a : Attr} (h : f.attr? x = some a) :
    f.clarkName x = Namespace.clark a.ns.uri a.name := by
  rw [clarkName, (content?_of_attr? h).2]
  rfl

theorem WellFormed.find?_attribute {f : Forest} {id : NodeId} {e : ElementData} {a : Attr}
    (h : WellFormed f) (he : f.content? id = some (.element e)) (hn : f.hasNames id = true)
    (ha : a ∈ e.attributes.filterMap f.attr?) :
    (f.attributes id).find? (fun x => f.clarkName x == Namespace.clark a.ns.uri a.name) =
      some a.id := by
  have hnames : ∀ b ∈ e.attributes.filterMap f.attr?, isName b.name.toList = true := by
    rw [hasNames, he, Bool.and_eq_true, List.all_eq_true] at hn
    exact hn.2
  obtain ⟨x, hx, hax⟩ := List.mem_filterMap.1 ha
  obtain rfl : a.id = x := (content?_of_attr? hax).1
  cases hf : (f.attributes id).find?
      (fun x => f.clarkName x == Namespace.clark a.ns.uri a.name) with
  | none =>
    have := List.find?_eq_none.1 hf a.id (mem_attributes he hx)
    rw [clarkName_of_attr? hax, beq_self_eq_true] at this
    exact absurd rfl this
  | some y =>
    have hy := List.mem_of_find?_eq_some hf
    have hp := List.find?_some hf
    obtain ⟨b, hb, -⟩ := h.attribute_data hy
    have hmem : b ∈ e.attributes.filterMap f.attr? :=
      List.mem_filterMap.2 ⟨y, by rwa [attributes_of_content? he] at hy, hb⟩
    rw [beq_iff_eq, clarkName_of_attr? hb] at hp
    obtain ⟨huri, hname⟩ := Namespace.clark_injective (hnames b hmem) (hnames a ha) hp
    rw [h.attribute_name hy (mem_attributes he hx) hb hax hname huri]

theorem WellFormed.nodup_names {f : Forest} {id : NodeId} {e : ElementData} (h : WellFormed f)
    (he : f.content? id = some (.element e)) :
    ((e.attributes.filterMap f.attr?).map fun a => (⟨a.ns.uri, a.name⟩ : ExpandedName)).Nodup := by
  have hnodup := h.nodup_attributes id
  rw [attributes_of_content? he] at hnodup
  have hids {a b : NodeId} {x : Attr} (ha : x ∈ f.attr? a) (hb : x ∈ f.attr? b) : a = b :=
    (content?_of_attr? ha).1.symm.trans (content?_of_attr? hb).1
  refine List.Nodup.map_on (fun x hx y hy hxy => ?_) (hnodup.filterMap fun a b x => hids)
  obtain ⟨a, ha, hax⟩ := List.mem_filterMap.1 hx
  obtain ⟨b, hb, hby⟩ := List.mem_filterMap.1 hy
  cases x
  cases y
  obtain ⟨huri, hname⟩ := ExpandedName.mk.inj hxy
  obtain rfl := h.attribute_name (mem_attributes he ha) (mem_attributes he hb) hax hby hname huri
  exact Option.some.inj (hax.symm.trans hby)

end Forest

namespace Navigator

open XPath (Branch)

variable {n n' m : Navigator} {around : Surroundings} {slot : Slot} {id : NodeId}
  {typeName : Value → String}

/-! ## Texts of views -/

/-- The shape of a view, taken back to the tree. -/
def shown (n : Navigator) (f : Forest) (b : Branch) : Shape (Except Failure Value) :=
  b.shape.map (n.toTree f)

/-- The shape that a view of a tree is taken back to. -/
def expected (s : Shape NodeId) : Shape (Except Failure Value) :=
  s.map fun i => .ok (.node i)

/-- A text takes its view to the first of its text nodes that holds anything. -/
theorem textNodes_eq_ok {run : List (NodeId × Value)} {text : Option String} (f : Forest)
    (h : (addText typeName slot run).run n = (.ok text, n')) (hm : Knows n' m) :
    (Branch.textNodes slot text).map (m.shown f) =
      (Shape.ofRun (runShapes run)).map expected := by
  obtain ⟨-, ⟨rfl, -, hrun⟩ | ⟨i, s, rfl, hs, rfl, hrun⟩⟩ := addText_eq_ok h
  · rw [hrun]
    rfl
  · have hlookup : m.texts.lookup slot = some i := by
      refine hm.texts ?_
      show (n.withText slot i).texts.lookup slot = some i
      rw [texts_withText, if_pos rfl]
    rw [hrun, Branch.textNodes, if_neg hs, List.map_singleton, List.map_singleton]
    show [Shape.text (m.toTree f (.text slot s)) s] = _
    rw [toTree, hlookup]
    rfl

/-! ## Views and their trees -/

/-- What a view that has been built has to do with its tree. -/
structure Shows (f : Forest) (id : NodeId) (n n' : Navigator) (v : View) : Prop
    extends Traces f id n n' v where
  shape : ∀ m, Knows n' m → m.shown f (.ofView v) = expected (f.tree id).shape

/-- Every view that is built of a node shows its tree, if nothing in it has a view yet. -/
def Mirrors (f : Forest) (id : NodeId) : Prop :=
  ∀ {around : Surroundings} {n n' : Navigator} {v : View}, Tidy n →
    (∀ x ∈ (f.tree id).ids, n.views.lookup x = none) →
    (build f.typeName around (f.tree id)).run n = (.ok v, n') → Shows f id n n' v

/-- What the content of an element's view has to do with the element's children. -/
structure ShowsContent (f : Forest) (around : Surroundings) (slot : Slot)
    (run : List (NodeId × Value)) (cs : List NodeId) (n n' : Navigator) (text : Option String)
    (views : List View) : Prop extends TracesContent f around slot run cs n n' text views where
  shape : ∀ m, Knows n' m →
    (Branch.textNodes slot text ++ Branch.ofViews views).map (m.shown f) =
      (Shape.mergeTexts (runShapes run ++ Tree.shapeAll (cs.map f.tree))).map expected
  made : ∀ b ∈ Branch.textNodes slot text ++ Branch.ofViews views,
    b.shape.isText = true ∨ ∃ c ∈ cs, Made f around c n' b

theorem isText_of_mem_textNodes {text : Option String} {b : Branch}
    (h : b ∈ Branch.textNodes slot text) : b.shape.isText = true := by
  unfold Branch.textNodes at h
  split at h
  · split at h
    · cases h
    · rw [List.mem_singleton.1 h]
      rfl
  · cases h

/-- Only what is no text is built. -/
theorem isText_shape_of_build {t : Tree} {v : View}
    (h : (build typeName around t).run n = (.ok v, n')) : t.shape.isText = false := by
  cases t with
  | text => cases h
  | attr => cases h
  | _ => rfl

/-- The content of an element's view shows the element's children, with their texts merged. -/
theorem shape_of_fills {f : Forest} (hf : f.WellFormed) {run : List (NodeId × Value)}
    {cs : List NodeId} {text : Option String} {views : List View}
    (h : Fills f around slot run cs n n' text views) (hc : ∀ c ∈ cs, Mirrors f c)
    (hm : Knows n' m) :
    (Branch.textNodes slot text ++ Branch.ofViews views).map (m.shown f) =
      (Shape.mergeTexts (runShapes run ++ Tree.shapeAll (cs.map f.tree))).map expected := by
  induction h with
  | @last slot run n n' text htext =>
    rw [Branch.ofViews, List.append_nil, List.map_nil, Tree.shapeAll, List.append_nil,
      Shape.mergeTexts_run (isText_runShapes run)]
    exact textNodes_eq_ok f htext hm
  | @text slot run c value cs n n' text views hx _ ih =>
    rw [ih (fun d hd => hc d (List.mem_cons_of_mem _ hd)) hm, List.map_cons, hf.tree_text hx,
      runShapes, List.map_append, List.append_assoc]
    rfl
  | @node slot run c cs n m₁ m₂ n' text tail view views hfirst ht hnew hview hknows _ ih =>
    have hrest := ih (fun d hd => hc d (List.mem_cons_of_mem _ hd)) hm
    have hshow := hc c List.mem_cons_self ht hnew hview
    have hm₂ := hknows.trans hm
    rw [Branch.ofViews, Branch.ofView_withTail, id_withTail, tail_withTail, List.map_append,
      List.map_cons, textNodes_eq_ok f hfirst (hshow.grows.knows.trans hm₂), hshow.shape m hm₂,
      hrest, List.map_cons, Tree.shapeAll,
      Shape.mergeTexts_append_cons (isText_runShapes run) (isText_shape_of_build hview),
      List.map_append, List.map_cons]
    rfl

theorem made_of_fills {f : Forest} {run : List (NodeId × Value)} {cs : List NodeId}
    {text : Option String} {views : List View}
    (h : Fills f around slot run cs n n' text views) :
    ∀ b ∈ Branch.textNodes slot text ++ Branch.ofViews views,
      b.shape.isText = true ∨ ∃ c ∈ cs, Made f around c n' b := by
  induction h with
  | last =>
    intro b hb
    rw [Branch.ofViews, List.append_nil] at hb
    exact .inl (isText_of_mem_textNodes hb)
  | text _ _ ih => exact fun b hb => (ih b hb).imp_right List.exists_mem_cons_of_exists
  | @node slot run c cs n m₁ m₂ n' text tail view views _ ht hnew hview hknows _ ih =>
    intro b hb
    rw [Branch.ofViews, Branch.ofView_withTail, id_withTail, tail_withTail, List.mem_append,
      List.mem_cons] at hb
    rcases hb with hb | rfl | hb
    · exact .inl (isText_of_mem_textNodes hb)
    · exact .inr ⟨c, List.mem_cons_self, m₁, m₂, view, ht, hnew, hview, hknows, rfl⟩
    · exact (ih b hb).imp_right List.exists_mem_cons_of_exists

theorem toTree_view_iff {f : Forest} {v : ViewId} :
    m.toTree f (.view v) = .ok (.node id) ↔ m.nodes.lookup v = some id := by
  rw [toTree, nodeOf]
  cases m.nodes.lookup v with
  | none => exact ⟨nofun, nofun⟩
  | some i =>
    show Except.ok (Value.node i) = _ ↔ _
    rw [Except.ok.injEq, Value.node.injEq, Option.some.injEq]

theorem toTree_view {f : Forest} {v : ViewId} (h : m.nodes.lookup v = some id) :
    m.toTree f (.view v) = .ok (.node id) :=
  toTree_view_iff.2 h

theorem toTree_attr {f : Forest} {v : ViewId} {clark value : String} {a : NodeId}
    (hv : m.nodes.lookup v = some id)
    (ha : (f.attributes id).find? (fun a => f.clarkName a == clark) = some a) :
    m.toTree f (.attr v clark value) = .ok (.node a) := by
  have hnode : m.nodeOf v = pure id := by
    rw [nodeOf, hv]
    rfl
  rw [toTree, hnode, pure_bind, ha]

theorem attributes_eq_ok {f : Forest} {e : ElementData} {outer : List ViewLevel}
    {level level' : ViewLevel} {vas : List ViewAttribute} {v : ViewId} (hf : f.WellFormed)
    (he : f.content? id = some (.element e)) (hn : f.hasNames id = true)
    (h : (buildAttributes outer level (e.attributes.filterMap f.attr?)).run n =
      (.ok (level', vas), n')) (hv : m.nodes.lookup v = some id) :
    vas.map (fun a => (m.toTree f (.attr v a.name.clark a.value), a.name, a.value)) =
      (e.attributes.filterMap f.attr?).map fun a =>
        (.ok (.node a.id), (⟨a.ns.uri, a.name⟩ : ExpandedName), a.value) := by
  have hnames : ∀ b ∈ e.attributes.filterMap f.attr?, isName b.name.toList = true := by
    rw [Forest.hasNames, he, Bool.and_eq_true, List.all_eq_true] at hn
    exact hn.2
  have hpairs := congrArg
    (List.map fun p => (m.toTree f (.attr v (ExpandedName.clark p.1) p.2), p.1, p.2))
    (buildAttributes_eq_ok hnames (hf.nodup_names he) h)
  rw [List.map_map, List.map_map] at hpairs
  refine hpairs.trans (List.map_congr_left fun a ha => ?_)
  have hfind := hf.find?_attribute he hn ha
  exact congrArg (·, (⟨a.ns.uri, a.name⟩ : ExpandedName), a.value) (toTree_attr hv hfind)

theorem element_eq_ok {f : Forest} {e : ElementData} {v : View} (hf : f.WellFormed)
    (he : f.content? id = some (.element e)) (hn : f.hasNames id = true)
    (hc : ∀ c ∈ f.children id, Mirrors f c) (ht : Tidy n)
    (hnew : ∀ x ∈ (f.tree id).ids, n.views.lookup x = none)
    (h : (build f.typeName around (f.tree id)).run n = (.ok v, n')) :
    let own := ownBindings e.ns e.declared (e.attributes.filterMap f.attr?)
    let scope := extendScope around.scope own
    ∃ level level' vas text views,
      (elementLevel around.levels ⟨e.ns.uri, e.name⟩
        (scope.filter fun b => !around.scope.contains b)).run n = (.ok level, n) ∧
      (buildAttributes around.levels level (e.attributes.filterMap f.attr?)).run (n.remembered id) =
        (.ok (level', vas), n.remembered id) ∧
      ShowsContent f ⟨scope, level' :: around.levels⟩ ⟨n.next, false⟩ [] e.children
        (n.remembered id) n' text views ∧
      n'.nodes.lookup n.next = some id ∧
      v = .element n.next
        ⟨⟨e.ns.uri, e.name⟩, (level'.own.map (·.1)).getD "", level'.declared, vas⟩ text views
        none := by
  have hname : isName e.name.toList = true := by
    rw [Forest.hasNames, he, Bool.and_eq_true] at hn
    exact hn.1
  obtain ⟨expanded, level, level', vas, text, views, hread, hlevel, hattr, hcontent, hview, rfl⟩ :=
    exists_content_of_build hf he (fun c _ => hf.traces c) ht hnew h
  obtain rfl := readName_eq_ok hname hread
  rw [Forest.children_of_content? he] at hc
  have hshow : ShowsContent f _ _ [] e.children (n.remembered id) n' text views :=
    ⟨hcontent, fun m => shape_of_fills hf hcontent.fills hc, made_of_fills hcontent.fills⟩
  exact ⟨level, level', vas, text, views, hlevel, hattr, hshow, hview, rfl⟩

/-- The view of an element shows its tree if the views of its children do. -/
theorem shows_element {f : Forest} {e : ElementData} {v : View} (hf : f.WellFormed)
    (he : f.content? id = some (.element e)) (hn : f.hasNames id = true)
    (hc : ∀ c ∈ f.children id, Mirrors f c) (ht : Tidy n)
    (hnew : ∀ x ∈ (f.tree id).ids, n.views.lookup x = none)
    (h : (build f.typeName around (f.tree id)).run n = (.ok v, n')) : Shows f id n n' v := by
  have htraces := hf.traces id ht hnew h
  obtain ⟨level, level', vas, text, views, -, hattr, hshow, hview, rfl⟩ :=
    element_eq_ok hf he hn hc ht hnew h
  refine ⟨htraces, fun m hm => ?_⟩
  have hchildren := hshow.shape m hm
  have hattributes := attributes_eq_ok hf he hn hattr (hm.nodes hview)
  rw [shown, expected, hf.tree_element he, Branch.ofView, Branch.shape, Tree.shape, Shape.map,
    Shape.map, List.map_map, List.map_map, Shape.mapAll_eq, Shape.mapAll_eq, Branch.shapeAll_eq,
    List.map_map, toTree_view (hm.nodes hview)]
  exact congrArg₂ (Shape.element _ _) hattributes hchildren

end Navigator

/-- A view that is built of a node shows its tree. -/
theorem Forest.WellFormed.mirrors {f : Forest} (h : f.WellFormed) {id : NodeId}
    (hn : ∀ x ∈ (f.tree id).ids, f.hasNames x = true) : Navigator.Mirrors f id := by
  induction id using h.induction_up with
  | _ id ih =>
    intro around n n' v ht hnew hb
    have hself := hn id (h.self_mem_ids (Navigator.isViewed_of_build h hb).class?_ne_attr)
    rcases (Navigator.isViewed_of_build h hb).content? with
      ⟨e, hx⟩ | ⟨value, hx⟩ | ⟨target, data, hx⟩
    · exact Navigator.shows_element h hx hself
        (fun c hc => ih c hc fun x hm => hn x (h.ids_subset_of_child hc hm)) ht hnew hb
    · refine ⟨h.traces id ht hnew hb, fun m hm => ?_⟩
      have htree := h.tree_comment hx
      rw [htree] at hb
      obtain ⟨rfl, rfl⟩ := Navigator.build_comment_eq_ok hb
      rw [htree, Navigator.expected, Tree.shape, Shape.map,
        ← Navigator.toTree_view (hm.nodes (n.lookup_remembered id))]
      rfl
    · refine ⟨h.traces id ht hnew hb, fun m hm => ?_⟩
      have htree := h.tree_instruction hx
      rw [htree] at hb
      obtain ⟨rfl, rfl⟩ := Navigator.build_instruction_eq_ok hb
      rw [htree, Navigator.expected, Tree.shape, Shape.map,
        ← Navigator.toTree_view (hm.nodes (n.lookup_remembered id))]
      rfl

end TreeQuery
