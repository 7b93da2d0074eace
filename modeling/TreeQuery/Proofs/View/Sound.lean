import TreeQuery.Proofs.View.Tops

/-!
# Sound navigators

A navigator holds views of whole trees, each made once, and can take all parts of its documents back
(`Navigator.Sound`). To look up the view of a node keeps this and what the navigator knew
(`Navigator.Sound.viewOf`), and so does every value that an engine is given
(`Navigator.Sound.toEngine`).
-/

namespace TreeQuery

/-- What there can be at a place of a forest: nothing, an attribute, a text, a document, or a node
with a view of its own. -/
theorem Forest.content_cases (f : Forest) (id : NodeId) :
    f.content? id = none ∨ (∃ name value ns, f.content? id = some (.attr name value ns)) ∨
      (∃ value, f.content? id = some (.text value)) ∨ f.class? id = some .document ∨
        f.IsViewed id := by
  rw [IsViewed, class?]
  cases f.content? id with
  | none => exact .inl rfl
  | some x => cases x <;> simp [Content.nodeClass]

namespace Forest.WellFormed

variable {f : Forest} {id top x : NodeId}

theorem root_of_mem_ids (h : f.WellFormed) (hx : x ∈ (f.tree top).ids) : f.root x = f.root top := by
  induction top using h.induction_up with
  | _ top ih =>
    by_cases ha : f.class? top = some .attr
    · rw [h.ids_of_attr ha] at hx
      cases hx
    · rcases (h.mem_ids_iff ha).1 hx with rfl | ⟨c, hc, hx⟩
      · rfl
      · rw [ih c hc hx, h.root_of_parent (h.parent_of_child hc)]

theorem root_root (h : f.WellFormed) (id : NodeId) : f.root (f.root id) = f.root id :=
  root_of_top (h.parent?_root id)

theorem mem_ids_root_iff (h : f.WellFormed) (hx : f.class? x ≠ some .attr) :
    x ∈ (f.tree (f.root id)).ids ↔ f.root x = f.root id := by
  refine ⟨fun hm => (h.root_of_mem_ids hm).trans (h.root_root id), fun hr => ?_⟩
  rw [← hr]
  exact h.mem_ids_root hx

theorem root_of_mem_tops (h : f.WellFormed) (hx : x ∈ f.tops top) : f.root x = f.root top := by
  by_cases hd : f.class? top = some .document
  · rw [tops_of_document hd] at hx
    exact h.root_of_parent (h.parent_of_child hx)
  · rw [tops_of_ne_document hd, List.mem_singleton] at hx
    rw [hx]

theorem document_or_isViewed_root (h : f.WellFormed) (hid : f.IsViewed id) :
    f.class? (f.root id) = some .document ∨ f.IsViewed (f.root id) := by
  induction id using h.induction_down with
  | top id hp =>
    rw [root_of_top hp]
    exact .inr hid
  | below id p hp ih =>
    rw [h.root_of_parent hp]
    rcases class?_of_mem_children (h.mem_children hp hid.class?_ne_attr) with hd | he
    · rw [root_of_top (h.parent?_of_document hd)]
      exact .inl hd
    · exact ih (.inl he)

/-- Where there is no node, a document without children is read out. -/
theorem tree_root_of_missing (h : f.WellFormed) (hx : f.content? id = none) :
    f.tree (f.root id) = .document id [] := by
  have hp : f.parent? id = none := by
    rw [parent?, Option.map_eq_none_iff.1 hx]
    rfl
  rw [root_of_top hp, h.tree_eq, layer, hx]

end Forest.WellFormed

namespace Value

mutual

/-- The nodes in a value, those in lists and tuples at any depth. -/
def nodes : Value → List NodeId
  | .node id => [id]
  | .list vs | .tuple vs => nodesAll vs
  | _ => []

def nodesAll : List Value → List NodeId
  | [] => []
  | v :: vs => v.nodes ++ nodesAll vs

end

end Value

namespace Navigator

open XPath (Branch)

variable {f : Forest} {n n' m : Navigator} {id e top : NodeId} {v : ViewId} {tops tops' : List NodeId}

/-- A tree with something in it to evaluate against. -/
def Rooted (f : Forest) (top : NodeId) : Prop := ∃ r, contextNode f (.node top) = .ok r

/-- What holds of a navigator whose views are made one tree after the other. -/
structure Sound (f : Forest) (n : Navigator) : Prop where
  tidy : Tidy n
  viewed : ∀ {v x}, n.nodes.lookup v = some x → f.IsViewed x ∧ Rooted f (f.root x)
  whole : ∀ {v x y}, n.nodes.lookup v = some x → f.IsViewed y → f.root y = f.root x →
    ∃ w, n.nodes.lookup w = some y
  once : n.documents.Pairwise fun d d' => ∀ v ∈ d, ∀ w ∈ d', ∀ x y,
    n.nodes.lookup v.id = some x → n.nodes.lookup w.id = some y → f.root x ≠ f.root y
  items : ∀ d ∈ n.documents, ∀ i ∈ Branch.itemsAll (d.map Branch.ofView), Resolves n f i

theorem sound_reset (f : Forest) (n : Navigator) : Sound f n.reset :=
  ⟨tidy_reset n, nofun, nofun, .nil, nofun⟩

/-- Whether nodes of a tree have views. -/
def Present (f : Forest) (n : Navigator) (top : NodeId) : Prop :=
  ∃ x v, f.root x = top ∧ n.nodes.lookup v = some x

/-- What changes while views of trees are made: no view is lost, and none is made of another tree or
of one that is there. -/
structure Extends (f : Forest) (tops : List NodeId) (n n' : Navigator) : Prop where
  knows : Knows n n'
  others : ∀ {x}, f.root x ∉ tops → n'.views.lookup x = n.views.lookup x
  same : (∀ top ∈ tops, Rooted f top → Present f n top) → n' = n

theorem Extends.refl (f : Forest) (tops : List NodeId) (n : Navigator) : Extends f tops n n :=
  ⟨.refl n, fun _ => rfl, fun _ => rfl⟩

theorem Extends.mono (h : Extends f tops n n') (hs : tops ⊆ tops') : Extends f tops' n n' :=
  ⟨h.knows, fun hx => h.others fun hm => hx (hs hm), fun hp => h.same fun top ht => hp top (hs ht)⟩

theorem Extends.trans (h : Extends f tops n m) (h' : Extends f tops' m n') :
    Extends f (tops ++ tops') n n' where
  knows := h.knows.trans h'.knows
  others := fun hx => by
    rw [List.mem_append, not_or] at hx
    rw [h'.others hx.2, h.others hx.1]
  same := fun hp => by
    obtain rfl := h.same fun top ht => hp top (List.mem_append_left _ ht)
    exact h'.same fun top ht => hp top (List.mem_append_right _ ht)

theorem Branch.view_mem_items (v : View) : RawItem.view v.id ∈ (Branch.ofView v).items := by
  cases v <;> simp [Branch.ofView, Branch.items, View.id]

theorem Sound.lookup_of_mem (h : Sound f n) {d : ViewDocument} {w : View} (hd : d ∈ n.documents)
    (hw : w ∈ d) : ∃ x, n.nodes.lookup w.id = some x := by
  have hi : RawItem.view w.id ∈ Branch.itemsAll (d.map Branch.ofView) :=
    Branch.mem_itemsAll.2 ⟨_, List.mem_map_of_mem hw, Branch.view_mem_items w⟩
  cases h.items d hd _ hi with
  | view hv => exact ⟨_, hv⟩

/-! ## Making the view of one more tree -/

/-- A tree of which one node has no view has none at all. -/
theorem Sound.fresh (hf : f.WellFormed) (h : Sound f n) (hid : f.IsViewed id)
    (hnew : n.views.lookup id = none) : ∀ x ∈ (f.tree (f.root id)).ids, n.views.lookup x = none := by
  intro x hx
  cases hv : n.views.lookup x with
  | none => rfl
  | some v =>
    have hroot : f.root id = f.root x := by rw [hf.root_of_mem_ids hx, hf.root_root]
    obtain ⟨w, hw⟩ := h.whole (h.tidy.inverse.2 hv) hid hroot
    cases hnew.symm.trans (h.tidy.inverse.1 hw)

theorem Sound.withTree (hf : f.WellFormed) (h : Sound f n) (hid : f.IsViewed id)
    (hroot : Rooted f (f.root id)) (hnew : n.views.lookup id = none)
    (ht : TracesTop f (f.root id) n n') : Sound f n' := by
  have hfresh := h.fresh hf hid hnew
  have hcases {v x} (hv : n'.nodes.lookup v = some x) :
      n.nodes.lookup v = some x ∨ f.IsViewed x ∧ f.root x = f.root id := by
    by_cases hx : x ∈ (f.tree (f.root id)).ids
    · refine (ht.adds v x hv).imp_right fun hviewed => ⟨hviewed, ?_⟩
      exact (hf.mem_ids_root_iff hviewed.class?_ne_attr).1 hx
    · refine .inl (h.tidy.inverse.2 ?_)
      rw [← ht.others x hx]
      exact ht.tidy.inverse.1 hv
  have hviewed {x} (hx : f.IsViewed x) (hr : f.root x = f.root id) :
      ∃ v, n'.nodes.lookup v = some x :=
    (ht.accounts hf ((hf.mem_ids_root_iff hx.class?_ne_attr).2 hr)).viewed hx
  obtain ⟨d, hd, hmade⟩ := ht.document
  obtain ⟨d', hd', hitems⟩ := ht.items hf
  obtain rfl : d = d' := by simpa using hd.symm.trans hd'
  refine ⟨ht.tidy, fun hv => ?_, fun hv hy hr => ?_, ?_, ?_⟩
  · rcases hcases hv with hv | ⟨hx, hr⟩
    · exact h.viewed hv
    · exact ⟨hx, hr ▸ hroot⟩
  · rcases hcases hv with hv | ⟨-, hx⟩
    · exact (h.whole hv hy hr).imp fun _ => ht.knows.nodes
    · exact hviewed hy (hr.trans hx)
  · -- the views of the new document are of the tree of `id`, of which there was no view
    rw [hd, List.pairwise_append]
    refine ⟨h.once.imp_of_mem fun {d₁ d₂} hd₁ hd₂ hone v hv w hw x y hx hy => ?_,
      List.pairwise_singleton _ _, fun d₁ hd₁ d₂ hd₂ v hv w hw x y hx hy => ?_⟩
    · obtain ⟨x', hx'⟩ := h.lookup_of_mem hd₁ hv
      obtain ⟨y', hy'⟩ := h.lookup_of_mem hd₂ hw
      obtain rfl := Option.some.inj (hx.symm.trans (ht.knows.nodes hx'))
      obtain rfl := Option.some.inj (hy.symm.trans (ht.knows.nodes hy'))
      exact hone v hv w hw _ _ hx' hy'
    · obtain ⟨x', hx'⟩ := h.lookup_of_mem hd₁ hv
      obtain rfl := Option.some.inj (hx.symm.trans (ht.knows.nodes hx'))
      obtain rfl := List.mem_singleton.1 hd₂
      obtain ⟨c, hc, hmade⟩ := exists_left_of_forall₂ hmade hw
      obtain rfl := Option.some.inj (hy.symm.trans (hmade.shows (hf.traces c)))
      rw [hf.root_of_mem_tops hc, hf.root_root]
      intro hr
      obtain ⟨u, hu⟩ := h.whole hx' hid hr.symm
      cases hnew.symm.trans (h.tidy.inverse.1 hu)
  · intro d₁ hd₁
    rw [hd, List.mem_append, List.mem_singleton] at hd₁
    rcases hd₁ with hd₁ | rfl
    · exact fun i hi => (h.items d₁ hd₁ i hi).mono ht.knows
    · exact hitems

/-! ## Looking up views -/

/-- Only a document can be without anything to evaluate against. -/
theorem rooted_root_iff (hf : f.WellFormed) (hid : f.IsViewed id) : Rooted f (f.root id) ↔
    (f.class? (f.root id) = some .document → f.rootElement? (f.root id) ≠ none) := by
  refine ⟨fun ⟨r, hr⟩ hd hnone => ?_, fun h => ?_⟩
  · rcases contextNode_eq_ok.1 hr with ⟨-, hroot⟩ | ⟨hviewed, -⟩
    · cases hnone.symm.trans hroot
    · exact hviewed.class?_ne_document hd
  · rcases hf.document_or_isViewed_root hid with hd | hviewed
    · obtain ⟨r, hr⟩ := Option.ne_none_iff_exists'.1 (h hd)
      exact ⟨r, contextNode_eq_ok.2 (.inl ⟨hd, hr⟩)⟩
    · exact ⟨_, contextNode_eq_ok.2 (.inr ⟨hviewed, rfl⟩)⟩

theorem run_buildTop_of_not_rooted (hf : f.WellFormed) (hid : f.IsViewed id)
    (hno : ¬ Rooted f (f.root id)) (n : Navigator) :
    (buildTop f.typeName (f.tree (f.root id))).run n = (.ok (), n) := by
  rw [rooted_root_iff hf hid, Classical.not_imp, not_not] at hno
  obtain ⟨cs, hx⟩ := Forest.exists_document hno.1
  have hnone : (cs.map f.tree).dropWhile (!·.isElement) = [] := by
    have hfind := hno.2
    rw [Forest.rootElement?, Forest.children_of_content? hx] at hfind
    rw [List.dropWhile_eq_nil_iff]
    intro t ht
    obtain ⟨c, hc, rfl⟩ := List.mem_map.1 ht
    simpa [hf.isElement_tree] using List.find?_eq_none.1 hfind c hc
  rw [hf.tree_document hx, buildTop, hnone]
  rfl

theorem run_viewOf_of_lookup (hid : f.class? id ≠ some .document)
    (hv : n.views.lookup id = some v) : (viewOf f id).run n = (.ok v, n) := by
  unfold viewOf
  rw [if_neg hid, pure_bind, run_bind_ok (run_get n), hv]
  rfl

theorem run_viewOf_of_emptyDocument (hd : f.class? id = some .document)
    (hr : f.rootElement? id = none) (n : Navigator) :
    (viewOf f id).run n = (.error .noView, n) := by
  unfold viewOf
  rw [if_pos hd, hr]
  rfl

/-- A view that is still not there after making that of the whole tree is an error. -/
theorem run_viewOf_of_empty (hid : f.class? id ≠ some .document) (hv : n.views.lookup id = none)
    (hbuild : (buildTop f.typeName (f.tree (f.root id))).run n = (.ok (), m))
    (hv' : m.views.lookup id = none) :
    (viewOf f id).run n = (.error (f.failureOn (.node id) .unrepresentable), m) := by
  unfold viewOf
  rw [if_neg hid, pure_bind, run_bind_ok (run_get n), hv]
  dsimp only
  rw [run_bind_ok hbuild, run_bind_ok (run_get m), hv']
  rfl

theorem Sound.run_viewOf_of_missing (hf : f.WellFormed) (h : Sound f n)
    (hx : f.content? id = none) :
    (Navigator.viewOf f id).run n = (.error (f.failureOn (.node id) .unrepresentable), n) := by
  have hclass : f.class? id = none := by rw [Forest.class?, hx]; rfl
  have hempty : n.views.lookup id = none := by
    cases hv : n.views.lookup id with
    | none => rfl
    | some v =>
      have hviewed := (h.viewed (h.tidy.inverse.2 hv)).1
      simp [Forest.IsViewed, hclass] at hviewed
  refine run_viewOf_of_empty (by simp [hclass]) hempty ?_ hempty
  rw [hf.tree_root_of_missing hx]
  rfl

theorem viewOf_eq_of_contextNode (h : contextNode f (.node id) = .ok e) :
    viewOf f id = viewOf f e := by
  rcases contextNode_eq_ok.1 h with ⟨hd, hroot⟩ | ⟨-, rfl⟩
  · unfold viewOf
    rw [if_pos hd, hroot, if_neg (isViewed_of_contextNode h).class?_ne_document]
  · rfl

/-- A view that is looked up successfully is that of the node, and the navigator stays sound. -/
theorem Sound.viewOf (hf : f.WellFormed) (h : Sound f n) (hid : f.IsViewed id)
    (hrun : (viewOf f id).run n = (.ok v, n')) :
    Sound f n' ∧ Extends f [f.root id] n n' ∧ n'.nodes.lookup v = some id := by
  cases hv : n.views.lookup id with
  | some w =>
    rw [run_viewOf_of_lookup hid.class?_ne_document hv] at hrun
    cases hrun
    exact ⟨h, .refl _ _ _, h.tidy.inverse.2 hv⟩
  | none =>
    obtain ⟨hbuild, hlookup⟩ := run_viewOf hid.class?_ne_document hv hrun
    rcases buildTop_eq_ok hf h.tidy (h.fresh hf hid hv) hbuild with ⟨rfl, -⟩ | ht
    · cases hv.symm.trans hlookup
    · have hroot : Rooted f (f.root id) := by
        by_contra hno
        rw [run_buildTop_of_not_rooted hf hid hno] at hbuild
        cases hbuild
        cases hv.symm.trans hlookup
      refine ⟨h.withTree hf hid hroot hv ht, ⟨ht.knows, fun {x} hx => ?_, fun hp => ?_⟩,
        ht.tidy.inverse.2 hlookup⟩
      · refine ht.others x fun hm => hx ?_
        rw [hf.root_of_mem_ids hm, hf.root_root]
        exact List.mem_singleton_self _
      · obtain ⟨x, w, hx, hw⟩ := hp _ (List.mem_singleton_self _) hroot
        obtain ⟨u, hu⟩ := h.whole hw hid hx.symm
        cases hv.symm.trans (h.tidy.inverse.1 hu)

/-- A navigator that has been bound holds the views of the tree of its context and no others. -/
theorem sound_of_bind (hf : f.WellFormed) {context : Value}
    (h : (Navigator.bind f context).run n = (.ok (), n')) :
    Sound f n' ∧ ∃ id v, contextNode f context = .ok id ∧ n'.context = some v ∧
      n'.nodes.lookup v = some id ∧
      ∀ x, (n'.views.lookup x).isSome ↔ f.IsViewed x ∧ f.root x = f.root id := by
  obtain ⟨id, v, m, hc, hrun, rfl⟩ := bind_eq_viewOf h
  obtain ⟨hsound, hextends, hv⟩ := (sound_reset f n).viewOf hf (isViewed_of_contextNode hc) hrun
  refine ⟨⟨⟨hsound.tidy.nodes_lt, hsound.tidy.texts_lt, hsound.tidy.inverse⟩, hsound.viewed,
    hsound.whole, hsound.once, fun d hd i hi => ?_⟩, id, v, hc, rfl, hv, fun x => ?_⟩
  · exact (hsound.items d hd i hi).mono ⟨fun hv => hv, fun hs => hs⟩
  · show (m.views.lookup x).isSome = true ↔ _
    rw [Option.isSome_iff_exists]
    refine ⟨fun ⟨w, hw⟩ => ⟨(hsound.viewed (hsound.tidy.inverse.2 hw)).1, ?_⟩,
      fun ⟨hx, hr⟩ => ?_⟩
    · by_contra hne
      rw [hextends.others (mt List.mem_singleton.1 hne)] at hw
      cases hw
    · obtain ⟨w, hw⟩ := hsound.whole hv hx hr
      exact ⟨w, hsound.tidy.inverse.1 hw⟩

/-! ## Values for an engine -/

/-- The node that is shown for a node: a document has the view of its root element, and in a document
without one nothing has a view. -/
def StandsFor (f : Forest) (id e : NodeId) : Prop :=
  contextNode f (.node id) = .ok e ∧ Rooted f (f.root e)

mutual

/-- What a value becomes for an engine: nodes become the views that `n` has of them, lists and tuples
lists of what their items become. -/
inductive Becomes (f : Forest) (n : Navigator) : Value → EngineValue → Prop where
  | view {id e : NodeId} {v : ViewId} : StandsFor f id e → n.nodes.lookup v = some e →
      Becomes f n (.node id) (.view v)
  | attr {id : NodeId} {name value : String} {ns : Namespace} :
      f.content? id = some (.attr name value ns) → Becomes f n (.node id) (.value (.text value))
  | text {id : NodeId} {value : Value} : f.content? id = some (.text value) →
      Becomes f n (.node id) (.value value)
  | ns (ns : Namespace) : Becomes f n (.ns ns) (.value (.text ns.uri))
  | nsNode (ns : Namespace) (owner : Option NodeId) :
      Becomes f n (.nsNode ns owner) (.value (.text ns.uri))
  | list {vs : List Value} {es : List EngineValue} : BecomesAll f n vs es →
      Becomes f n (.list vs) (.list es)
  | tuple {vs : List Value} {es : List EngineValue} : BecomesAll f n vs es →
      Becomes f n (.tuple vs) (.list es)
  | none : Becomes f n .none (.value .none)
  | bool (b : Bool) : Becomes f n (.bool b) (.value (.bool b))
  | int (i : Int) : Becomes f n (.int i) (.value (.int i))
  | float (x : Float) : Becomes f n (.float x) (.value (.float x))
  | string (s : String) : Becomes f n (.text s) (.value (.text s))
  | dict (es : List (Value × Value)) : Becomes f n (.dict es) (.value (.dict es))
  | other (type shown : String) : Becomes f n (.other type shown) (.value (.other type shown))

/-- Item by item, in order. -/
inductive BecomesAll (f : Forest) (n : Navigator) : List Value → List EngineValue → Prop where
  | nil : BecomesAll f n [] []
  | cons {v : Value} {vs : List Value} {e : EngineValue} {es : List EngineValue} :
      Becomes f n v e → BecomesAll f n vs es → BecomesAll f n (v :: vs) (e :: es)

end

mutual

theorem Becomes.mono {v : Value} {e : EngineValue} (h : Becomes f n v e) (hk : Knows n m) :
    Becomes f m v e := by
  cases h with
  | view hs hv => exact .view hs (hk.nodes hv)
  | attr hx => exact .attr hx
  | text hx => exact .text hx
  | list hall => exact .list (hall.mono hk)
  | tuple hall => exact .tuple (hall.mono hk)
  | _ => constructor

theorem BecomesAll.mono {vs : List Value} {es : List EngineValue} (h : BecomesAll f n vs es)
    (hk : Knows n m) : BecomesAll f m vs es := by
  cases h with
  | nil => exact .nil
  | cons hv hvs => exact .cons (hv.mono hk) (hvs.mono hk)

end

theorem Sound.toEngine_node (hf : f.WellFormed) (h : Sound f n)
    (ha : ∀ name value ns, f.content? id ≠ some (.attr name value ns))
    (ht : ∀ value, f.content? id ≠ some (.text value))
    (hrun : (Navigator.viewOf f id).run n = (.ok v, n')) :
    Sound f n' ∧ Extends f [f.root id] n n' ∧ Becomes f n' (.node id) (.view v) := by
  have hstands : ∃ e, contextNode f (.node id) = .ok e ∧ f.root e = f.root id := by
    rcases f.content_cases id with hx | ⟨name, value, ns, hx⟩ | ⟨value, hx⟩ | hd | hviewed
    · rw [h.run_viewOf_of_missing hf hx] at hrun
      cases hrun
    · exact absurd hx (ha name value ns)
    · exact absurd hx (ht value)
    · cases hr : f.rootElement? id with
      | none =>
        rw [run_viewOf_of_emptyDocument hd hr] at hrun
        cases hrun
      | some e =>
        refine ⟨e, contextNode_eq_ok.2 (.inl ⟨hd, hr⟩), ?_⟩
        exact hf.root_of_parent (hf.parent_of_child (List.mem_of_find?_eq_some hr))
    · exact ⟨id, contextNode_eq_ok.2 (.inr ⟨hviewed, rfl⟩), rfl⟩
  obtain ⟨e, hc, hroot⟩ := hstands
  rw [viewOf_eq_of_contextNode hc] at hrun
  obtain ⟨hsound, hextends, hv⟩ := h.viewOf hf (isViewed_of_contextNode hc) hrun
  exact ⟨hsound, hroot ▸ hextends, .view ⟨hc, (hsound.viewed hv).2⟩ hv⟩

mutual

/-- What an engine is given is what the value becomes, and the navigator stays sound. -/
theorem Sound.toEngine {n n' : Navigator} (hf : f.WellFormed) (h : Sound f n) {v : Value}
    {e : EngineValue}
    (hrun : (Navigator.toEngine f v).run n = (.ok e, n')) :
    Sound f n' ∧ Extends f (v.nodes.map f.root) n n' ∧ Becomes f n' v e := by
  cases v with
  | node id =>
    unfold Navigator.toEngine at hrun
    split at hrun
    · next hx =>
      cases hrun
      exact ⟨h, .refl _ _ _, .attr hx⟩
    · next hx =>
      cases hrun
      exact ⟨h, .refl _ _ _, .text hx⟩
    · next hattr htext =>
      obtain ⟨v, m, hv, hrun⟩ := run_bind_eq_ok hrun
      cases hrun
      exact h.toEngine_node hf hattr htext hv
  | list vs =>
    obtain ⟨es, m, hes, hrun⟩ := run_bind_eq_ok hrun
    cases hrun
    obtain ⟨hsound, hextends, hall⟩ := h.toEngineAll hf hes
    exact ⟨hsound, hextends, .list hall⟩
  | tuple vs =>
    obtain ⟨es, m, hes, hrun⟩ := run_bind_eq_ok hrun
    cases hrun
    obtain ⟨hsound, hextends, hall⟩ := h.toEngineAll hf hes
    exact ⟨hsound, hextends, .tuple hall⟩
  | _ =>
    cases hrun
    exact ⟨h, .refl _ _ _, by constructor⟩

theorem Sound.toEngineAll {n n' : Navigator} (hf : f.WellFormed) (h : Sound f n)
    {vs : List Value} {es : List EngineValue}
    (hrun : (Navigator.toEngineAll f vs).run n = (.ok es, n')) :
    Sound f n' ∧ Extends f ((Value.nodesAll vs).map f.root) n n' ∧ BecomesAll f n' vs es := by
  cases vs with
  | nil =>
    cases hrun
    exact ⟨h, .refl _ _ _, .nil⟩
  | cons v vs =>
    obtain ⟨e, m₁, he, hrun⟩ := run_bind_eq_ok hrun
    obtain ⟨es', m₂, hes, hrun⟩ := run_bind_eq_ok hrun
    cases hrun
    obtain ⟨hsound, hextends, hv⟩ := h.toEngine hf he
    obtain ⟨hsound', hextends', hvs⟩ := hsound.toEngineAll hf hes
    refine ⟨hsound', ?_, .cons (hv.mono hextends'.knows) hvs⟩
    rw [Value.nodesAll, List.map_append]
    exact hextends.trans hextends'

end

end Navigator

end TreeQuery
