import TreeQuery.Proofs.View.Course
import TreeQuery.Proofs.View.Sound

/-!
# Views that are not finished

If the view of a tree can not be made, the navigator has remembered the nodes whose views were begun
before that, and keeps them. Such a node has its view from then on, while the other nodes of the tree
are refused again, whatever the navigator is (`Navigator.unfinished_remembered`).
-/

namespace TreeQuery.Navigator

variable {f : Forest} {n m n' : Navigator} {id top x c : NodeId} {fault : Failure}
  {cause : Option Failure} {ids : List NodeId} {v : ViewId}

/-! ## Looking up what is not there -/

/-- What makes the view of the tree fail is what the lookup of a node fails with. -/
theorem run_viewOf_of_error (hid : f.class? id ≠ some .document) (hempty : n.views.lookup id = none)
    (hbuild : (buildTop f.typeName (f.tree (f.root id))).run n = (.error fault, n')) :
    (viewOf f id).run n = (.error fault, n') := by
  unfold viewOf
  rw [if_neg hid, pure_bind, run_bind_ok (run_get n), hempty]
  exact run_bind_error hbuild

/-- If there is something to evaluate against in a tree, its view holds all nodes that have views. -/
theorem mem_viewedTop_of_rooted (hf : f.WellFormed) (hid : f.IsViewed id)
    (hroot : Rooted f (f.root id))
    (hbuild : ∀ n, ∃ m n', (buildTop f.typeName (f.tree (f.root id))).run n = (.ok (), n') ∧
      Remembers none (f.tree (f.root id)).viewedTop n m ∧ SameMaps m n') :
    id ∈ (f.tree (f.root id)).viewedTop := by
  -- in a navigator that knows nothing yet, only nodes in the order have a view afterwards
  obtain ⟨_, m, hrun, hremembers, hsame⟩ := hbuild (reset {})
  rcases buildTop_eq_ok hf (tidy_reset {}) (fun x _ => rfl) hrun with ⟨-, hno⟩ | ht
  · obtain ⟨r, hr⟩ := hroot
    exact absurd hr (hno r)
  · obtain ⟨v, hv⟩ := (ht.accounts hf (hf.mem_ids_root hid.class?_ne_attr)).viewed hid
    have hlookup := ht.tidy.inverse.1 hv
    by_contra hmem
    rw [hsame.views, hremembers.views, views_rememberedAll_of_not_mem hmem] at hlookup
    cases hlookup

/-- The lookup of a node fails with what its tree is refused for, or there is nothing in the tree to
evaluate against. -/
theorem viewOf_eq_error (hf : f.WellFormed) (hid : f.IsViewed id)
    (h : (viewOf f id).run n = (.error fault, n')) :
    (∃ ids, ids <+: (f.tree (f.root id)).viewedTop ∧
      Course none ids (some fault) (buildTop f.typeName (f.tree (f.root id)))) ∨
      ¬ Rooted f (f.root id) := by
  have hd := hid.class?_ne_document
  cases hv : n.views.lookup id with
  | some v =>
    rw [run_viewOf_of_lookup hd hv] at h
    cases h
  | none =>
    rcases buildTop_cases f.typeName (f.tree (f.root id)) with
      ⟨ids, fault', hpart, hcourse⟩ | hbuild
    · obtain ⟨m, hrun, -⟩ := hcourse.run_error n
      rw [run_viewOf_of_error hd hv hrun] at h
      cases h
      exact .inl ⟨ids, hpart, hcourse⟩
    · refine .inr fun hroot => ?_
      have hmem := mem_viewedTop_of_rooted hf hid hroot hbuild
      obtain ⟨_, m, hrun, hremembers, hsame⟩ := hbuild n
      obtain ⟨v, -, hv', -⟩ := exists_view_of_mem hmem n
      rw [← hremembers.views, ← hsame.views] at hv'
      rw [run_viewOf_of_buildTop hd hv hrun hv'] at h
      cases h

/-! ## Trees without a view -/

/-- What the lookup of a node fails with: the cause for which its tree is refused, or else that the
node is not in a tree that has a view. -/
def raised (f : Forest) (cause : Option Failure) (x : NodeId) : Failure :=
  cause.getD (f.failureOn (.node x) .unrepresentable)

theorem toEngine_of_contextNode (hc : contextNode f (.node c) = .ok id) :
    toEngine f (.node c) = viewOf f c >>= fun v => pure (.view v) := by
  have hkind : f.class? c = some .document ∨ f.IsViewed c :=
    (contextNode_eq_ok.1 hc).imp And.left And.left
  unfold toEngine
  split
  · next hx =>
    rcases hkind with hd | hviewed
    · cases hd.symm.trans (Forest.class?_of_content? hx)
    · exact absurd (Forest.class?_of_content? hx) hviewed.class?_ne_attr
  · next value hx =>
    rcases hkind with hd | hviewed
    · cases hd.symm.trans (Forest.class?_of_content? hx)
    · exact absurd hx (hviewed.content?_ne_text value)
  · rfl

/-- A tree of which no view can be made: of its nodes `ids`, views are begun every time. -/
structure Unfinished (f : Forest) (top : NodeId) (ids : List NodeId) (cause : Option Failure) :
    Prop where
  part : ids <+: (f.tree top).viewedTop
  viewed : ∀ x ∈ ids, f.IsViewed x ∧ f.root x = top
  /-- A node that has no view is refused. -/
  refused : ∀ m c x, contextNode f (.node c) = .ok x → f.root x = top →
    m.views.lookup x = none → ∃ m', (viewOf f c).run m = (.error (raised f cause x), m') ∧
      (toEngine f (.node c)).run m = (.error (raised f cause x), m') ∧ Remembers none ids m m'
  /-- No node can be evaluated against. -/
  unbound : ∀ m c x, contextNode f (.node c) = .ok x → f.root x = top →
    ∃ m', (Navigator.bind f (.node c)).run m = (.error (raised f cause x), m') ∧
      Remembers none ids m.reset m'

/-- A tree has no view if the lookup of each of its nodes fails whenever there is nothing to find. -/
theorem unfinished_of_viewOf (hpart : ids <+: (f.tree top).viewedTop)
    (hviewed : ∀ x ∈ ids, f.IsViewed x ∧ f.root x = top)
    (hrun : ∀ m x, f.IsViewed x → f.root x = top → m.views.lookup x = none →
      ∃ m', (viewOf f x).run m = (.error (raised f cause x), m') ∧ Remembers none ids m m') :
    Unfinished f top ids cause := by
  refine ⟨hpart, hviewed, fun m c x hc hr hv => ?_, fun m c x hc hr => ?_⟩
  · obtain ⟨m', h, hremembers⟩ := hrun m x (isViewed_of_contextNode hc) hr hv
    rw [toEngine_of_contextNode hc, viewOf_eq_of_contextNode hc]
    exact ⟨m', h, run_bind_error h, hremembers⟩
  · obtain ⟨m', h, hremembers⟩ := hrun m.reset x (isViewed_of_contextNode hc) hr rfl
    refine ⟨m', ?_, hremembers⟩
    have hreset : (modify reset : M Unit).run m = (.ok (), m.reset) := rfl
    unfold Navigator.bind
    rw [run_bind_ok hreset, hc]
    show (viewOf f x >>= _).run m.reset = _
    exact run_bind_error h

/-- A tree in which the lookup of a node fails has no view. -/
theorem exists_unfinished (hf : f.WellFormed) (hid : f.IsViewed id)
    (h : (viewOf f id).run n = (.error fault, n')) : ∃ ids cause,
      fault = raised f cause id ∧ Remembers none ids n n' ∧ Unfinished f (f.root id) ids cause := by
  have hempty : n.views.lookup id = none := by
    rw [Option.eq_none_iff_forall_ne_some]
    intro v hv
    rw [run_viewOf_of_lookup hid.class?_ne_document hv] at h
    cases h
  obtain ⟨ids, cause, hpart, hrun⟩ : ∃ ids cause, ids <+: (f.tree (f.root id)).viewedTop ∧
      ∀ m x, f.IsViewed x → f.root x = f.root id → m.views.lookup x = none →
        ∃ m', (viewOf f x).run m = (.error (raised f cause x), m') ∧ Remembers none ids m m' := by
    rcases viewOf_eq_error hf hid h with ⟨ids, hpart, hcourse⟩ | hno
    · refine ⟨ids, some fault, hpart, fun m x hx hr hv => ?_⟩
      obtain ⟨m', hrun, hremembers⟩ := hcourse.run_error m
      exact ⟨m', run_viewOf_of_error hx.class?_ne_document hv (hr ▸ hrun), hremembers⟩
    · refine ⟨[], none, List.nil_prefix .., fun m x hx hr hv => ⟨m, ?_, .refl none m⟩⟩
      exact run_viewOf_of_empty hx.class?_ne_document hv
        (run_buildTop_of_not_rooted hf hx (hr ▸ hno) m) hv
  have hviewed (x) (hx : x ∈ ids) : f.IsViewed x ∧ f.root x = f.root id := by
    obtain ⟨hviewed, hmem⟩ := hf.isViewed_of_mem_viewedTop (hpart.subset hx)
    exact ⟨hviewed, (hf.mem_ids_root_iff hviewed.class?_ne_attr).1 hmem⟩
  obtain ⟨m', hagain, hremembers⟩ := hrun n id hid rfl hempty
  cases h.symm.trans hagain
  exact ⟨ids, cause, rfl, hremembers, unfinished_of_viewOf hpart hviewed hrun⟩

/-- If the view of a node is asked for and can not be made, the views that were begun before that
stay: of the nodes `ids`, the first in the order of their tree. Each of them is found from then on,
while the other nodes of the tree are refused again. All else that the navigator has remembered is as
it was, and to begin anew makes no difference: with any navigator, the same views are begun, and any
node of which there is no view is refused for the same cause. -/
theorem unfinished_remembered (hb : f.Built) (hc : contextNode f (.node c) = .ok id)
    (h : (viewOf f c).run n = (.error fault, n') ∨
      (toEngine f (.node c)).run n = (.error fault, n')) :
    ∃ ids cause, fault = raised f cause id ∧ Unfinished f (f.root id) ids cause ∧
      Remembers none ids n n' ∧
      (∀ x ∈ ids, ∃ v, n.next ≤ v ∧ n'.nodes.lookup v = some x ∧
        (viewOf f x).run n' = (.ok v, n') ∧ (toEngine f (.node x)).run n' = (.ok (.view v), n')) ∧
      (∀ x ∉ ids, n'.views.lookup x = n.views.lookup x) ∧
      ∀ v < n.next, n'.nodes.lookup v = n.nodes.lookup v := by
  have hrun : (viewOf f id).run n = (.error fault, n') := by
    rw [← viewOf_eq_of_contextNode hc]
    rcases h with h | h
    · exact h
    · rw [toEngine_of_contextNode hc] at h
      rcases run_bind_eq_error h with h | ⟨v, m, -, h⟩
      · exact h
      · cases h
  obtain ⟨ids, cause, hfault, hremembers, hunfinished⟩ :=
    exists_unfinished hb.wellFormed (isViewed_of_contextNode hc) hrun
  refine ⟨ids, cause, hfault, hunfinished, hremembers, fun x hx => ?_, fun x hx => ?_,
    fun v hv => ?_⟩
  · obtain ⟨v, hge, hviews, hnodes⟩ := exists_view_of_mem hx n
    rw [← hremembers.views] at hviews
    rw [← hremembers.nodes] at hnodes
    have hviewed := (hunfinished.viewed x hx).1
    have hfound := run_viewOf_of_lookup hviewed.class?_ne_document hviews
    have hx : contextNode f (.node x) = .ok x := contextNode_eq_ok.2 (.inr ⟨hviewed, rfl⟩)
    refine ⟨v, hge, hnodes, hfound, ?_⟩
    rw [toEngine_of_contextNode hx]
    exact run_bind_ok hfound
  · rw [hremembers.views, views_rememberedAll_of_not_mem hx]
  · rw [hremembers.nodes, nodes_rememberedAll hv]

/-- An element that holds an empty element and then a comment that is refused. -/
def refusedComment : Forest :=
  ⟨#[⟨none, .element ⟨"r", Namespace.none, [], [], [1, 2]⟩⟩,
    ⟨some 0, .element ⟨"a", Namespace.none, [], [], []⟩⟩, ⟨some 0, .comment (.text "a--b")⟩]⟩

theorem built_refusedComment : refusedComment.Built := by
  let r : Forest := ⟨#[⟨none, .element ⟨"r", Namespace.none, [], [], []⟩⟩]⟩
  let ra : Forest := ⟨#[⟨none, .element ⟨"r", Namespace.none, [], [], []⟩⟩,
    ⟨none, .element ⟨"a", Namespace.none, [], [], []⟩⟩]⟩
  let r₁ : Forest := ⟨#[⟨none, .element ⟨"r", Namespace.none, [], [], [1]⟩⟩,
    ⟨some 0, .element ⟨"a", Namespace.none, [], [], []⟩⟩]⟩
  have h : r.Built := .element .empty (rfl : Forest.newElement _ (some "r") _ = .ok (_, 0))
  have ha : ra.Built := .element h (rfl : Forest.newElement _ (some "a") _ = .ok (_, 1))
  have h₁ : r₁.Built := .append ha (rfl : Forest.appendValue _ 0 (.node 1) = .ok (_, 1))
  exact .append (h₁.comment (.text "a--b")) (rfl : Forest.appendValue _ 0 (.node 2) = .ok (_, 2))

/-- The views of the two elements are begun before the comment is refused. -/
theorem unfinished_remembered_comment :
    let n' := ((viewOf refusedComment 0).run {}).2
    contextNode refusedComment (.node 0) = .ok 0 ∧
      (viewOf refusedComment 0).run {} = (.error (.engine .value), n') ∧
      Unfinished refusedComment 0 [0, 1] (some (.engine .value)) ∧ Remembers none [0, 1] {} n' := by
  intro n'
  have hc : contextNode refusedComment (.node 0) = .ok 0 := rfl
  have hrun : (viewOf refusedComment 0).run {} = (.error (.engine .value), n') := rfl
  obtain ⟨ids, cause, hfault, hunfinished, hremembers, -⟩ :=
    unfinished_remembered built_refusedComment hc (.inl hrun)
  obtain rfl : cause = some (.engine .value) := by
    cases cause with
    | none => cases hfault
    | some fault => exact congrArg some hfault.symm
  have hlength : ids.length = 2 := (Nat.zero_add _).symm.trans hremembers.next.symm
  have hids : ids <+: [0, 1, 2] := hunfinished.part
  obtain rfl : ids = [0, 1] := by
    rw [List.prefix_iff_eq_take.1 hids, hlength]
    rfl
  exact ⟨hc, hrun, hunfinished, hremembers⟩

/-- A node that was refused is found when it is asked for again. -/
theorem refused_view_found :
    refusedComment.Built ∧ ∃ n' v, (viewOf refusedComment 0).run {} = (.error (.engine .value), n') ∧
      n'.views.lookup 0 = some v ∧ ({} : Navigator).views.lookup 0 = none ∧
      (viewOf refusedComment 0).run n' = (.ok v, n') :=
  ⟨built_refusedComment, _, 0, rfl, rfl, rfl, rfl⟩

end TreeQuery.Navigator
