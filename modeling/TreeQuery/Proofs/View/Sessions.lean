import TreeQuery.Proofs.View.Accepted
import TreeQuery.Proofs.View.NamespaceAxis
import TreeQuery.Proofs.View.Parts

/-!
# Sessions

One navigator can be asked for the views of many trees, one call after the other, and does not mix
them as long as it is not asked for the view of an attribute or a text (`Navigator.session_unmixed`).
To be asked for one fails, and leaves two views of every node of a tree whose views are already there
(`Navigator.part_remakes_views`).
-/

namespace TreeQuery.Navigator

variable {f : Forest} {n n' m : Navigator} {id e top : NodeId} {v : ViewId}

/-! ## Calls -/

inductive Call where
  | bind (context : Value)
  | viewOf (id : NodeId)
  | toEngine (v : Value)
  | reset

/-- The navigator after a call, with what has changed before the call failed. -/
def Call.perform (f : Forest) (n : Navigator) : Call → Navigator
  | .bind context => ((Navigator.bind f context).run n).2
  | .viewOf id => ((Navigator.viewOf f id).run n).2
  | .toEngine v => ((Navigator.toEngine f v).run n).2
  | .reset => n.reset

def performAll (f : Forest) (n : Navigator) (calls : List Call) : Navigator :=
  calls.foldl (Call.perform f) n

/-- Whether some of the calls are for the view of an attribute or a text. -/
def AskForParts (f : Forest) (calls : List Call) : Prop := ∃ id, f.IsPart id ∧ .viewOf id ∈ calls

/-- A call that does not forget the views. -/
def Call.Keeping : Call → Prop
  | .viewOf _ | .toEngine _ => True
  | _ => False

/-- Whether the views of all trees can be made, whatever has been made before, and also of all nodes
for themselves. -/
structure Representable (f : Forest) : Prop where
  tree : ∀ id, f.IsViewed id → Succeeds (buildTop f.typeName (f.tree (f.root id)))
  node : ∀ id, f.IsViewed id → Succeeds (build f.typeName outerSurroundings (f.tree id))

theorem representable_of_isAccepted (hf : f.WellFormed)
    (h : ∀ id, f.IsViewed id → ∀ x ∈ (f.tree (f.root id)).ids, f.isAccepted x = true) :
    Representable f where
  tree id hid := succeeds_buildTop hf (hf.document_or_isViewed_root hid) (h id hid)
  node id hid := by
    have hmem := hf.mem_ids_root hid.class?_ne_attr
    exact succeeds_build hf hid (fun x hx => h id hid x (hf.ids_subset_of_mem hmem hx)) _

/-! ## Looking up views -/

theorem shown_of_succeeds (hf : f.WellFormed) (hid : f.IsViewed id)
    (h : Succeeds (build f.typeName outerSurroundings (f.tree id))) :
    ∃ s, f.shown (.node id) = .ok s := by
  rcases hid.content? with ⟨e, hx⟩ | ⟨value, hx⟩ | ⟨target, data, hx⟩
  · exact ⟨_, by rw [Forest.shown, Value.shown, Forest.shownNode, Forest.shownUpTo, hx]; rfl⟩
  · obtain ⟨v, n', hrun⟩ := h {}
    rw [hf.tree_comment hx] at hrun
    unfold build at hrun
    obtain ⟨s, m, hs, -⟩ := run_bind_eq_ok hrun
    rw [Forest.shown, Value.shown, Forest.shownNode, Forest.shownUpTo, hx]
    cases value with
    | text t => exact ⟨_, rfl⟩
    | none => exact ⟨_, rfl⟩
    | _ => cases hs
  · exact ⟨_, by rw [Forest.shown, Value.shown, Forest.shownNode, Forest.shownUpTo, hx]; rfl⟩

theorem shown_of_missing (hx : f.content? id = none) : f.shown (.node id) = .ok "..." := by
  rw [Forest.shown, Value.shown, Forest.shownNode, Forest.shownUpTo, hx]
  rfl

/-- A document with a root element is shown by that, another node by itself unless it is in a
document without one. -/
theorem standsFor_iff (hf : f.WellFormed) : StandsFor f id e ↔
    f.class? id = some .document ∧ f.rootElement? id = some e ∨
      f.IsViewed id ∧ e = id ∧
        (f.class? (f.root id) = some .document → f.rootElement? (f.root id) ≠ none) := by
  rw [StandsFor, contextNode_eq_ok]
  refine ⟨fun ⟨hc, hroot⟩ => ?_, fun h => ?_⟩
  · rcases hc with hd | ⟨hviewed, rfl⟩
    · exact .inl hd
    · exact .inr ⟨hviewed, rfl, (rooted_root_iff hf hviewed).1 hroot⟩
  · rcases h with ⟨hd, he⟩ | ⟨hviewed, rfl, hroot⟩
    · have hr : f.root e = id := by
        rw [hf.root_of_parent (hf.parent_of_child (List.mem_of_find?_eq_some he)),
          Forest.root_of_top (hf.parent?_of_document hd)]
      exact ⟨.inl ⟨hd, he⟩, hr ▸ ⟨e, contextNode_eq_ok.2 (.inl ⟨hd, he⟩)⟩⟩
    · exact ⟨.inr ⟨hviewed, rfl⟩, (rooted_root_iff hf hviewed).2 hroot⟩

/-- The view of a node can be looked up unless there is nothing to evaluate against in its tree. -/
theorem Sound.viewOf_total (hf : f.WellFormed) (hr : Representable f) (h : Sound f n)
    (hid : f.IsViewed id) :
    (Rooted f (f.root id) ∧ ∃ v n', (Navigator.viewOf f id).run n = (.ok v, n')) ∨
      (¬ Rooted f (f.root id)) ∧
        (Navigator.viewOf f id).run n = (.error (f.failureOn (.node id) .unrepresentable), n) := by
  cases hv : n.views.lookup id with
  | some v =>
    exact .inl ⟨(h.viewed (h.tidy.inverse.2 hv)).2, v, n,
      run_viewOf_of_lookup hid.class?_ne_document hv⟩
  | none =>
    obtain ⟨u, m, hbuild⟩ := hr.tree id hid n
    by_cases hroot : Rooted f (f.root id)
    · rcases buildTop_eq_ok hf h.tidy (h.fresh hf hid hv) hbuild with ⟨-, hno⟩ | ht
      · obtain ⟨r, hr⟩ := hroot
        exact absurd hr (hno r)
      · obtain ⟨v, hv'⟩ := (ht.accounts hf (hf.mem_ids_root hid.class?_ne_attr)).viewed hid
        exact .inl ⟨hroot, v, m, run_viewOf_of_buildTop hid.class?_ne_document hv hbuild
          (ht.tidy.inverse.1 hv')⟩
    · exact .inr ⟨hroot, run_viewOf_of_empty hid.class?_ne_document hv
        (run_buildTop_of_not_rooted hf hid hroot n) hv⟩

/-- What looking up a view comes to: it is that of the node that is shown for the given one, or there
is no such node and nothing changes. -/
inductive Lookup (f : Forest) (id : NodeId) (n : Navigator) : Except Failure ViewId → Navigator →
    Prop where
  | found {e : NodeId} {v : ViewId} {n' : Navigator} : StandsFor f id e →
      n'.nodes.lookup v = some e → Extends f [f.root id] n n' → Lookup f id n (.ok v) n'
  | refused {fault : Failure} : (∀ e, ¬ StandsFor f id e) → fault.kind = .type →
      Lookup f id n (.error fault) n

theorem Sound.lookup_viewOf (hf : f.WellFormed) (hr : Representable f) (h : Sound f n)
    (ha : ∀ name value ns, f.content? id ≠ some (.attr name value ns))
    (ht : ∀ value, f.content? id ≠ some (.text value)) :
    ∃ answer n', (Navigator.viewOf f id).run n = (answer, n') ∧ Sound f n' ∧
      Lookup f id n answer n' := by
  have hviewed {e} (hc : contextNode f (.node id) = .ok e) (hroot : f.root e = f.root id) :
      ∃ answer n', (Navigator.viewOf f id).run n = (answer, n') ∧ Sound f n' ∧
        Lookup f id n answer n' := by
    rw [viewOf_eq_of_contextNode hc]
    have he := isViewed_of_contextNode hc
    rcases h.viewOf_total hf hr he with ⟨hrooted, v, n', hrun⟩ | ⟨hno, hrun⟩
    · obtain ⟨hsound, hextends, hv⟩ := h.viewOf hf he hrun
      exact ⟨_, n', hrun, hsound, .found ⟨hc, hrooted⟩ hv (hroot ▸ hextends)⟩
    · obtain ⟨s, hs⟩ := shown_of_succeeds hf he (hr.node e he)
      refine ⟨_, n, hrun, h, .refused (fun x hx => hno ?_) ?_⟩
      · obtain rfl := Except.ok.inj (hc.symm.trans hx.1)
        exact hx.2
      · rw [Forest.failureOn_of_shown hs]
        rfl
  rcases f.content_cases id with hx | ⟨name, value, ns, hx⟩ | ⟨value, hx⟩ | hd | hid
  · refine ⟨_, n, h.run_viewOf_of_missing hf hx, h, .refused (fun e he => ?_) ?_⟩
    · have hclass : f.class? id = none := by rw [Forest.class?, hx]; rfl
      rcases contextNode_eq_ok.1 he.1 with ⟨hd, -⟩ | ⟨hid, -⟩
      · cases hclass.symm.trans hd
      · simp [Forest.IsViewed, hclass] at hid
    · rw [Forest.failureOn_of_shown (shown_of_missing hx)]
      rfl
  · exact absurd hx (ha name value ns)
  · exact absurd hx (ht value)
  · cases hroot : f.rootElement? id with
    | none =>
      refine ⟨_, n, run_viewOf_of_emptyDocument hd hroot n, h, .refused (fun e he => ?_) rfl⟩
      rcases contextNode_eq_ok.1 he.1 with ⟨-, hsome⟩ | ⟨hid, -⟩
      · cases hroot.symm.trans hsome
      · exact hid.class?_ne_document hd
    | some e =>
      exact hviewed (contextNode_eq_ok.2 (.inl ⟨hd, hroot⟩))
        (hf.root_of_parent (hf.parent_of_child (List.mem_of_find?_eq_some hroot)))
  · exact hviewed (contextNode_eq_ok.2 (.inr ⟨hid, rfl⟩)) rfl

theorem Sound.lookup_of_not_part (hf : f.WellFormed) (hr : Representable f) (h : Sound f n)
    (hid : ¬ f.IsPart id) : ∃ answer n', (Navigator.viewOf f id).run n = (answer, n') ∧
      Sound f n' ∧ Lookup f id n answer n' :=
  h.lookup_viewOf hf hr (fun _ _ _ hx => hid (.inl (Forest.class?_of_content? hx)))
    fun _ hx => hid (.inr (Forest.class?_of_content? hx))

/-- What looking up an attribute or a text comes to: there is no view of it, but its tree has got new
ones, and those that there were are views of the same nodes still. -/
inductive PartLookup (f : Forest) (id : NodeId) (n : Navigator) : Except Failure ViewId →
    Navigator → Prop where
  | detached : f.parent? id = none →
      PartLookup f id n (.error (f.noMember (.node id) "target")) n
  | remade {n' : Navigator} : f.parent? id ≠ none → Remade f (f.root id) n n' →
      (∀ x v, f.root x = f.root id → n.views.lookup x = some v →
        n'.nodes.lookup v = some x ∧ n'.views.lookup x ≠ some v) →
      PartLookup f id n (.error (f.failureOn (.node id) .unrepresentable)) n'

theorem Sound.lookup_of_part (hf : f.WellFormed) (hr : Representable f) (h : Sound f n)
    (hid : f.IsPart id) : ∃ answer n', (Navigator.viewOf f id).run n = (answer, n') ∧
      PartLookup f id n answer n' := by
  have hviewed {x v} (hv : n.views.lookup x = some v) : f.IsViewed x :=
    (h.viewed (h.tidy.inverse.2 hv)).1
  have hempty : n.views.lookup id = none :=
    Option.eq_none_iff_forall_ne_some.2 fun v hv => hid.not_isViewed (hviewed hv)
  cases hp : f.parent? id with
  | none => exact ⟨_, n, run_viewOf_detached hf hid hp hempty, .detached hp⟩
  | some p =>
    have hbuild (m : Navigator) :
        ∃ m', (buildTop f.typeName (f.tree (f.root id))).run m = (.ok (), m') := by
      obtain ⟨⟨⟩, m', hrun⟩ := hr.tree p (.inl (hf.isElement_of_part hid hp)) m
      exact ⟨m', hf.root_of_parent hp ▸ hrun⟩
    obtain ⟨n', hrun, hremade⟩ := run_viewOf_part hf hid hp hbuild hempty
    refine ⟨_, n', hrun, .remade (by rw [hp]; nofun) hremade fun x v hx hv => ?_⟩
    have hv' := h.tidy.inverse.2 hv
    exact hremade.stale (hviewed hv) hx hv' (h.tidy.nodes_lt hv')

/-! ## Values -/

/-- A node that cannot be shown to an engine: it has a view of its own or stands for one, but in its
document there is no root element. -/
def Unshown (f : Forest) (id : NodeId) : Prop :=
  (∀ name value ns, f.content? id ≠ some (.attr name value ns)) ∧
    (∀ value, f.content? id ≠ some (.text value)) ∧ ∀ e, ¬ StandsFor f id e

/-- What giving the nodes `ids` to an engine comes to: the engine gets what they become, or one of
them cannot be shown. -/
inductive Conversion {α : Type} (f : Forest) (ids : List NodeId) (becomes : Navigator → α → Prop)
    (n : Navigator) : Except Failure α → Navigator → Prop where
  | done {a : α} {n' : Navigator} : becomes n' a → Extends f (ids.map f.root) n n' →
      Conversion f ids becomes n (.ok a) n'
  | refused {fault : Failure} {n' : Navigator} {id : NodeId} : id ∈ ids → Unshown f id →
      fault.kind = .type → Extends f (ids.map f.root) n n' →
      Conversion f ids becomes n (.error fault) n'

theorem Sound.convert_node (hf : f.WellFormed) (hr : Representable f) (h : Sound f n)
    (ha : ∀ name value ns, f.content? id ≠ some (.attr name value ns))
    (ht : ∀ value, f.content? id ≠ some (.text value)) :
    ∃ answer n', (do return EngineValue.view (← Navigator.viewOf f id)).run n = (answer, n') ∧
      Sound f n' ∧ Conversion f [id] (Becomes f · (.node id)) n answer n' := by
  obtain ⟨answer, n', hrun, hsound, hlookup⟩ := h.lookup_viewOf hf hr ha ht
  cases hlookup with
  | found hs hv hextends =>
    exact ⟨_, n', run_bind_ok hrun, hsound, .done (.view hs hv) hextends⟩
  | refused hno hkind =>
    exact ⟨_, n, run_bind_error hrun, hsound,
      .refused (List.mem_singleton_self id) ⟨ha, ht, hno⟩ hkind (.refl _ _ _)⟩

mutual

/-- Every value is converted, at any depth, or refused. -/
theorem Sound.convert {n : Navigator} (hf : f.WellFormed) (hr : Representable f) (h : Sound f n)
    (v : Value) : ∃ answer n', (Navigator.toEngine f v).run n = (answer, n') ∧ Sound f n' ∧
      Conversion f v.nodes (Becomes f · v) n answer n' := by
  cases v with
  | node id =>
    unfold Navigator.toEngine
    split
    · next hx => exact ⟨_, n, rfl, h, .done (.attr hx) (.refl _ _ _)⟩
    · next hx => exact ⟨_, n, rfl, h, .done (.text hx) (.refl _ _ _)⟩
    · next ha ht => exact h.convert_node hf hr ha ht
  | list vs =>
    obtain ⟨answer, n', hrun, hsound, hall⟩ := h.convertAll hf hr vs
    cases hall with
    | done hbecomes hextends =>
      exact ⟨_, n', run_bind_ok hrun, hsound, .done (.list hbecomes) hextends⟩
    | refused hmem hno hkind hextends =>
      exact ⟨_, n', run_bind_error hrun, hsound, .refused hmem hno hkind hextends⟩
  | tuple vs =>
    obtain ⟨answer, n', hrun, hsound, hall⟩ := h.convertAll hf hr vs
    cases hall with
    | done hbecomes hextends =>
      exact ⟨_, n', run_bind_ok hrun, hsound, .done (.tuple hbecomes) hextends⟩
    | refused hmem hno hkind hextends =>
      exact ⟨_, n', run_bind_error hrun, hsound, .refused hmem hno hkind hextends⟩
  | _ => exact ⟨_, n, rfl, h, .done (by constructor) (.refl _ _ _)⟩

theorem Sound.convertAll {n : Navigator} (hf : f.WellFormed) (hr : Representable f) (h : Sound f n)
    (vs : List Value) : ∃ answer n', (Navigator.toEngineAll f vs).run n = (answer, n') ∧
      Sound f n' ∧ Conversion f (Value.nodesAll vs) (BecomesAll f · vs) n answer n' := by
  cases vs with
  | nil => exact ⟨_, n, rfl, h, .done .nil (.refl _ _ _)⟩
  | cons v vs =>
    rw [Navigator.toEngineAll, Value.nodesAll]
    obtain ⟨answer, m, hrun, hsound, hfirst⟩ := h.convert hf hr v
    cases hfirst with
    | refused hmem hno hkind hextends =>
      refine ⟨_, m, run_bind_error hrun, hsound,
        .refused (List.mem_append_left _ hmem) hno hkind ?_⟩
      exact hextends.mono (List.map_subset _ (List.subset_append_left _ _))
    | done hbecomes hextends =>
      obtain ⟨others, n', hrest, hsound', hall⟩ := hsound.convertAll hf hr vs
      cases hall with
      | done hbecomes' hextends' =>
        refine ⟨_, n', ?_, hsound', .done (.cons (hbecomes.mono hextends'.knows) hbecomes') ?_⟩
        · rw [run_bind_ok hrun, run_bind_ok hrest]
          rfl
        · rw [List.map_append]
          exact hextends.trans hextends'
      | refused hmem hno hkind hextends' =>
        refine ⟨_, n', ?_, hsound', .refused (List.mem_append_right _ hmem) hno hkind ?_⟩
        · rw [run_bind_ok hrun, run_bind_error hrest]
        · rw [List.map_append]
          exact hextends.trans hextends'

end

/-! ## Binding -/

/-- Only a node with a view of its own, or a document that one stands for, can be bound. What has been
remembered before is forgotten also when that fails. -/
theorem bind_total (hf : f.WellFormed) (hr : Representable f) (n : Navigator) (context : Value) :
    (∃ n', (Navigator.bind f context).run n = (.ok (), n')) ∨
      ∃ fault : Failure, (Navigator.bind f context).run n = (.error fault, n.reset) := by
  have hreset : (modify reset : M Unit).run n = (.ok (), n.reset) := rfl
  unfold Navigator.bind
  rw [run_bind_ok hreset]
  cases hc : contextNode f context with
  | error fault => exact .inr ⟨fault, run_bind_error rfl⟩
  | ok id =>
    have hid : (ExceptT.mk (pure (.ok id)) : M NodeId).run n.reset = (.ok id, n.reset) := rfl
    rw [run_bind_ok hid]
    rcases (sound_reset f n).viewOf_total hf hr (isViewed_of_contextNode hc) with
      ⟨-, v, m, hv⟩ | ⟨-, hv⟩
    · rw [run_bind_ok hv]
      exact .inl ⟨_, rfl⟩
    · exact .inr ⟨_, run_bind_error hv⟩

/-- Whether a scope has exactly the bindings at a node: those of the node itself if it is an element,
or else of the element around it. -/
structure HasScope (f : Forest) (id : NodeId) (scope : List (String × String)) : Prop where
  once : (scope.map (·.1)).Nodup
  mem_iff : ∀ p uri, (p, uri) ∈ scope ↔ ∃ e, f.isElement e = true ∧
    (e = id ∨ f.isElement id = false ∧ f.parent? id = some e) ∧
      ∃ ns ∈ f.scope e, ns ≠ Namespace.none ∧ ns.pfx = p ∧ ns.uri = uri

theorem scopeElement?_eq_some_iff : scopeElement? f id = some e ↔
    f.isElement e = true ∧ (e = id ∨ f.isElement id = false ∧ f.parent? id = some e) := by
  unfold scopeElement?
  cases hid : f.isElement id with
  | true =>
    rw [if_pos rfl, Option.some.injEq]
    exact ⟨fun he => he ▸ ⟨hid, .inl rfl⟩, fun h => (h.2.resolve_right (by simp)).symm⟩
  | false =>
    rw [if_neg Bool.false_ne_true, Option.filter_eq_some_iff]
    constructor
    · rintro ⟨hp, he⟩
      exact ⟨he, .inr ⟨rfl, hp⟩⟩
    · rintro ⟨he, rfl | ⟨-, hp⟩⟩
      · cases hid.symm.trans he
      · exact ⟨hp, he⟩

theorem hasScope_contextScope {context : Value} (hc : contextNode f context = .ok id) :
    HasScope f id (contextScope f context) := by
  unfold contextScope
  rw [hc]
  show HasScope f id (((scopeElement? f id).map (scopeOf f)).getD [])
  cases he : scopeElement? f id with
  | none =>
    refine ⟨.nil, fun p uri => ⟨fun h => ?_, ?_⟩⟩
    · cases h
    · rintro ⟨e, helement, hplace, -⟩
      cases he.symm.trans (scopeElement?_eq_some_iff.2 ⟨helement, hplace⟩)
  | some e =>
    obtain ⟨helement, hplace⟩ := scopeElement?_eq_some_iff.1 he
    refine ⟨?_, fun p uri => ?_⟩
    · have hnodup := f.nodup_scope e
      show ((((f.scope e).filter (· != Namespace.none)).map fun n => (n.pfx, n.uri)).map
        (·.1)).Nodup
      rw [List.map_map]
      exact (List.filter_sublist.map _).nodup hnodup
    · show (p, uri) ∈ scopeOf f e ↔ _
      rw [mem_scopeOf]
      refine ⟨fun h => ⟨e, helement, hplace, h⟩, ?_⟩
      rintro ⟨e', helement', hplace', h⟩
      obtain rfl := Option.some.inj
        (he.symm.trans (scopeElement?_eq_some_iff.2 ⟨helement', hplace'⟩))
      exact h

/-! ## Sessions -/

/-- What holds of a navigator at any moment, and what the next call comes to. -/
structure Unmixed (f : Forest) (n : Navigator) : Prop where
  inverse : ∀ v x, n.nodes.lookup v = some x ↔ n.views.lookup x = some v
  viewed : ∀ x v, n.views.lookup x = some v → f.IsViewed x
  whole : ∀ x y, f.IsViewed x → f.IsViewed y → f.root x = f.root y →
    ((n.views.lookup x).isSome ↔ (n.views.lookup y).isSome)
  /-- No two of the documents that have been made are of one tree. -/
  once : n.documents.Pairwise fun d d' => ∀ v ∈ d, ∀ w ∈ d', ∀ x y,
    n.nodes.lookup v.id = some x → n.nodes.lookup w.id = some y → f.root x ≠ f.root y
  lookup : ∀ id, ¬ f.IsPart id →
    ∃ answer n', (viewOf f id).run n = (answer, n') ∧ Lookup f id n answer n'
  part : ∀ id, f.IsPart id →
    ∃ answer n', (viewOf f id).run n = (answer, n') ∧ PartLookup f id n answer n'
  document : ∀ id e, f.class? id = some .document → f.rootElement? id = some e →
    (viewOf f id).run n = (viewOf f e).run n
  /-- Nothing in a document without a root element has a view. -/
  emptyDocument : ∀ id, f.class? id = some .document ∨ f.IsViewed id →
    f.class? (f.root id) = some .document → f.rootElement? (f.root id) = none →
      ∃ fault : Failure, fault.kind = .type ∧ (viewOf f id).run n = (.error fault, n)
  conversion : ∀ v, ∃ answer n', (toEngine f v).run n = (answer, n') ∧
    Conversion f v.nodes (Becomes f · v) n answer n'
  back : ∀ x, f.IsViewed x → Rooted f (f.root x) → ∃ v n',
    (toEngine f (.node x)).run n = (.ok (.view v), n') ∧ n'.toTree f (.view v) = .ok (.node x)
  bound : ∀ context n', (Navigator.bind f context).run n = (.ok (), n') →
    ∃ id v, contextNode f context = .ok id ∧ n'.context = some v ∧ n'.nodes.lookup v = some id ∧
      (∀ x, (n'.views.lookup x).isSome ↔ f.IsViewed x ∧ f.root x = f.root id) ∧
        HasScope f id n'.scope

theorem Sound.unmixed (hf : f.WellFormed) (hr : Representable f) (h : Sound f n) :
    Unmixed f n where
  inverse := fun _ _ => h.tidy.inverse
  viewed := fun _ _ hv => (h.viewed (h.tidy.inverse.2 hv)).1
  whole := fun x y hx hy hr => by
    have himp {x y} (hy : f.IsViewed y) (hr : f.root y = f.root x)
        (hs : (n.views.lookup x).isSome) : (n.views.lookup y).isSome := by
      obtain ⟨v, hv⟩ := Option.isSome_iff_exists.1 hs
      obtain ⟨w, hw⟩ := h.whole (h.tidy.inverse.2 hv) hy hr
      exact Option.isSome_iff_exists.2 ⟨w, h.tidy.inverse.1 hw⟩
    exact ⟨himp hy hr.symm, himp hx hr⟩
  once := h.once
  lookup := fun id hc => by
    obtain ⟨answer, n', hrun, -, hlookup⟩ := h.lookup_of_not_part hf hr hc
    exact ⟨answer, n', hrun, hlookup⟩
  part := fun id hc => h.lookup_of_part hf hr hc
  document := fun id e hd he => by
    rw [viewOf_eq_of_contextNode (contextNode_eq_ok.2 (.inl ⟨hd, he⟩))]
  emptyDocument := fun id hid hd hempty => by
    have hno : ¬ f.IsPart id := hid.elim (fun h hpart => hpart.class?_ne_document h)
      fun h hpart => hpart.not_isViewed h
    obtain ⟨answer, n', hrun, -, hlookup⟩ := h.lookup_of_not_part hf hr hno
    cases hlookup with
    | found hs _ _ =>
      rcases (standsFor_iff hf).1 hs with ⟨htop, he⟩ | ⟨-, -, hroot⟩
      · rw [Forest.root_of_top (hf.parent?_of_document htop), he] at hempty
        cases hempty
      · exact absurd hempty (hroot hd)
    | refused _ hkind => exact ⟨_, hkind, hrun⟩
  conversion := fun v => by
    obtain ⟨answer, n', hrun, -, hconversion⟩ := h.convert hf hr v
    exact ⟨answer, n', hrun, hconversion⟩
  back := fun x hx hroot => by
    obtain ⟨answer, n', hrun, -, hconversion⟩ := h.convert hf hr (.node x)
    have hstands : StandsFor f x x := ⟨contextNode_eq_ok.2 (.inr ⟨hx, rfl⟩), hroot⟩
    cases hconversion with
    | done hbecomes _ =>
      cases hbecomes with
      | view hs hv =>
        obtain rfl := Except.ok.inj (hstands.1.symm.trans hs.1)
        exact ⟨_, n', hrun, toTree_view hv⟩
      | attr hy => exact absurd (Forest.class?_of_content? hy) hx.class?_ne_attr
      | text hy => simp [Forest.IsViewed, Forest.class?_of_content? hy, Content.nodeClass] at hx
    | refused hmem hno _ _ =>
      obtain rfl := List.mem_singleton.1 hmem
      exact absurd hstands (hno.2.2 _)
  bound := fun context n' hrun => by
    obtain ⟨-, id, v, hc, hcontext, hv, hviews⟩ := sound_of_bind hf hrun
    refine ⟨id, v, hc, hcontext, hv, hviews, ?_⟩
    rw [(scope_of_bind hrun).2]
    exact hasScope_contextScope hc

/-- A call keeps the navigator sound, and its views unless it forgets them all. -/
theorem Sound.perform (hf : f.WellFormed) (hr : Representable f) (h : Sound f n) {call : Call}
    (hc : ∀ id, call = .viewOf id → ¬ f.IsPart id) :
    Sound f (call.perform f n) ∧ (call.Keeping → Knows n (call.perform f n)) := by
  cases call with
  | bind context =>
    refine ⟨?_, nofun⟩
    rcases bind_total hf hr n context with ⟨n', hrun⟩ | ⟨fault, hrun⟩
    · rw [Call.perform, hrun]
      exact (sound_of_bind hf hrun).1
    · rw [Call.perform, hrun]
      exact sound_reset f n
  | viewOf id =>
    obtain ⟨answer, n', hrun, hsound, hlookup⟩ := h.lookup_of_not_part hf hr (hc id rfl)
    rw [Call.perform, hrun]
    refine ⟨hsound, fun _ => ?_⟩
    cases hlookup with
    | found _ _ hextends => exact hextends.knows
    | refused => exact .refl n
  | toEngine v =>
    obtain ⟨answer, n', hrun, hsound, hconversion⟩ := h.convert hf hr v
    rw [Call.perform, hrun]
    refine ⟨hsound, fun _ => ?_⟩
    cases hconversion with
    | done _ hextends => exact hextends.knows
    | refused _ _ _ hextends => exact hextends.knows
  | reset => exact ⟨sound_reset f n, nofun⟩

theorem Sound.performAll (hf : f.WellFormed) (hr : Representable f) (h : Sound f n)
    {calls : List Call} (hc : ¬ AskForParts f calls) : Sound f (performAll f n calls) ∧
      ((∀ call ∈ calls, call.Keeping) → Knows n (Navigator.performAll f n calls)) := by
  induction calls generalizing n with
  | nil => exact ⟨h, fun _ => .refl n⟩
  | cons call calls ih =>
    obtain ⟨hsound, hknows⟩ := h.perform hf hr fun id he hid =>
      hc ⟨id, hid, he ▸ List.mem_cons_self⟩
    obtain ⟨hsound', hknows'⟩ := ih hsound fun ⟨id, hid, hm⟩ =>
      hc ⟨id, hid, List.mem_cons_of_mem _ hm⟩
    refine ⟨hsound', fun hk => ?_⟩
    exact (hknows (hk call List.mem_cons_self)).trans
      (hknows' fun c hm => hk c (List.mem_cons_of_mem _ hm))

/-- Whatever calls are made on a navigator, it does not mix the views of trees unless it is asked for
the view of an attribute or a text: views and nodes are inverse to each other, a tree has all of its
views or none and they are made once, the next call makes views of no other trees than it is about,
and as long as the views are not forgotten every node keeps its own. To ask for the view of an
attribute or a text makes new views of its tree, and leaves the old ones behind. -/
theorem session_unmixed (hb : f.Built) (hr : Representable f) (calls more : List Call)
    (hc : ¬ AskForParts f (calls ++ more)) :
    Unmixed f (performAll f {} calls) ∧ ((∀ call ∈ more, call.Keeping) → ∀ x v,
      (performAll f {} calls).views.lookup x = some v →
        (performAll f {} (calls ++ more)).views.lookup x = some v) := by
  have hf := hb.wellFormed
  have hempty : Sound f {} := sound_reset f {}
  obtain ⟨hsound, -⟩ := hempty.performAll hf hr fun ⟨id, hid, hm⟩ =>
    hc ⟨id, hid, List.mem_append_left _ hm⟩
  obtain ⟨hsound', hknows⟩ := hsound.performAll hf hr fun ⟨id, hid, hm⟩ =>
    hc ⟨id, hid, List.mem_append_right _ hm⟩
  refine ⟨hsound.unmixed hf hr, fun hk x v hv => ?_⟩
  rw [performAll, List.foldl_append]
  exact hsound'.tidy.inverse.1 ((hknows hk).nodes (hsound.tidy.inverse.2 hv))

/-- A document with a comment before its root element, an element in a tree of its own and a document
that holds only a comment. -/
def threeTrees : Forest :=
  ⟨#[⟨none, .document [1, 2]⟩, ⟨some 0, .comment (.text "c")⟩,
    ⟨some 0, .element ⟨"r", Namespace.none, [], [], [3]⟩⟩, ⟨some 2, .text (.text "x")⟩,
    ⟨none, .element ⟨"o", Namespace.none, [], [], []⟩⟩, ⟨none, .document [6]⟩,
    ⟨some 5, .comment (.text "")⟩]⟩

theorem built_threeTrees : threeTrees.Built := by
  have h := Forest.Built.comment (.text "c")
    (.document .empty (rfl : Forest.empty.newDocument .none = .ok (_, 0)))
  have h := h.element (rfl : Forest.newElement _ (some "r") Namespace.none = .ok (_, 2))
  have h := h.text (.text "x")
  have h := h.element (rfl : Forest.newElement _ (some "o") Namespace.none = .ok (_, 4))
  have h := (h.document (rfl : Forest.newDocument _ .none = .ok (_, 5))).comment (.text "")
  have h := ((h.extend 2 [.node 3]).extend 0 [.node 1, .node 2]).extend 5 [.node 6]
  cbv at h
  exact h

/-- A value with nodes of two trees is converted while a third tree has no views; afterwards the
views are still there. -/
theorem session_unmixed_threeTrees :
    let calls : List Call := [.bind (.node 0), .viewOf 6,
      .toEngine (.list [.node 4, .tuple [.node 1, .node 3]])]
    let more : List Call := [.viewOf 0, .toEngine (.node 5)]
    Unmixed threeTrees (performAll threeTrees {} calls) ∧
      (performAll threeTrees {} calls).views.lookup 4 = some 2 ∧
      (performAll threeTrees {} (calls ++ more)).views.lookup 4 = some 2 := by
  intro calls more
  have hr : Representable threeTrees := by
    have haccepted : ∀ id < 7, ∀ x ∈ (threeTrees.tree (threeTrees.root id)).ids,
        threeTrees.isAccepted x = true := by decide
    refine representable_of_isAccepted built_threeTrees.wellFormed fun id hid => haccepted id ?_
    rcases hid.content? with ⟨e, hx⟩ | ⟨value, hx⟩ | ⟨target, data, hx⟩
    all_goals exact Forest.lt_size_of_content? hx
  have hproper : ¬ AskForParts threeTrees (calls ++ more) := by
    rintro ⟨id, hid, hm⟩
    have hone : id = 6 ∨ id = 0 := by simpa [calls, more] using hm
    rcases hone with rfl | rfl <;> rcases hid with h | h <;> cases h
  obtain ⟨hunmixed, hkept⟩ := session_unmixed built_threeTrees hr calls more hproper
  have hview : (performAll threeTrees {} calls).views.lookup 4 = some 2 := rfl
  exact ⟨hunmixed, hview, hkept (by simp [more, Call.Keeping]) 4 2 hview⟩

/-- An element with an attribute. -/
def attributed : Forest :=
  ⟨#[⟨none, .element ⟨"r", Namespace.none, [], [1], []⟩⟩, ⟨some 0, .attr "a" "v" Namespace.none⟩]⟩

theorem built_attributed : attributed.Built := by
  have h := Forest.Built.element .empty
    (rfl : Forest.newElement _ (some "r") Namespace.none = .ok (_, 0))
  have h := h.setAttribute
    (rfl : Forest.setAttribute _ 0 (some "a") (.text "v") Namespace.none = .ok (_, 1))
  cbv at h
  exact h

/-- Once it is bound to an element, a navigator has its view. When it has then been asked for the view
of an attribute of the element, it has another one, while the first is still a view of the element. -/
theorem part_remakes_views :
    let bound := performAll attributed {} [.bind (.node 0)]
    let asked := performAll attributed {} [.bind (.node 0), .viewOf 1]
    attributed.Built ∧ Representable attributed ∧
      bound.views.lookup 0 = some 0 ∧ bound.nodes.lookup 0 = some 0 ∧
      ((viewOf attributed 1).run bound).1 =
        .error (.unrepresentable "<Attribute a='v'>") ∧
      asked.views.lookup 0 = some 1 ∧ asked.nodes.lookup 1 = some 0 ∧
      asked.nodes.lookup 0 = some 0 := by
  intro bound asked
  have haccepted : ∀ id < 2, ∀ x ∈ (attributed.tree (attributed.root id)).ids,
      attributed.isAccepted x = true := by decide
  refine ⟨built_attributed, representable_of_isAccepted built_attributed.wellFormed fun id hid =>
    haccepted id ?_, rfl, rfl, rfl, rfl, rfl, rfl⟩
  rcases hid.content? with ⟨e, hx⟩ | ⟨value, hx⟩ | ⟨target, data, hx⟩
  all_goals exact Forest.lt_size_of_content? hx

end TreeQuery.Navigator
