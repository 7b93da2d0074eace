import Mathlib.Data.List.TakeWhile
import TreeQuery.Proofs.Lookup
import TreeQuery.Proofs.View.Traces

/-!
# Traces of whole trees

The view of a whole tree is made of what stands at its top (`Forest.tops`), unless that is a
document without a root element (`Navigator.buildTop_eq_ok`). The view of a node is looked up in it,
and to bind a navigator is to look up the view of the context (`Navigator.bind_eq_viewOf`).
-/

namespace TreeQuery

namespace Forest

variable {f : Forest} {top x : NodeId}

/-- What stands at the top of the view of a tree: the children of a document, or else the node
itself. -/
def tops (f : Forest) (top : NodeId) : List NodeId :=
  match f.content? top with
  | some (.document cs) => cs
  | _ => [top]

theorem tops_of_document (hd : f.class? top = some .document) : f.tops top = f.children top := by
  obtain ⟨cs, hx⟩ := exists_document hd
  rw [tops, hx, children_of_content? hx]
  rfl

theorem tops_of_ne_document (hd : f.class? top ≠ some .document) : f.tops top = [top] := by
  rw [tops]
  split
  · next hx => exact absurd (class?_of_content? hx) hd
  · rfl

theorem WellFormed.exists_top (h : WellFormed f) (hx : x ∈ (f.tree top).ids)
    (hd : f.class? x ≠ some .document) : ∃ c ∈ f.tops top, x ∈ (f.tree c).ids := by
  by_cases htop : f.class? top = some .document
  · rcases (h.mem_ids_iff (by rw [htop]; nofun)).1 hx with rfl | ⟨c, hc, hx⟩
    · exact absurd htop hd
    · exact ⟨c, tops_of_document htop ▸ hc, hx⟩
  · exact ⟨top, tops_of_ne_document htop ▸ List.mem_singleton_self top, hx⟩

end Forest

namespace Navigator

open XPath (Branch)

variable {n n' m : Navigator} {f : Forest} {id top : NodeId}

/-! ## Nodes side by side -/

/-- What making views of nodes side by side leaves behind. -/
structure TracesAll (f : Forest) (cs : List NodeId) (n n' : Navigator) (vs : List View) :
    Prop where
  tidy : Tidy n'
  grows : Grows none (Tree.idsAll (cs.map f.tree)) n n'
  adds : AddsViewed f n n'
  made : List.Forall₂ (fun c v => Made f outerSurroundings c n' (.ofView v)) cs vs

theorem traces_buildAll (hf : f.WellFormed) {cs : List NodeId} {vs : List View} (ht : Tidy n)
    (hnew : ∀ x ∈ Tree.idsAll (cs.map f.tree), n.views.lookup x = none)
    (hnodup : (Tree.idsAll (cs.map f.tree)).Nodup)
    (h : (buildAll f.typeName (cs.map f.tree)).run n = (.ok vs, n')) :
    TracesAll f cs n n' vs := by
  induction cs generalizing n vs with
  | nil =>
    cases h
    exact ⟨ht, .refl _ _ _, .refl _ _, .nil⟩
  | cons c cs ih =>
    rw [List.map_cons, Tree.idsAll] at hnew hnodup
    rw [List.map_cons] at h
    obtain ⟨v, m₁, hv, h₁⟩ := run_bind_eq_ok h
    obtain ⟨others, m₂, hothers, h₂⟩ := run_bind_eq_ok h₁
    cases h₂
    obtain ⟨-, hnodup', hdisjoint⟩ := List.nodup_append'.1 hnodup
    have hfirst := hf.traces c ht (fun x hx => hnew x (List.mem_append_left _ hx)) hv
    have hfresh (x) (hx : x ∈ Tree.idsAll (cs.map f.tree)) : m₁.views.lookup x = none := by
      rw [hfirst.grows.others x fun hx' => hdisjoint hx' hx]
      exact hnew x (List.mem_append_right _ hx)
    have hrest := ih hfirst.tidy hfresh hnodup' hothers
    refine ⟨hrest.tidy, hfirst.grows.trans hrest.grows (by rintro _ ⟨⟩),
      hfirst.adds.trans hrest.adds, .cons ?_ hrest.made⟩
    exact ⟨n, m₁, v, ht, fun x hx => hnew x (List.mem_append_left _ hx), hv, hrest.grows.knows, rfl⟩

theorem run_buildAll_append {typeName : Value → String} {ts us : List Tree} {vs ws : List View}
    (h : (buildAll typeName ts).run n = (.ok vs, m))
    (h' : (buildAll typeName us).run m = (.ok ws, n')) :
    (buildAll typeName (ts ++ us)).run n = (.ok (vs ++ ws), n') := by
  induction ts generalizing n vs with
  | nil =>
    cases h
    exact h'
  | cons t ts ih =>
    obtain ⟨v, m₁, hv, h₁⟩ := run_bind_eq_ok h
    obtain ⟨others, m₂, hothers, h₂⟩ := run_bind_eq_ok h₁
    cases h₂
    rw [List.cons_append, buildAll, run_bind_ok hv, run_bind_ok (ih hothers)]
    rfl

theorem length_buildAll {typeName : Value → String} {ts : List Tree} {vs : List View}
    (h : (buildAll typeName ts).run n = (.ok vs, n')) : vs.length = ts.length := by
  induction ts generalizing n vs with
  | nil =>
    cases h
    rfl
  | cons t ts ih =>
    obtain ⟨v, m₁, -, h₁⟩ := run_bind_eq_ok h
    obtain ⟨others, m₂, hothers, h₂⟩ := run_bind_eq_ok h₁
    cases h₂
    rw [List.length_cons, List.length_cons, ih hothers]

/-! ## Whole trees -/

/-- The navigator with one more document. -/
def withDocument (n : Navigator) (d : ViewDocument) : Navigator :=
  { n with documents := n.documents ++ [d] }

theorem knows_withDocument (n : Navigator) (d : ViewDocument) : Knows n (n.withDocument d) :=
  ⟨fun hv => hv, fun hs => hs⟩

theorem Tidy.withDocument (h : Tidy n) (d : ViewDocument) : Tidy (n.withDocument d) :=
  ⟨h.nodes_lt, h.texts_lt, h.inverse⟩

theorem idsAll_perm {cs ds : List NodeId} (h : cs.Perm ds) :
    (Tree.idsAll (cs.map f.tree)).Perm (Tree.idsAll (ds.map f.tree)) := by
  rw [Tree.idsAll_eq, Tree.idsAll_eq]
  exact (h.map f.tree).flatMap_right _

/-- What making the view of a whole tree leaves behind. -/
structure TracesTop (f : Forest) (top : NodeId) (n n' : Navigator) : Prop where
  tidy : Tidy n'
  knows : Knows n n'
  others : ∀ x ∉ (f.tree top).ids, n'.views.lookup x = n.views.lookup x
  adds : AddsViewed f n n'
  document : ∃ d, n'.documents = n.documents ++ [d] ∧
    List.Forall₂ (fun c v => Made f outerSurroundings c n' (.ofView v)) (f.tops top) d

theorem TracesTop.accounts (hf : f.WellFormed) (h : TracesTop f top n n') {x : NodeId}
    (hx : x ∈ (f.tree top).ids) : Accounts f n' x := by
  by_cases hd : f.class? x = some .document
  · refine ⟨fun hv => ?_, fun hv => absurd hd hv.class?_ne_document⟩
    cases hd.symm.trans (Forest.class?_of_content? hv)
  · obtain ⟨d, -, hmade⟩ := h.document
    obtain ⟨c, hc, hx⟩ := hf.exists_top hx hd
    obtain ⟨v, -, hmade⟩ := exists_right_of_forall₂ hmade hc
    exact hmade.accounts (hf.traces c) x hx

theorem TracesTop.items (hf : f.WellFormed) (h : TracesTop f top n n') :
    ∃ d, n'.documents = n.documents ++ [d] ∧
      ∀ i ∈ Branch.itemsAll (d.map Branch.ofView), Resolves n' f i := by
  obtain ⟨d, hd, hmade⟩ := h.document
  refine ⟨d, hd, fun i hi => ?_⟩
  obtain ⟨b, hb, hi⟩ := Branch.mem_itemsAll.1 hi
  obtain ⟨v, hv, rfl⟩ := List.mem_map.1 hb
  obtain ⟨c, -, hmade⟩ := exists_left_of_forall₂ hmade hv
  exact hmade.items (hf.traces c) i hi

/-- The views that stand at the top become a document. -/
theorem TracesAll.withDocument {cs : List NodeId} {vs : List View} {d : ViewDocument}
    (h : TracesAll f cs n n' vs)
    (hids : Tree.idsAll (cs.map f.tree) ⊆ (f.tree top).ids)
    (hd : List.Forall₂ (fun c v => Made f outerSurroundings c n' (.ofView v)) (f.tops top) d) :
    TracesTop f top n (n'.withDocument d) where
  tidy := h.tidy.withDocument d
  knows := h.grows.knows.trans (n'.knows_withDocument d)
  others := fun x hx => h.grows.others x fun hx' => hx (hids hx')
  adds := h.adds
  document := ⟨d, congrArg (· ++ [d]) h.grows.documents,
    hd.imp fun _ _ hmade => hmade.mono (n'.knows_withDocument d)⟩

/-- The view of a document: the root element is made first, then what stands before it, then what
stands after it from the end. -/
theorem buildTop_document {cs : List NodeId} (hf : f.WellFormed)
    (hx : f.content? id = some (.document cs)) (ht : Tidy n)
    (hnew : ∀ x ∈ (f.tree id).ids, n.views.lookup x = none)
    (h : (buildTop f.typeName (f.tree id)).run n = (.ok (), n')) :
    n' = n ∧ (∀ c ∈ cs, f.isElement c = false) ∨ TracesTop f id n n' := by
  have hnodup := hf.nodup_ids id
  have hids : (f.tree id).ids = id :: Tree.idsAll (cs.map f.tree) := by
    rw [hf.tree_document hx, Tree.ids]
  rw [hids] at hnew hnodup
  rw [hf.tree_document hx] at h
  unfold buildTop at h
  dsimp only at h
  rw [List.dropWhile_map, List.takeWhile_map] at h
  have hsplit := List.takeWhile_append_dropWhile (p := (!Tree.isElement ·) ∘ f.tree) (l := cs)
  generalize cs.takeWhile ((!Tree.isElement ·) ∘ f.tree) = pre at h hsplit
  cases hd : cs.dropWhile ((!Tree.isElement ·) ∘ f.tree) with
  | nil =>
    rw [hd] at h
    cases h
    exact .inl ⟨rfl, fun c hc => by
      simpa [hf.isElement_tree] using List.dropWhile_eq_nil_iff.1 hd c hc⟩
  | cons r post =>
    rw [hd] at h hsplit
    obtain ⟨root, m₁, hroot, h₁⟩ := run_bind_eq_ok h
    obtain ⟨before, m₂, hbefore, h₂⟩ := run_bind_eq_ok h₁
    obtain ⟨after, m₃, hafter, h₃⟩ := run_bind_eq_ok h₂
    obtain rfl : n' = m₃.withDocument (before ++ root :: after.reverse) :=
      (congrArg Prod.snd h₃).symm
    -- the nodes at the top in the order in which their views are made
    have hperm : (r :: (pre ++ post.reverse)).Perm cs :=
      hsplit ▸ ((post.reverse_perm.append_left pre).cons r).trans List.perm_middle.symm
    have hall : (buildAll f.typeName ((r :: (pre ++ post.reverse)).map f.tree)).run n =
        (.ok (root :: (before ++ after)), m₃) := by
      rw [← List.map_reverse] at hafter
      rw [List.map_cons, List.map_append, buildAll, run_bind_ok hroot,
        run_bind_ok (run_buildAll_append hbefore hafter)]
      rfl
    have hperm := idsAll_perm (f := f) hperm
    have htraces := traces_buildAll hf ht
      (fun x hm => hnew x (List.mem_cons_of_mem _ (hperm.mem_iff.1 hm)))
      (hperm.nodup_iff.2 (List.nodup_cons.1 hnodup).2) hall
    obtain ⟨hr, hrest⟩ := List.forall₂_cons.1 htraces.made
    have hlength : before.length = pre.length := by simpa using length_buildAll hbefore
    have hpre := List.forall₂_take_append _ before after hrest
    have hpost := List.rel_reverse (List.forall₂_drop_append _ before after hrest)
    rw [hlength, List.take_left] at hpre
    rw [hlength, List.drop_left, List.reverse_reverse] at hpost
    refine .inr (htraces.withDocument (fun x hm => ?_) ?_)
    · rw [hids]
      exact List.mem_cons_of_mem _ (hperm.mem_iff.1 hm)
    · rw [Forest.tops, hx, ← hsplit]
      exact List.rel_append hpre (.cons hr hpost)

/-- A document stands for its root element, what has a view of its own for itself. -/
theorem contextNode_eq_ok {c : NodeId} : contextNode f (.node c) = .ok id ↔
    f.class? c = some .document ∧ f.rootElement? c = some id ∨ f.IsViewed c ∧ c = id := by
  unfold contextNode Forest.IsViewed
  dsimp only
  cases f.class? c with
  | none => simp
  | some k =>
    cases k with
    | document => cases f.rootElement? c <;> simp
    | _ => simp

/-- Making the view of a whole tree leaves traces of all of it, unless nothing of it can be evaluated
against. -/
theorem buildTop_eq_ok (hf : f.WellFormed) (ht : Tidy n)
    (hnew : ∀ x ∈ (f.tree top).ids, n.views.lookup x = none)
    (h : (buildTop f.typeName (f.tree top)).run n = (.ok (), n')) :
    n' = n ∧ (∀ r, contextNode f (.node top) ≠ .ok r) ∨ TracesTop f top n n' := by
  by_cases hd : f.class? top = some .document
  · obtain ⟨cs, hx⟩ := Forest.exists_document hd
    refine (buildTop_document hf hx ht hnew h).imp_left fun ⟨he, hno⟩ => ⟨he, fun r hr => ?_⟩
    rcases contextNode_eq_ok.1 hr with ⟨-, hroot⟩ | ⟨hviewed, -⟩
    · rw [Forest.rootElement?, Forest.children_of_content? hx] at hroot
      have hr := List.find?_some hroot
      rw [hno r (List.mem_of_find?_eq_some hroot)] at hr
      cases hr
    · exact hviewed.class?_ne_document hd
  · unfold buildTop at h
    split at h
    · next htree =>
      -- there is no such node
      obtain ⟨-, rfl⟩ := hf.children_of_tree_document htree
      cases hx : f.content? top with
      | none =>
        rw [Forest.children, hx] at h
        cases h
        refine .inl ⟨rfl, fun r hr => ?_⟩
        rw [contextNode, Forest.class?, hx] at hr
        cases hr
      | some x =>
        rw [Forest.class?_of_content? hx, hf.nodeClass_of_tree_document htree hx] at hd
        exact absurd rfl hd
    · obtain ⟨v, m, hv, h₁⟩ := run_bind_eq_ok h
      obtain rfl : n' = m.withDocument [v] := (congrArg Prod.snd h₁).symm
      have htraces := hf.traces top ht hnew hv
      have hmade : Made f outerSurroundings top m (.ofView v) :=
        ⟨n, m, v, ht, hnew, hv, .refl m, rfl⟩
      have hall : TracesAll f [top] n m [v] := by
        refine ⟨htraces.tidy, ?_, htraces.adds, .cons hmade .nil⟩
        rw [List.map_singleton, Tree.idsAll, Tree.idsAll, List.append_nil]
        exact htraces.grows
      refine .inr (hall.withDocument (by simp [Tree.idsAll]) ?_)
      rw [Forest.tops_of_ne_document hd]
      exact hall.made

/-! ## Looking up views -/

theorem isViewed_of_contextNode {context : Value} (h : contextNode f context = .ok id) :
    f.IsViewed id := by
  cases context with
  | node c =>
    rcases contextNode_eq_ok.1 h with ⟨-, he⟩ | ⟨hc, rfl⟩
    · have hfound : f.isElement id = true := List.find?_some he
      exact .inl (beq_iff_eq.1 hfound)
    · exact hc
  | _ => cases h

theorem run_get (n : Navigator) : (get : M Navigator).run n = (.ok n, n) := rfl

theorem run_viewOf (hid : f.class? id ≠ some .document) (hempty : n.views.lookup id = none)
    {v : ViewId} (h : (viewOf f id).run n = (.ok v, n')) :
    (buildTop f.typeName (f.tree (f.root id))).run n = (.ok (), n') ∧
      n'.views.lookup id = some v := by
  unfold viewOf at h
  rw [if_neg hid, pure_bind] at h
  obtain ⟨m₀, m₁, hget, h₁⟩ := run_bind_eq_ok h
  cases hget
  rw [hempty] at h₁
  obtain ⟨_, m₂, hbuild, h₂⟩ := run_bind_eq_ok h₁
  obtain ⟨m₃, m₄, hget, h₃⟩ := run_bind_eq_ok h₂
  cases hget
  split at h₃
  · next view hv =>
    cases h₃
    exact ⟨hbuild, hv⟩
  · cases h₃

theorem run_viewOf_of_buildTop (hid : f.class? id ≠ some .document)
    (hempty : n.views.lookup id = none)
    (hbuild : (buildTop f.typeName (f.tree (f.root id))).run n = (.ok (), m)) {v : ViewId}
    (hv : m.views.lookup id = some v) : (viewOf f id).run n = (.ok v, m) := by
  unfold viewOf
  rw [if_neg hid, pure_bind, run_bind_ok (run_get n), hempty]
  dsimp only
  rw [run_bind_ok hbuild, run_bind_ok (run_get m), hv]
  rfl

/-- To bind a navigator is to look up the view of the context in an empty one. -/
theorem bind_eq_viewOf {context : Value} (h : (Navigator.bind f context).run n = (.ok (), n')) :
    ∃ id v m, contextNode f context = .ok id ∧ (viewOf f id).run n.reset = (.ok v, m) ∧
      n' = { m with
        context := some v
        scope := ((scopeElement? f id).map (scopeOf f)).getD [] } := by
  unfold Navigator.bind at h
  obtain ⟨_, m₀, hreset, h₁⟩ := run_bind_eq_ok h
  cases hreset
  obtain ⟨id, m₁, hid, h₂⟩ := run_bind_eq_ok h₁
  have hc : contextNode f context = .ok id := congrArg Prod.fst hid
  obtain rfl : n.reset = m₁ := congrArg Prod.snd hid
  obtain ⟨v, m₂, hv, h₃⟩ := run_bind_eq_ok h₂
  exact ⟨id, v, m₂, hc, hv, (congrArg Prod.snd h₃).symm⟩

/-- The view of the context is found in that of its whole tree. -/
theorem bind_eq_ok {context : Value} (h : (Navigator.bind f context).run n = (.ok (), n')) :
    ∃ id v m, contextNode f context = .ok id ∧
      (buildTop f.typeName (f.tree (f.root id))).run n.reset = (.ok (), m) ∧
      m.views.lookup id = some v ∧
      n' = { m with
        context := some v
        scope := ((scopeElement? f id).map (scopeOf f)).getD [] } := by
  obtain ⟨id, v, m, hc, hv, hm⟩ := bind_eq_viewOf h
  obtain ⟨hbuild, hlookup⟩ := run_viewOf (isViewed_of_contextNode hc).class?_ne_document rfl hv
  exact ⟨id, v, m, hc, hbuild, hlookup, hm⟩

end Navigator

end TreeQuery
