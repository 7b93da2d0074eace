import TreeQuery.Proofs.View.Traces

/-!
# The course of building

Views are made in an order that the tree alone determines, and building ends at the same node of that
order whatever the navigator has remembered before (`Navigator.buildTop_cases`). Up to there each
node is remembered, one after the other (`Navigator.Remembers`).
-/

namespace TreeQuery

namespace Tree

mutual

/-- The nodes of a tree that get views, in the order in which these are made. -/
def viewed : Tree → List NodeId
  | .element id _ _ _ _ cs => id :: viewedAll cs
  | .comment id _ | .instruction id _ _ => [id]
  | .text _ _ | .attr _ | .document _ _ => []

def viewedAll : List Tree → List NodeId
  | [] => []
  | t :: ts => t.viewed ++ viewedAll ts

end

/-- The nodes of a whole tree that get views, in order. In a document the root element comes first,
then what stands before it, then what stands after it from the end. -/
def viewedTop : Tree → List NodeId
  | .document _ cs =>
    match cs.dropWhile (!·.isElement) with
    | [] => []
    | root :: after =>
      root.viewed ++ (viewedAll (cs.takeWhile (!·.isElement)) ++ viewedAll after.reverse)
  | t => t.viewed

theorem mem_viewedAll {ts : List Tree} {x : NodeId} :
    x ∈ viewedAll ts ↔ ∃ t ∈ ts, x ∈ t.viewed := by
  induction ts with
  | nil => simp [viewedAll]
  | cons t ts ih => simp [viewedAll, ih]

theorem exists_mem_of_mem_viewedTop {i x : NodeId} {cs : List Tree}
    (hx : x ∈ (Tree.document i cs).viewedTop) : ∃ t ∈ cs, x ∈ t.viewed := by
  rw [viewedTop] at hx
  cases hd : cs.dropWhile (!·.isElement) with
  | nil =>
    rw [hd] at hx
    cases hx
  | cons root after =>
    have hsub : root :: after ⊆ cs := hd ▸ List.dropWhile_subset _
    rw [hd, List.mem_append, List.mem_append, mem_viewedAll, mem_viewedAll] at hx
    rcases hx with hx | ⟨t, ht, hx⟩ | ⟨t, ht, hx⟩
    · exact ⟨root, hsub List.mem_cons_self, hx⟩
    · exact ⟨t, List.takeWhile_subset _ ht, hx⟩
    · exact ⟨t, hsub (List.mem_cons_of_mem _ (List.mem_reverse.1 ht)), hx⟩

theorem viewedTop_of_ne_document {t : Tree} (h : ∀ i cs, t ≠ .document i cs) :
    t.viewedTop = t.viewed := by
  cases t with
  | document i cs => exact absurd rfl (h i cs)
  | _ => rfl

end Tree

namespace Forest.WellFormed

variable {f : Forest} {id top x : NodeId}

theorem isViewed_of_mem_viewed (h : f.WellFormed) (hx : x ∈ (f.tree id).viewed) :
    f.IsViewed x ∧ x ∈ (f.tree id).ids := by
  induction id using h.induction_up with
  | _ id ih =>
    cases hc : f.content? id with
    | none =>
      rw [h.tree_eq, layer, hc] at hx
      cases hx
    | some content =>
      have hclass := class?_of_content? hc
      cases content with
      | element e =>
        rw [h.tree_element hc, Tree.viewed, List.mem_cons, Tree.mem_viewedAll] at hx
        rcases hx with rfl | ⟨t, ht, hx⟩
        · have hviewed : f.IsViewed x := .inl hclass
          exact ⟨hviewed, h.self_mem_ids hviewed.class?_ne_attr⟩
        · obtain ⟨c, hchild, rfl⟩ := List.mem_map.1 ht
          have hchild : c ∈ f.children id := children_of_content? hc ▸ hchild
          exact (ih c hchild hx).imp_right fun hm => h.ids_subset_of_child hchild hm
      | comment value =>
        rw [h.tree_comment hc] at hx
        obtain rfl := List.mem_singleton.1 hx
        have hviewed : f.IsViewed x := .inr (.inl hclass)
        exact ⟨hviewed, h.self_mem_ids hviewed.class?_ne_attr⟩
      | instruction target data =>
        rw [h.tree_instruction hc] at hx
        obtain rfl := List.mem_singleton.1 hx
        have hviewed : f.IsViewed x := .inr (.inr hclass)
        exact ⟨hviewed, h.self_mem_ids hviewed.class?_ne_attr⟩
      | document cs =>
        rw [h.tree_document hc] at hx
        cases hx
      | attr name value ns =>
        rw [h.tree_eq, layer, hc] at hx
        cases hx
      | text value =>
        rw [h.tree_text hc] at hx
        cases hx

theorem isViewed_of_mem_viewedTop (h : f.WellFormed) (hx : x ∈ (f.tree top).viewedTop) :
    f.IsViewed x ∧ x ∈ (f.tree top).ids := by
  by_cases hd : ∃ i ts, f.tree top = .document i ts
  · obtain ⟨i, ts, ht⟩ := hd
    obtain ⟨-, rfl⟩ := h.children_of_tree_document ht
    rw [ht] at hx
    obtain ⟨t, hmem, hx⟩ := Tree.exists_mem_of_mem_viewedTop hx
    obtain ⟨c, hc, rfl⟩ := List.mem_map.1 hmem
    exact (h.isViewed_of_mem_viewed hx).imp_right fun hm => h.ids_subset_of_child hc hm
  · rw [Tree.viewedTop_of_ne_document fun i ts ht => hd ⟨i, ts, ht⟩] at hx
    exact h.isViewed_of_mem_viewed hx

end Forest.WellFormed

namespace Navigator

variable {α β ι κ : Type} {n m n' : Navigator} {slot slot' : Option Slot}
  {ids ids' order order' : List NodeId} {cause : Option Failure} {fault : Failure} {id x : NodeId}
  {v : ViewId}

/-! ## Nodes one after the other -/

/-- The navigator after views have been made of nodes, one after the other. -/
def rememberedAll (n : Navigator) (ids : List NodeId) : Navigator := ids.foldl remembered n

theorem rememberedAll_append (n : Navigator) (ids ids' : List NodeId) :
    n.rememberedAll (ids ++ ids') = (n.rememberedAll ids).rememberedAll ids' :=
  List.foldl_append

theorem next_rememberedAll (n : Navigator) (ids : List NodeId) :
    (n.rememberedAll ids).next = n.next + ids.length := by
  induction ids generalizing n with
  | nil => rfl
  | cons id ids ih =>
    show ((n.remembered id).rememberedAll ids).next = _
    rw [ih, List.length_cons, Nat.add_comm ids.length, ← Nat.add_assoc]
    rfl

/-- The navigator with other texts. -/
def setTexts (n : Navigator) (texts : List (Slot × NodeId)) : Navigator := { n with texts }

theorem rememberedAll_setTexts (n : Navigator) (texts : List (Slot × NodeId)) (ids : List NodeId) :
    (n.setTexts texts).rememberedAll ids = (n.rememberedAll ids).setTexts texts := by
  induction ids generalizing n with
  | nil => rfl
  | cons id ids ih => exact ih (n.remembered id)

theorem nodes_rememberedAll (hv : v < n.next) (ids : List NodeId) :
    (n.rememberedAll ids).nodes.lookup v = n.nodes.lookup v := by
  induction ids generalizing n with
  | nil => rfl
  | cons id ids ih =>
    refine (ih (Nat.lt_succ_of_lt hv)).trans ?_
    rw [nodes_remembered, if_neg hv.ne]

theorem views_rememberedAll_of_not_mem (h : x ∉ ids) (n : Navigator) :
    (n.rememberedAll ids).views.lookup x = n.views.lookup x := by
  induction ids generalizing n with
  | nil => rfl
  | cons id ids ih =>
    rw [List.mem_cons, not_or] at h
    refine (ih h.2 (n.remembered id)).trans ?_
    rw [views_remembered, if_neg h.1]

theorem exists_view_of_mem (h : x ∈ ids) (n : Navigator) : ∃ v, n.next ≤ v ∧
    (n.rememberedAll ids).views.lookup x = some v ∧
      (n.rememberedAll ids).nodes.lookup v = some x := by
  induction ids generalizing n with
  | nil => cases h
  | cons id ids ih =>
    by_cases hx : x ∈ ids
    · obtain ⟨v, hv, hviews, hnodes⟩ := ih hx (n.remembered id)
      exact ⟨v, (Nat.le_succ _).trans hv, hviews, hnodes⟩
    · obtain rfl := (List.mem_cons.1 h).resolve_right hx
      refine ⟨n.next, Nat.le_refl _, ?_, ?_⟩
      · refine (views_rememberedAll_of_not_mem hx (n.remembered x)).trans ?_
        rw [views_remembered, if_pos rfl]
      · refine (nodes_rememberedAll (Nat.lt_succ_self n.next) ids).trans ?_
        rw [lookup_remembered]

/-- What changes while views of the nodes `ids` are made: the nodes are remembered in their order,
new views get texts, and `slot` may get one. -/
structure Remembers (slot : Option Slot) (ids : List NodeId) (n n' : Navigator) : Prop where
  eq : n' = (n.rememberedAll ids).setTexts n'.texts
  texts : ∀ s : Slot, some s ≠ slot → s.view < n.next ∨ n'.next ≤ s.view →
    n'.texts.lookup s = n.texts.lookup s

theorem Remembers.refl (slot : Option Slot) (n : Navigator) : Remembers slot [] n n :=
  ⟨rfl, fun _ _ _ => rfl⟩

theorem Remembers.next (h : Remembers slot ids n n') : n'.next = n.next + ids.length := by
  rw [h.eq]
  exact next_rememberedAll n ids

theorem Remembers.views (h : Remembers slot ids n n') : n'.views = (n.rememberedAll ids).views := by
  rw [h.eq]
  rfl

theorem Remembers.nodes (h : Remembers slot ids n n') : n'.nodes = (n.rememberedAll ids).nodes := by
  rw [h.eq]
  rfl

theorem Remembers.trans (h : Remembers slot ids n m) (h' : Remembers slot' ids' m n')
    (hs : ∀ s, slot' = some s → slot = some s ∨ n.next ≤ s.view ∧ s.view < m.next) :
    Remembers slot (ids ++ ids') n n' where
  eq := by
    have hm : m.rememberedAll ids' = (n.rememberedAll (ids ++ ids')).setTexts m.texts := by
      rw [rememberedAll_append, ← rememberedAll_setTexts, ← h.eq]
    calc n' = (m.rememberedAll ids').setTexts n'.texts := h'.eq
      _ = ((n.rememberedAll (ids ++ ids')).setTexts m.texts).setTexts n'.texts := by rw [hm]
      _ = (n.rememberedAll (ids ++ ids')).setTexts n'.texts := rfl
  texts := fun s hne hout => by
    have hnm : n.next ≤ m.next := h.next ▸ Nat.le_add_right _ _
    have hmn : m.next ≤ n'.next := h'.next ▸ Nat.le_add_right _ _
    have hne' : some s ≠ slot' := fun he => by
      rcases hs s he.symm with he | ⟨hge, hlt⟩
      · exact hne he.symm
      · exact hout.elim (Nat.not_lt.2 hge) (Nat.not_le.2 (hlt.trans_le hmn))
    rw [h'.texts s hne' (hout.imp_left hnm.trans_lt'), h.texts s hne (hout.imp_right hmn.trans)]

/-- A navigator that has remembered the same. -/
structure SameMaps (n n' : Navigator) : Prop where
  views : n'.views = n.views
  nodes : n'.nodes = n.nodes
  texts : n'.texts = n.texts

/-! ## Steps that do the same to every navigator -/

/-- The failure at which a step ends, if it does not succeed. -/
def failure? : Except Failure α → Option Failure
  | .ok _ => none
  | .error fault => some fault

theorem failure?_eq_none {answer : Except Failure α} (h : failure? answer = none) :
    ∃ a, answer = .ok a := by
  cases answer with
  | ok a => exact ⟨a, rfl⟩
  | error => cases h

theorem failure?_eq_some {answer : Except Failure α} (h : failure? answer = some fault) :
    answer = .error fault := by
  cases answer with
  | ok => cases h
  | error => exact congrArg Except.error (Option.some.inj h)

/-- A step that makes views of the nodes `ids` and then fails with `cause`, if there is one,
whatever the navigator is. -/
structure Course (slot : Option Slot) (ids : List NodeId) (cause : Option Failure) (x : M α) :
    Prop where
  ends : ∀ n, failure? (x.run n).1 = cause
  remembers : ∀ n, Remembers slot ids n (x.run n).2

theorem Course.run_error {x : M α} (h : Course slot ids (some fault) x) (n : Navigator) :
    ∃ n', x.run n = (.error fault, n') ∧ Remembers slot ids n n' :=
  ⟨_, Prod.ext (failure?_eq_some (h.ends n)) rfl, h.remembers n⟩

theorem Course.run_ok {x : M α} (h : Course slot ids none x) (n : Navigator) :
    ∃ a n', x.run n = (.ok a, n') ∧ Remembers slot ids n n' := by
  obtain ⟨a, ha⟩ := failure?_eq_none (h.ends n)
  exact ⟨a, _, Prod.ext ha rfl, h.remembers n⟩

theorem course_of_run {x : M α}
    (h : ∀ n, ∃ answer n', x.run n = (answer, n') ∧ failure? answer = cause ∧
      Remembers slot ids n n') : Course slot ids cause x := by
  refine ⟨fun n => ?_, fun n => ?_⟩ <;> obtain ⟨answer, n', hrun, hends, hremembers⟩ := h n <;>
    rw [hrun]
  · exact hends
  · exact hremembers

theorem Course.bind_error {x : M α} (h : Course slot ids (some fault) x) (g : α → M β) :
    Course slot ids (some fault) (x >>= g) := by
  refine course_of_run fun n => ?_
  obtain ⟨n', hrun, hremembers⟩ := h.run_error n
  exact ⟨_, n', run_bind_error hrun, rfl, hremembers⟩

theorem Course.bind {x : M α} {g : α → M β} (h : Course slot ids none x)
    (hg : ∀ n a m, x.run n = (.ok a, m) → ∃ slot', Course slot' ids' cause (g a) ∧
      ∀ s, slot' = some s → slot = some s ∨ n.next ≤ s.view ∧ s.view < m.next) :
    Course slot (ids ++ ids') cause (x >>= g) := by
  refine course_of_run fun n => ?_
  obtain ⟨a, m, hrun, hremembers⟩ := h.run_ok n
  obtain ⟨slot', hcourse, hs⟩ := hg n a m hrun
  refine ⟨((g a).run m).1, ((g a).run m).2, run_bind_ok hrun, hcourse.ends m, ?_⟩
  exact hremembers.trans (hcourse.remembers m) hs

/-! ## Steps that make views in an order -/

/-- How far a step gets that makes views in an order: through all of it, or to a failure. -/
inductive Progress (order : List NodeId) : List NodeId → Option Failure → Prop where
  | whole : Progress order order none
  | part {ids : List NodeId} {fault : Failure} (before : ids <+: order) :
      Progress order ids (some fault)

theorem Progress.append (h : Progress order' ids' cause) :
    Progress (order ++ order') (order ++ ids') cause := by
  cases h with
  | whole => exact .whole
  | part before => exact .part ((List.prefix_append_right_inj order).2 before)

/-- Steps that differ only in views, and that make views in one order and end alike. -/
def Orderly (order : List NodeId) (slot : ι → Option Slot) (x : ι → M α) : Prop :=
  ∃ ids cause, Progress order ids cause ∧ ∀ i, Course (slot i) ids cause (x i)

variable {slots : ι → Option Slot} {slots' : κ → Option Slot} {xs : ι → M α}

theorem Orderly.reindex (h : Orderly order slots xs) (index : κ → ι) :
    Orderly order (fun k => slots (index k)) fun k => xs (index k) := by
  obtain ⟨ids, cause, hp, hx⟩ := h
  exact ⟨ids, cause, hp, fun k => hx (index k)⟩

theorem orderly_pure (slots : ι → Option Slot) (a : ι → α) :
    Orderly [] slots fun i => (pure (a i) : M α) :=
  ⟨[], none, .whole, fun _ => course_of_run fun n => ⟨_, n, rfl, rfl, .refl _ n⟩⟩

theorem orderly_throw (order : List NodeId) (slots : ι → Option Slot) (fault : Failure) :
    Orderly order slots fun _ => (throw fault : M α) :=
  ⟨[], some fault, .part (List.nil_prefix ..),
    fun _ => course_of_run fun n => ⟨_, n, rfl, rfl, .refl _ n⟩⟩

/-- What follows a check goes on as before, or is not reached. -/
theorem Checks.orderly {x : M α} (hx : Checks x) {g : ι → α → M β}
    (hg : ∀ a, Orderly order slots fun i => g i a) : Orderly order slots fun i => x >>= g i := by
  cases hx with
  | pass a h =>
    simp only [h, pure_bind]
    exact hg a
  | refuse fault h hf =>
    simp only [h, throw_bind]
    exact orderly_throw order slots fault

/-- Two steps one after the other, of which the second goes on with views that the first has made. -/
theorem Orderly.bind {g : ι → α → M β} {ys : κ → M β} (hx : Orderly order slots xs)
    (hy : Orderly order' slots' ys)
    (hg : ∀ i n a m, (xs i).run n = (.ok a, m) → ∃ k, g i a = ys k ∧
      ∀ s, slots' k = some s → slots i = some s ∨ n.next ≤ s.view ∧ s.view < m.next) :
    Orderly (order ++ order') slots fun i => xs i >>= g i := by
  obtain ⟨ids, cause, hp, hx⟩ := hx
  cases hp with
  | part before =>
    exact ⟨ids, _, .part (before.trans (List.prefix_append order order')),
      fun i => (hx i).bind_error (g i)⟩
  | whole =>
    obtain ⟨ids', cause', hp', hy⟩ := hy
    refine ⟨order ++ ids', cause', hp'.append, fun i => (hx i).bind fun n a m hrun => ?_⟩
    obtain ⟨k, hk, hs⟩ := hg i n a m hrun
    exact ⟨slots' k, hk ▸ hy k, hs⟩

theorem Orderly.map (hx : Orderly order slots xs) (h : ι → α → β) :
    Orderly order slots fun i => xs i >>= fun a => pure (h i a) := by
  have hbind := hx.bind (orderly_pure (fun _ : ι × α => none) fun k => h k.1 k.2)
    (g := fun i a => pure (h i a)) fun i n a m _ => ⟨(i, a), rfl, nofun⟩
  rwa [List.append_nil] at hbind

/-! ## Building in order -/

variable {typeName : Value → String} {around : Surroundings} {run : List (NodeId × Value)}

theorem orderly_remember (id : NodeId) :
    Orderly [id] (fun _ : Unit => none) fun _ => remember id :=
  ⟨[id], none, .whole, fun _ => course_of_run fun n =>
    ⟨_, _, run_remember n id, rfl, rfl, fun _ _ _ => rfl⟩⟩

/-- A text is made, or not, in the same way for whatever view. -/
theorem orderly_addText (typeName : Value → String) (run : List (NodeId × Value)) :
    Orderly [] some fun slot => addText typeName slot run := by
  unfold addText
  cases hj : Tree.join 0 typeName (run.map (·.2)) with
  | error fault => exact orderly_throw [] some fault
  | ok s =>
    simp only [pure_bind]
    by_cases hs : s = ""
    · simp only [if_pos hs]
      exact orderly_pure some fun _ => none
    · simp only [if_neg hs]
      refine (checks_checkText s).orderly fun _ => ?_
      cases run.find? (·.2.truthy) with
      | none => exact orderly_pure some fun _ => some s
      | some p =>
        refine ⟨[], none, .whole, fun slot => course_of_run fun n => ?_⟩
        refine ⟨_, n.withText slot p.1, rfl, rfl, rfl, fun t ht _ => ?_⟩
        rw [texts_withText, if_neg fun he => ht (congrArg some he)]

/-- A view that has been made is the first that the navigator did not have. -/
theorem id_of_build {t : Tree} {v : View} (h : (build typeName around t).run n = (.ok v, n')) :
    v.id = n.next ∧ t.viewed ≠ [] := by
  cases t with
  | element id name ns declared as cs =>
    obtain ⟨_, _, _, _, _, _, -, -, -, -, rfl⟩ := build_element_eq_ok h
    exact ⟨rfl, List.cons_ne_nil _ _⟩
  | comment id value =>
    obtain ⟨rfl, -⟩ := build_comment_eq_ok h
    exact ⟨rfl, List.cons_ne_nil _ _⟩
  | instruction id target data =>
    obtain ⟨rfl, -⟩ := build_instruction_eq_ok h
    exact ⟨rfl, List.cons_ne_nil _ _⟩
  | _ => cases h

theorem Orderly.lt_next {t : Tree} {v : View}
    (hx : Orderly t.viewed (fun _ : Unit => none) fun _ => build typeName around t)
    (h : (build typeName around t).run n = (.ok v, m)) : n.next ≤ v.id ∧ v.id < m.next := by
  obtain ⟨hid, hne⟩ := id_of_build h
  obtain ⟨ids, cause, hp, hx⟩ := hx
  have hends := (hx ()).ends n
  have hremembers := (hx ()).remembers n
  rw [h] at hends hremembers
  cases hp with
  | part => cases hends
  | whole =>
    rw [hid, hremembers.next]
    exact ⟨Nat.le_refl _, Nat.lt_add_of_pos_right (List.length_pos_iff.2 hne)⟩

mutual

/-- The view of a node is made in the order of its tree. -/
theorem orderly_build (typeName : Value → String) (around : Surroundings) (t : Tree) :
    Orderly t.viewed (fun _ : Unit => none) fun _ => build typeName around t := by
  cases t with
  | element id name ns declared as cs =>
    unfold build
    refine (checks_readName _).orderly fun expanded => ?_
    refine (checks_elementLevel _ _ _).orderly fun level => ?_
    let scope := extendScope around.scope (ownBindings ns declared as)
    -- what is inside is made in the same way whichever view it goes into
    have hinside : Orderly (Tree.viewedAll cs) some fun slot => (do
        let (level, viewAttributes) ← buildAttributes around.levels level as
        let p := (level.own.map (·.1)).getD ""
        let (text, views) ← buildContent typeName ⟨scope, level :: around.levels⟩ slot [] cs
        return View.element slot.view ⟨expanded, p, level.declared, viewAttributes⟩ text views
          none) :=
      (checks_buildAttributes _ _ _).orderly fun r =>
        (orderly_buildContent typeName ⟨scope, r.1 :: around.levels⟩ [] cs).map _
    refine (orderly_remember id).bind hinside fun _ n view m hrun => ⟨⟨view, false⟩, rfl, ?_⟩
    rintro s ⟨⟩
    cases hrun
    exact .inr ⟨Nat.le_refl _, Nat.lt_succ_self _⟩
  | comment id value =>
    unfold build
    refine (checks_asText value).orderly fun s => ?_
    split
    · exact orderly_throw _ _ _
    · exact (orderly_remember id).map _
  | instruction id target data =>
    unfold build
    refine (checks_checkName target).orderly fun _ => (checks_checkText data).orderly fun _ => ?_
    split
    · exact orderly_throw _ _ _
    · exact (orderly_remember id).map _
  | _ => exact orderly_throw _ _ _

theorem orderly_buildContent (typeName : Value → String) (around : Surroundings)
    (run : List (NodeId × Value)) (ts : List Tree) :
    Orderly (Tree.viewedAll ts) some fun slot => buildContent typeName around slot run ts := by
  cases ts with
  | nil => exact (orderly_addText typeName run).map _
  | cons t ts =>
    by_cases ht : ∃ i v, t = .text i v
    · obtain ⟨i, v, rfl⟩ := ht
      simp only [buildContent]
      exact orderly_buildContent typeName around (run ++ [(i, v)]) ts
    · simp only [buildContent_cons fun i v he => ht ⟨i, v, he⟩]
      have hfirst := orderly_build typeName around t
      -- the text after the view of `t` goes into whatever view that is
      have hrest : Orderly (Tree.viewedAll ts)
          (fun k : Option String × View => some ⟨k.2.id, true⟩) fun k => (do
            let (tail, views) ← buildContent typeName around ⟨k.2.id, true⟩ [] ts
            return (k.1, k.2.withTail tail :: views)) :=
        ((orderly_buildContent typeName around [] ts).reindex
          fun k : Option String × View => ⟨k.2.id, true⟩).map _
      have hviews : Orderly (t.viewed ++ Tree.viewedAll ts) (fun _ : Option String => none)
          fun text => (do
            let view ← build typeName around t
            let (tail, views) ← buildContent typeName around ⟨view.id, true⟩ [] ts
            return (text, view.withTail tail :: views)) := by
        refine (hfirst.reindex fun _ => ()).bind hrest fun text n view m hrun =>
          ⟨(text, view), rfl, ?_⟩
        rintro s ⟨⟩
        exact .inr (hfirst.lt_next hrun)
      exact (orderly_addText typeName run).bind hviews fun slot n text m _ => ⟨text, rfl, nofun⟩

end

theorem orderly_buildAll (typeName : Value → String) (ts : List Tree) :
    Orderly (Tree.viewedAll ts) (fun _ : Unit => none) fun _ => buildAll typeName ts := by
  induction ts with
  | nil => exact orderly_pure _ _
  | cons t ts ih =>
    have hrest := (ih.reindex fun _ : View => ()).map fun view views => view :: views
    exact (orderly_build typeName outerSurroundings t).bind hrest fun _ n view m _ =>
      ⟨view, rfl, nofun⟩

/-- A step that makes views in an order and then does something that is not about views fails on the
way, or succeeds. -/
theorem Orderly.finish {x : M α} {last : α → M Unit}
    (hx : Orderly order (fun _ : Unit => none) fun _ => x)
    (hlast : ∀ a n, ∃ n', (last a).run n = (.ok (), n') ∧ SameMaps n n') :
    (∃ ids fault, ids <+: order ∧ Course none ids (some fault) (x >>= last)) ∨
      ∀ n, ∃ m n', (x >>= last).run n = (.ok (), n') ∧ Remembers none order n m ∧ SameMaps m n' := by
  obtain ⟨ids, cause, hp, hx⟩ := hx
  cases hp with
  | part before => exact .inl ⟨ids, _, before, (hx ()).bind_error last⟩
  | whole =>
    refine .inr fun n => ?_
    obtain ⟨a, m, hrun, hremembers⟩ := (hx ()).run_ok n
    obtain ⟨n', hrun', hsame⟩ := hlast a m
    exact ⟨m, n', (run_bind_ok hrun).trans hrun', hremembers, hsame⟩

/-- Making the view of a whole tree fails at the same node whatever the navigator is, or it succeeds
with every navigator. -/
theorem buildTop_cases (typeName : Value → String) (t : Tree) :
    (∃ ids fault, ids <+: t.viewedTop ∧ Course none ids (some fault) (buildTop typeName t)) ∨
      ∀ n, ∃ m n', (buildTop typeName t).run n = (.ok (), n') ∧
        Remembers none t.viewedTop n m ∧ SameMaps m n' := by
  let keep (d : ViewDocument) : M Unit := modify fun n => { n with documents := n.documents ++ [d] }
  have hkeep (d : ViewDocument) (n : Navigator) :
      ∃ n', (keep d).run n = (.ok (), n') ∧ SameMaps n n' := ⟨_, rfl, ⟨rfl, rfl, rfl⟩⟩
  by_cases hd : ∃ i cs, t = .document i cs
  · obtain ⟨i, cs, rfl⟩ := hd
    unfold buildTop Tree.viewedTop
    dsimp only
    cases cs.dropWhile (!·.isElement) with
    | nil => exact .inr fun n => ⟨n, n, rfl, .refl none n, ⟨rfl, rfl, rfl⟩⟩
    | cons root after =>
      have hafter := ((orderly_buildAll typeName after.reverse).reindex
        fun _ : View × List View => ()).map fun k after => k.2 ++ k.1 :: after.reverse
      have hbefore := ((orderly_buildAll typeName (cs.takeWhile (!·.isElement))).reindex
        fun _ : View => ()).bind hafter fun view _ before _ _ => ⟨(view, before), rfl, nofun⟩
      have hroot := (orderly_build typeName outerSurroundings root).bind hbefore
        fun _ _ view _ _ => ⟨view, rfl, nofun⟩
      simpa only [bind_assoc, pure_bind] using hroot.finish hkeep
  · rw [Tree.viewedTop_of_ne_document fun i cs ht => hd ⟨i, cs, ht⟩]
    have hbuild : buildTop typeName t =
        (build typeName outerSurroundings t >>= fun view => pure [view]) >>= keep := by
      cases t with
      | document i cs => exact absurd ⟨i, cs, rfl⟩ hd
      | _ => simp only [buildTop, bind_assoc, pure_bind, keep]
    rw [hbuild]
    exact ((orderly_build typeName outerSurroundings t).map _).finish hkeep

end Navigator

end TreeQuery
