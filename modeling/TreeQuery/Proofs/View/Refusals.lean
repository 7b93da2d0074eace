import TreeQuery.Proofs.View.Sound

/-!
# Refusals

A navigator that can not make the view of a tree says that a type or a value is not as it should be,
and nothing else (`Navigator.refuses_viewOf`). So does one that can not be bound to a value, or that
can not convert one for an engine (`Navigator.refuses_bind`, `Navigator.refuses_toEngine`).
-/

namespace TreeQuery.Navigator

variable {f : Forest} {id top : NodeId}

/-! ## Building -/

theorem refuses_remember (id : NodeId) : Refuses (remember id) := by
  intro n fault n' h
  cases h

theorem refuses_modify (change : Navigator → Navigator) : Refuses (modify change : M Unit) := by
  intro n fault n' h
  cases h

theorem refuses_get : Refuses (get : M Navigator) := by
  intro n fault n' h
  cases h

theorem join_eq_error {index : Nat} {typeName : Value → String} {vs : List Value}
    {fault : Failure} (h : Tree.join index typeName vs = .error fault) :
    ∃ i v, fault = .notText i (typeName v) := by
  induction vs generalizing index with
  | nil => cases h
  | cons v vs ih =>
    cases v with
    | text s =>
      rw [Tree.join] at h
      cases hr : Tree.join (index + 1) typeName vs with
      | ok rest =>
        rw [hr] at h
        cases h
      | error fault' =>
        rw [hr] at h
        cases h
        exact ih hr
    | _ =>
      cases h
      exact ⟨_, _, rfl⟩

theorem refuses_addText (typeName : Value → String) (slot : Slot) (run : List (NodeId × Value)) :
    Refuses (addText typeName slot run) := by
  unfold addText
  cases hj : Tree.join 0 typeName (run.map (·.2)) with
  | error fault =>
    obtain ⟨i, v, rfl⟩ := join_eq_error hj
    intro n fault n' h
    cases h
    rfl
  | ok s =>
    dsimp only
    rw [pure_bind]
    refine (refuses_pure none).ite ((checks_checkText s).refuses.bind fun _ => ?_)
    split
    · exact (refuses_modify _).bind fun _ => refuses_pure _
    · exact refuses_pure _

/-- The content of an element's view is refused only with the views of its children. -/
theorem refuses_buildContent {cs : List NodeId} (hf : f.WellFormed)
    (hc : ∀ c ∈ cs, (∃ v, f.content? c = some (.text v)) ∨
      f.IsViewed c ∧ ∀ around, Refuses (build f.typeName around (f.tree c)))
    (around : Surroundings) (slot : Slot) (run : List (NodeId × Value)) :
    Refuses (buildContent f.typeName around slot run (cs.map f.tree)) := by
  induction cs generalizing slot run with
  | nil => exact (refuses_addText _ _ _).bind fun _ => refuses_pure _
  | cons c cs ih =>
    have hrest := ih fun d hd => hc d (List.mem_cons_of_mem c hd)
    rw [List.map_cons]
    rcases hc c List.mem_cons_self with ⟨v, hx⟩ | ⟨hviewed, hbuild⟩
    · rw [hf.tree_text hx, buildContent]
      exact hrest _ _
    · have hno (i : NodeId) (v : Value) : f.tree c ≠ .text i v := by
        intro ht
        exact hviewed.content?_ne_text v (hf.content?_of_tree_text ht).2
      rw [buildContent_cons hno]
      exact (refuses_addText _ _ _).bind fun _ => (hbuild around).bind fun _ =>
        (hrest _ _).bind fun _ => refuses_pure _

theorem refuses_build (hf : f.WellFormed) (hid : f.IsViewed id) (around : Surroundings) :
    Refuses (build f.typeName around (f.tree id)) := by
  induction id using hf.induction_up generalizing around with
  | _ id ih =>
    rcases hid.content? with ⟨e, hx⟩ | ⟨value, hx⟩ | ⟨target, data, hx⟩
    · have hchildren (c : NodeId) (hc : c ∈ e.children) :
          (∃ v, f.content? c = some (.text v)) ∨
            f.IsViewed c ∧ ∀ around, Refuses (build f.typeName around (f.tree c)) := by
        have hc' : c ∈ f.children id := Forest.children_of_content? hx ▸ hc
        rcases hf.isViewed_or_text (Forest.class?_of_content? hx) hc' with hviewed | htext
        · exact .inr ⟨hviewed, ih c hc' hviewed⟩
        · exact .inl htext
      rw [hf.tree_element hx, build]
      exact (checks_readName _).refuses.bind fun _ =>
        (checks_elementLevel _ _ _).refuses.bind fun _ => (refuses_remember id).bind fun _ =>
          (checks_buildAttributes _ _ _).refuses.bind fun _ =>
            (refuses_buildContent hf hchildren _ _ _).bind fun _ => refuses_pure _
    · rw [hf.tree_comment hx, build]
      refine (checks_asText value).refuses.bind fun s => ?_
      split
      · exact checks_refuse.refuses.bind fun _ =>
          (refuses_remember id).bind fun _ => refuses_pure _
      · exact (refuses_remember id).bind fun _ => refuses_pure _
    · rw [hf.tree_instruction hx, build]
      refine (checks_checkName target).refuses.bind fun _ =>
        (checks_checkText data).refuses.bind fun _ => ?_
      split
      · exact checks_refuse.refuses.bind fun _ =>
          (refuses_remember id).bind fun _ => refuses_pure _
      · exact (refuses_remember id).bind fun _ => refuses_pure _

theorem refuses_buildAll {ts : List Tree}
    (h : ∀ t ∈ ts, ∀ around, Refuses (build f.typeName around t)) :
    Refuses (buildAll f.typeName ts) := by
  induction ts with
  | nil => exact refuses_pure []
  | cons t ts ih =>
    exact (h t List.mem_cons_self _).bind fun _ =>
      (ih fun u hu => h u (List.mem_cons_of_mem _ hu)).bind fun _ => refuses_pure _

theorem refuses_buildTop (hf : f.WellFormed)
    (htop : f.class? top = some .document ∨ f.IsViewed top) :
    Refuses (buildTop f.typeName (f.tree top)) := by
  rcases htop with hd | hviewed
  · obtain ⟨cs, hx⟩ := Forest.exists_document hd
    have hchildren (t : Tree) (ht : t ∈ cs.map f.tree) (around : Surroundings) :
        Refuses (build f.typeName around t) := by
      obtain ⟨c, hc, rfl⟩ := List.mem_map.1 ht
      have hc' : c ∈ f.children top := Forest.children_of_content? hx ▸ hc
      exact refuses_build hf (hf.isViewed_of_document hd hc') around
    rw [hf.tree_document hx, buildTop]
    split
    · exact refuses_pure ()
    · next root after hdrop =>
      have hmem : root :: after ⊆ cs.map f.tree := hdrop ▸ List.dropWhile_subset _
      refine (hchildren root (hmem List.mem_cons_self) _).bind fun _ => ?_
      refine (refuses_buildAll fun t ht => hchildren t (List.takeWhile_subset _ ht)).bind
        fun _ => ?_
      refine (refuses_buildAll fun t ht => hchildren t ?_).bind fun _ => refuses_modify _
      exact hmem (List.mem_cons_of_mem _ (List.mem_reverse.1 ht))
  · unfold buildTop
    split
    · next ht => exact absurd ht (hf.tree_ne_document hviewed)
    · exact (refuses_build hf hviewed _).bind fun _ => refuses_modify _

/-! ## Looking up views -/

/-- A value that can not be shown is not as it should be either. -/
theorem isAny_failureOn {cause : String → Failure} (v : Value)
    (hc : ∀ s, (cause s).isAny [.type, .value] = true) :
    (f.failureOn v cause).isAny [.type, .value] = true := by
  rcases f.failureOn_cases v cause with ⟨s, h⟩ | ⟨why, h⟩
  · rw [h, hc]
  · rw [h]
    cases why <;> rfl

/-- A view that is still not there after making that of the whole tree is refused. -/
theorem refuses_viewOf_of_buildTop (hid : f.class? id ≠ some .document)
    (hbuild : Refuses (buildTop f.typeName (f.tree (f.root id)))) : Refuses (viewOf f id) := by
  unfold viewOf
  rw [if_neg hid, pure_bind]
  refine refuses_get.bind fun n => ?_
  split
  · exact refuses_pure _
  · refine hbuild.bind fun _ => refuses_get.bind fun m => ?_
    split
    · exact refuses_pure _
    · exact refuses_throw (isAny_failureOn _ fun _ => rfl)

theorem refuses_viewOf_of_isViewed (hf : f.WellFormed) (hid : f.IsViewed id) :
    Refuses (viewOf f id) :=
  refuses_viewOf_of_buildTop hid.class?_ne_document
    (refuses_buildTop hf (hf.document_or_isViewed_root hid))

theorem refuses_viewOf_of_missing (hf : f.WellFormed) (hx : f.content? id = none) :
    Refuses (viewOf f id) := by
  have hclass : f.class? id = none := by rw [Forest.class?, hx]; rfl
  refine refuses_viewOf_of_buildTop (by simp [hclass]) ?_
  rw [hf.tree_root_of_missing hx]
  exact refuses_pure ()

/-- The views of attributes and texts are not asked for. -/
theorem refuses_viewOf (hf : f.WellFormed)
    (ha : ∀ name value ns, f.content? id ≠ some (.attr name value ns))
    (ht : ∀ value, f.content? id ≠ some (.text value)) : Refuses (viewOf f id) := by
  rcases f.content_cases id with hx | ⟨name, value, ns, hx⟩ | ⟨value, hx⟩ | hd | hviewed
  · exact refuses_viewOf_of_missing hf hx
  · exact absurd hx (ha name value ns)
  · exact absurd hx (ht value)
  · cases hr : f.rootElement? id with
    | none =>
      intro n fault n' h
      rw [run_viewOf_of_emptyDocument hd hr] at h
      cases h
      rfl
    | some e =>
      have hc : contextNode f (.node id) = .ok e := contextNode_eq_ok.2 (.inl ⟨hd, hr⟩)
      rw [viewOf_eq_of_contextNode hc]
      exact refuses_viewOf_of_isViewed hf (isViewed_of_contextNode hc)
  · exact refuses_viewOf_of_isViewed hf hviewed

theorem contextNode_eq_error {context : Value} {fault : Failure}
    (h : contextNode f context = .error fault) : fault.isAny [.type, .value] = true := by
  unfold contextNode at h
  split at h
  · split at h
    · split at h
      · cases h
      · cases h
        rfl
    · cases h
    · cases h
    · cases h
    · cases h
      exact isAny_failureOn _ fun _ => rfl
  · cases h
    exact isAny_failureOn _ fun _ => rfl

theorem refuses_bind (hf : f.WellFormed) (context : Value) : Refuses (Navigator.bind f context) := by
  unfold Navigator.bind
  refine (refuses_modify reset).bind fun _ => ?_
  cases hc : contextNode f context with
  | error fault =>
    intro n fault' n' h
    cases h
    exact contextNode_eq_error hc
  | ok id =>
    rw [show (ExceptT.mk (pure (.ok id)) : M NodeId) = pure id from rfl, pure_bind]
    exact (refuses_viewOf_of_isViewed hf (isViewed_of_contextNode hc)).bind fun _ =>
      refuses_modify _

mutual

theorem refuses_toEngine (hf : f.WellFormed) (v : Value) : Refuses (toEngine f v) := by
  cases v with
  | node id =>
    unfold toEngine
    split
    · exact refuses_pure _
    · exact refuses_pure _
    · next hattr htext =>
      exact (refuses_viewOf hf hattr htext).bind fun _ => refuses_pure _
  | list vs => exact (refuses_toEngineAll hf vs).bind fun _ => refuses_pure _
  | tuple vs => exact (refuses_toEngineAll hf vs).bind fun _ => refuses_pure _
  | _ => exact refuses_pure _

theorem refuses_toEngineAll (hf : f.WellFormed) (vs : List Value) :
    Refuses (toEngineAll f vs) := by
  cases vs with
  | nil => exact refuses_pure []
  | cons v vs =>
    exact (refuses_toEngine hf v).bind fun _ =>
      (refuses_toEngineAll hf vs).bind fun _ => refuses_pure _

end

end TreeQuery.Navigator
