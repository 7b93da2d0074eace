import TreeQuery.Proofs.Forest.Growth

/-!
# Setting attributes

A forest stays well-formed when an attribute is set (`WellFormed.attributeSet`): the new node has a
name that no other attribute of its element has, since the one that had it loses its parent.
-/

namespace TreeQuery.Forest

variable {f g : Forest} {id p c a : NodeId}

/-- The attributes of an element after one has been set: it takes the place of the old one or comes
last. -/
def replaced (old : Option NodeId) (new : NodeId) (attributes : List NodeId) : List NodeId :=
  match old with
  | some o => attributes.map fun a => if a = o then new else a
  | none => attributes ++ [new]

/-- What setting an attribute does. -/
structure AttributeSet (f g : Forest) (id : NodeId) (e : ElementData) (x : Attr) : Prop where
  element : f.content? id = some (.element e)
  new : x.id = f.nodes.size
  bare : x.ns.pfx = "" → x.ns.uri = ""
  checked : x.ns.pfx ≠ "" → f.checkPrefix e x.ns = .ok ()
  content : ∀ i, g.content? i =
    if i = id then
      some (.element { e with
        attributes := replaced (f.attribute? id x.name x.ns.uri) x.id e.attributes })
    else if i = x.id then some (.attr x.name x.value x.ns) else f.content? i
  parent : ∀ i, g.parent? i =
    if i = x.id then some id
    else if f.attribute? id x.name x.ns.uri = some i then none else f.parent? i

theorem content?_isSome_add {x : Content} (f : Forest) :
    ((f.add x).1.content? f.nodes.size).isSome = true := by
  rw [content?_add, if_pos rfl]
  rfl

theorem checkName_eq_ok_iff {role : NameRole} {name : Option String} {nm : String} :
    checkName role name = .ok nm ↔ name = some nm ∧ nm ≠ "" ∧ ':' ∉ nm.toList := by
  unfold checkName
  cases name with
  | none => simp
  | some s =>
    by_cases hs : s = "" ∨ ':' ∈ s.toList
    · simp only [if_pos hs, reduceCtorEq, Option.some.injEq, false_iff, not_and_or, not_not]
      by_cases hnm : s = nm
      · exact .inr (hnm ▸ hs)
      · exact .inl hnm
    · simp only [if_neg hs, Except.ok.injEq, Option.some.injEq]
      rw [not_or] at hs
      exact ⟨fun h => ⟨h, h ▸ hs⟩, And.left⟩

theorem newAttribute_eq_ok {name : Option String} {value : Value} {ns : Namespace}
    (h : f.newAttribute name value ns = .ok (g, a)) :
    ∃ nm v, name = some nm ∧ g = (f.add (.attr nm v ns)).1 ∧ a = f.nodes.size := by
  obtain ⟨nm, hn, h⟩ := bind_eq_ok h
  obtain ⟨v, -, h⟩ := bind_eq_ok h
  cases h
  exact ⟨nm, v, (checkName_eq_ok_iff.1 hn).1, rfl, rfl⟩

theorem isAttributeOf_eq (f : Forest) (name uri : String) (a : NodeId) :
    f.isAttributeOf name uri a = (f.attr? a).any fun x => x.name == name && x.ns.uri == uri := by
  unfold isAttributeOf attr?
  split <;> simp_all

theorem mem_of_attribute? {name uri : String} (h : f.attribute? id name uri = some a) :
    a ∈ f.attributes id ∧ ∃ x, f.attr? a = some x ∧ x.name = name ∧ x.ns.uri = uri := by
  refine ⟨List.mem_of_find?_eq_some h, ?_⟩
  have hfound := List.find?_some h
  rw [isAttributeOf_eq, Option.any_eq_true] at hfound
  simpa only [Bool.and_eq_true, beq_iff_eq] using hfound

/-- A forest in which an element has been given an attribute. -/
def withAttribute (f : Forest) (id : NodeId) (e : ElementData) (x : Attr) : Forest :=
  let g := (f.add (.attr x.name x.value x.ns)).1
  let detached := match f.attribute? id x.name x.ns.uri with
    | some o => g.setParent o none
    | none => g
  (detached.setParent x.id (some id)).setContent id (.element { e with
    attributes := replaced (f.attribute? id x.name x.ns.uri) x.id e.attributes })

theorem attributeSet_withAttribute {e : ElementData} {x : Attr}
    (he : f.content? id = some (.element e)) (hx : x.id = f.nodes.size)
    (hbare : x.ns.pfx = "" → x.ns.uri = "")
    (hcheck : x.ns.pfx ≠ "" → f.checkPrefix e x.ns = .ok ()) :
    AttributeSet f (f.withAttribute id e x) id e x := by
  have hne : id ≠ x.id := hx ▸ Nat.ne_of_lt (lt_size_of_content? he)
  have hold {o : NodeId} (ho : f.attribute? id x.name x.ns.uri = some o) : o ≠ x.id ∧
      ((f.add (.attr x.name x.value x.ns)).1.content? o).isSome = true := by
    obtain ⟨-, y, hy, -⟩ := mem_of_attribute? ho
    have hy := (content?_of_attr? hy).2
    exact ⟨hx ▸ Nat.ne_of_lt (lt_size_of_content? hy), by rw [content?_add_of_some hy]; rfl⟩
  have hsize : ((f.add (.attr x.name x.value x.ns)).1.content? x.id).isSome = true :=
    hx ▸ content?_isSome_add f
  refine ⟨he, hx, hbare, hcheck, fun i => ?_, fun i => ?_⟩ <;> unfold withAttribute <;>
    cases ho : f.attribute? id x.name x.ns.uri
  · dsimp only
    rw [content?_setContent (y := .element e), content?_setParent, content?_add, hx]
    rw [content?_setParent, content?_add, if_neg (hx ▸ hne), he]
  · dsimp only
    rw [content?_setContent (y := .element e), content?_setParent, content?_setParent,
      content?_add, hx]
    rw [content?_setParent, content?_setParent, content?_add, if_neg (hx ▸ hne), he]
  · dsimp only
    rw [parent?_setContent, parent?_setParent _ _ _ _ hsize, parent?_add]
    simp only [reduceCtorEq, if_false]
  · next o =>
    obtain ⟨hox, hosome⟩ := hold ho
    dsimp only
    rw [parent?_setContent, parent?_setParent, parent?_setParent _ _ _ _ hosome, parent?_add]
    · simp only [Option.some.injEq, eq_comm]
    · rwa [content?_setParent]

/-- What keeps an element from having an attribute in a namespace. -/
def checkAttributeNamespace (f : Forest) (e : ElementData) (ns : Namespace) : Except Failure Unit :=
  if ns.pfx ≠ "" then f.checkPrefix e ns
  else if ns.uri ≠ "" then .error .bareAttribute
  else .ok ()

theorem checkAttributeNamespace_eq_ok_iff {e : ElementData} {ns : Namespace} :
    f.checkAttributeNamespace e ns = .ok () ↔
      (ns.pfx = "" → ns.uri = "") ∧ (ns.pfx ≠ "" → f.checkPrefix e ns = .ok ()) := by
  unfold checkAttributeNamespace
  by_cases hp : ns.pfx = ""
  · by_cases hu : ns.uri = "" <;> simp [hp, hu]
  · simp [hp]

/-- An element is given an attribute if its namespace is in order, then its name is, and then its
value has a text. -/
theorem setAttribute_of_element {e : ElementData} {name : Option String} {value : Value}
    {ns : Namespace} (he : f.content? id = some (.element e)) :
    f.setAttribute id name value ns =
      (f.checkAttributeNamespace e ns).bind fun _ => (checkName .attr name).bind fun nm =>
        (f.textOf value).map fun text =>
          (f.withAttribute id e ⟨f.nodes.size, nm, text, ns⟩, f.nodes.size) := by
  have hchecks {α : Type} (k : Except Failure α) : (do
      if ns.pfx = "" ∧ ns.uri ≠ "" then throw .bareAttribute
      if ns.pfx ≠ "" then f.checkPrefix e ns
      k) = (f.checkAttributeNamespace e ns).bind fun _ => k := by
    unfold checkAttributeNamespace
    by_cases hp : ns.pfx = ""
    · by_cases hu : ns.uri = "" <;> simp [hp, hu] <;> rfl
    · simp [hp]
      rfl
  unfold setAttribute newAttribute
  rw [element?_eq_some_iff.2 he]
  refine (hchecks _).trans (congrArg _ (funext fun _ => ?_))
  cases hn : checkName .attr name with
  | error fault => rfl
  | ok nm =>
    obtain ⟨rfl, -⟩ := checkName_eq_ok_iff.1 hn
    cases f.textOf value with
    | error fault => rfl
    | ok text =>
      unfold withAttribute replaced
      dsimp only [Except.bind, Except.map, Option.getD_some]
      cases f.attribute? id nm ns.uri <;> rfl

theorem setAttribute_eq_ok_iff {name : Option String} {value : Value} {ns : Namespace} :
    f.setAttribute id name value ns = .ok (g, a) ↔ ∃ e nm text,
      f.content? id = some (.element e) ∧ (name = some nm ∧ nm ≠ "" ∧ ':' ∉ nm.toList) ∧
      f.checkAttributeNamespace e ns = .ok () ∧ f.textOf value = .ok text ∧
      (f.withAttribute id e ⟨f.nodes.size, nm, text, ns⟩, f.nodes.size) = (g, a) := by
  constructor
  · intro h
    cases he : f.element? id with
    | none =>
      rw [setAttribute, he] at h
      cases h
    | some e =>
      have he := content?_of_element? he
      rw [setAttribute_of_element he] at h
      obtain ⟨_, hcheck, h⟩ := bind_eq_ok h
      obtain ⟨nm, hn, h⟩ := bind_eq_ok h
      obtain ⟨text, htext, h⟩ := map_eq_ok h
      exact ⟨e, nm, text, he, checkName_eq_ok_iff.1 hn, hcheck, htext, h⟩
  · rintro ⟨e, nm, text, he, hn, hcheck, htext, hg⟩
    rw [setAttribute_of_element he, hcheck, checkName_eq_ok_iff.2 hn]
    refine Eq.trans ?_ (congrArg _ hg)
    rw [Except.bind, Except.bind, htext]
    rfl

theorem setAttribute_eq_ok {name : Option String} {value : Value} {ns : Namespace}
    (h : f.setAttribute id name value ns = .ok (g, a)) : ∃ e x, x.id = a ∧ name = some x.name ∧
      f.textOf value = .ok x.value ∧ x.ns = ns ∧ AttributeSet f g id e x := by
  obtain ⟨e, nm, text, he, ⟨rfl, -⟩, hcheck, htext, hg⟩ := setAttribute_eq_ok_iff.1 h
  cases hg
  obtain ⟨hbare, hcheck⟩ := checkAttributeNamespace_eq_ok_iff.1 hcheck
  exact ⟨e, _, rfl, rfl, htext, rfl, attributeSet_withAttribute he rfl hbare hcheck⟩

theorem mem_replaced {old : Option NodeId} {new b : NodeId} {as : List NodeId}
    (ho : ∀ o, old = some o → o ∈ as) :
    b ∈ replaced old new as ↔ b = new ∨ b ∈ as ∧ old ≠ some b := by
  cases old with
  | none => simp [replaced, or_comm]
  | some o =>
    have ho := ho o rfl
    simp only [replaced, List.mem_map, ne_eq, Option.some.injEq]
    constructor
    · rintro ⟨a, ha, rfl⟩
      split
      · exact .inl rfl
      · next hne => exact .inr ⟨ha, Ne.symm hne⟩
    · rintro (rfl | ⟨hb, hne⟩)
      · exact ⟨o, ho, if_pos rfl⟩
      · exact ⟨b, hb, if_neg (Ne.symm hne)⟩

theorem nodup_replaced {old : Option NodeId} {new : NodeId} {as : List NodeId} (h : as.Nodup)
    (hn : new ∉ as) : (replaced old new as).Nodup := by
  cases old with
  | none =>
    rw [replaced, ← List.concat_eq_append]
    exact List.Nodup.concat hn h
  | some o =>
    refine h.map_on fun a ha b hb he => ?_
    split at he
    · next hao =>
      split at he
      · next hbo => rw [hao, hbo]
      · exact absurd (he ▸ hb) hn
    · split at he
      · exact absurd (he ▸ ha) hn
      · exact he

section AttributeSet

variable {e : ElementData} {x : Attr}

namespace AttributeSet

theorem ne_new (hs : AttributeSet f g id e x) {i : NodeId} {y : Content}
    (h : f.content? i = some y) : i ≠ x.id :=
  hs.new ▸ Nat.ne_of_lt (lt_size_of_content? h)

theorem content?_other (hs : AttributeSet f g id e x) {i : NodeId} {y : Content} (hi : i ≠ id)
    (h : f.content? i = some y) : g.content? i = some y := by
  rw [hs.content, if_neg hi, if_neg (hs.ne_new h), h]

theorem content?_new (hs : AttributeSet f g id e x) :
    g.content? x.id = some (.attr x.name x.value x.ns) := by
  rw [hs.content, if_neg (hs.ne_new hs.element).symm, if_pos rfl]

theorem content?_element (hs : AttributeSet f g id e x) :
    g.content? id = some (.element { e with
      attributes := replaced (f.attribute? id x.name x.ns.uri) x.id e.attributes }) := by
  rw [hs.content, if_pos rfl]

theorem content?_else (hs : AttributeSet f g id e x) {i : NodeId} (hi : i ≠ id) (hx : i ≠ x.id) :
    g.content? i = f.content? i := by
  rw [hs.content, if_neg hi, if_neg hx]

theorem attr?_new (hs : AttributeSet f g id e x) : g.attr? x.id = some x := by
  rw [attr?, hs.content?_new]

theorem attr?_old (hs : AttributeSet f g id e x) {a : NodeId} {y : Attr}
    (h : f.attr? a = some y) : g.attr? a = some y := by
  have hy := (content?_of_attr? h).2
  have ha : a ≠ id := fun ha => nomatch (ha ▸ hy).symm.trans hs.element
  rw [attr?_congr ((hs.content?_other ha hy).trans hy.symm), h]

theorem attributes_eq (hs : AttributeSet f g id e x) (p : NodeId) : g.attributes p =
    if p = id then replaced (f.attribute? id x.name x.ns.uri) x.id (f.attributes id)
    else f.attributes p := by
  by_cases hp : p = id
  · rw [if_pos hp, hp, attributes_of_content? hs.content?_element,
      attributes_of_content? hs.element]
    rfl
  · rw [if_neg hp]
    by_cases hpx : p = x.id
    · rw [hpx, attributes_of_content? hs.content?_new, hs.new, attributes, content?_size]
      rfl
    · exact attributes_congr (hs.content?_else hp hpx)

theorem mem_attributes (hs : AttributeSet f g id e x) (a p : NodeId) :
    a ∈ g.attributes p ↔
      if p = id then a = x.id ∨ a ∈ f.attributes id ∧ f.attribute? id x.name x.ns.uri ≠ some a
      else a ∈ f.attributes p := by
  rw [hs.attributes_eq]
  split
  · exact mem_replaced fun o ho => (mem_of_attribute? ho).1
  · rfl

theorem children_eq (hs : AttributeSet f g id e x) (p : NodeId) : g.children p = f.children p := by
  by_cases hp : p = id
  · rw [hp, children_of_content? hs.content?_element, children_of_content? hs.element]
    rfl
  · by_cases hpx : p = x.id
    · rw [hpx, children_of_content? hs.content?_new, hs.new, children, content?_size]
      rfl
    · exact children_congr (hs.content?_else hp hpx)

theorem class?_eq (hs : AttributeSet f g id e x) {i : NodeId} (hi : i ≠ x.id) :
    g.class? i = f.class? i := by
  by_cases hid : i = id
  · rw [hid, class?_of_content? hs.content?_element, class?_of_content? hs.element]
    rfl
  · exact class?_congr (hs.content?_else hid hi)

theorem mem_bindingsAt (hs : AttributeSet f g id e x) (h : WellFormed f) (i : NodeId)
    (n : Namespace) (hn : n ∈ g.bindingsAt i) :
    n ∈ f.bindingsAt i ∨ i = id ∧ n = x.ns ∧ x.ns.pfx ≠ "" := by
  obtain ⟨e', he', -⟩ := Forest.mem_bindingsAt.1 hn
  have hc := he'
  rw [hs.content] at hc
  split at hc
  · next hi =>
    subst hi
    cases hc
    refine (mem_bindingsAt_changed (fun n => n = x.ns ∧ x.ns.pfx ≠ "") hs.element he' rfl
      (fun _ => .inl) (fun a ha y hy => ?_) hn).imp_right fun h => ⟨rfl, h⟩
    have hm := (hs.mem_attributes a i).1 (Forest.mem_attributes he' ha)
    rw [if_pos rfl] at hm
    rcases hm with rfl | ⟨hm, -⟩
    · rw [hs.attr?_new] at hy
      cases hy
      exact .inr fun hne => ⟨rfl, hne⟩
    · obtain ⟨z, hz, -⟩ := h.attribute_data hm
      rw [hs.attr?_old hz] at hy
      rw [attributes_of_content? hs.element] at hm
      exact .inl ⟨hm, hz.trans hy⟩
  · split at hc
    · cases hc
    · refine .inl ((mem_bindingsAt_changed (fun _ => False) hc he' rfl (fun _ => .inl)
        (fun a ha y hy => .inl ⟨ha, ?_⟩) hn).resolve_right not_false)
      obtain ⟨z, hz, -⟩ := h.attribute_data (Forest.mem_attributes hc ha)
      rwa [hs.attr?_old hz, ← hz] at hy

theorem child_ne_new (hs : AttributeSet f g id e x) (h : WellFormed f) (hc : c ∈ f.children p) :
    c ≠ x.id ∧ p ≠ x.id := by
  obtain ⟨y, hy⟩ := h.content?_of_child hc
  obtain ⟨z, hz⟩ := exists_content?_of_child hc
  exact ⟨hs.ne_new hy, hs.ne_new hz⟩

theorem attribute_ne_new (hs : AttributeSet f g id e x) (h : WellFormed f)
    (ha : a ∈ f.attributes p) : a ≠ x.id := by
  obtain ⟨y, hy⟩ := h.content?_of_attribute ha
  exact hs.ne_new hy

/-- An attribute that is not the new one was there before, and is not the one replaced. -/
theorem kept (hs : AttributeSet f g id e x) (h : WellFormed f) (ha : a ∈ g.attributes p)
    (hne : a ≠ x.id) : a ∈ f.attributes p ∧ f.attribute? id x.name x.ns.uri ≠ some a := by
  rw [hs.mem_attributes] at ha
  split at ha
  · next hp => exact hp ▸ ha.resolve_left hne
  · next hp =>
    refine ⟨ha, fun ho => hp ?_⟩
    exact Option.some.inj
      ((h.parent_of_attribute ha).symm.trans (h.parent_of_attribute (mem_of_attribute? ho).1))

theorem eq_of_new_mem (hs : AttributeSet f g id e x) (h : WellFormed f)
    (ha : x.id ∈ g.attributes p) : p = id := by
  rw [hs.mem_attributes] at ha
  split at ha
  · next hp => exact hp
  · exact absurd rfl (hs.attribute_ne_new h ha)

theorem eq_new_of_name (hs : AttributeSet f g id e x) (h : WellFormed f)
    (ha : a ∈ g.attributes id) {y : Attr} (hy : g.attr? a = some y) (hn : y.name = x.name)
    (hu : y.ns.uri = x.ns.uri) : a = x.id := by
  by_contra hne
  obtain ⟨ha, hold⟩ := hs.kept h ha hne
  obtain ⟨z, hz, -⟩ := h.attribute_data ha
  rw [hs.attr?_old hz] at hy
  cases hy
  cases ho : f.attribute? id x.name x.ns.uri with
  | none =>
    have hnone := List.find?_eq_none.1 ho a ha
    rw [isAttributeOf_eq, hz] at hnone
    simp [hn, hu] at hnone
  | some o =>
    obtain ⟨ho', w, hw, hwn, hwu⟩ := mem_of_attribute? ho
    exact hold (ho.trans (congrArg some (h.attribute_name ho' ha hw hz (hwn.trans hn.symm)
      (hwu.trans hu.symm))))

theorem exists_chain (hs : AttributeSet f g id e x) (h : WellFormed f) (i : NodeId) :
    ∃ l, Chain g i l := by
  refine Forest.exists_chain (p := id) x.id h.chains (fun i => ?_) (fun l hl hm => ?_) i
  · rw [hs.parent]
    split
    · next hi => exact .inr (.inr ⟨hi, rfl⟩)
    · split
      · exact .inr (.inl rfl)
      · exact .inl rfl
  · -- the new node lies beyond all nodes that there were
    have hlt : ∀ p ∈ id :: l, p < f.nodes.size :=
      List.forall_mem_cons.2 ⟨lt_size_of_content? hs.element, h.lt_of_mem_chain hl⟩
    exact absurd (hlt _ hm) (hs.new ▸ Nat.lt_irrefl _)

theorem parent_of_child (hs : AttributeSet f g id e x) (h : WellFormed f)
    (hc : c ∈ g.children p) : g.parent? c = some p := by
  rw [hs.children_eq] at hc
  rw [hs.parent, if_neg (hs.child_ne_new h hc).1, if_neg, h.parent_of_child hc]
  exact fun ho => h.child_ne_attribute hc (mem_of_attribute? ho).1 rfl

theorem parent_of_attribute (hs : AttributeSet f g id e x) (h : WellFormed f)
    (ha : a ∈ g.attributes p) : g.parent? a = some p := by
  rw [hs.parent]
  by_cases hne : a = x.id
  · rw [hne] at ha
    rw [if_pos hne, hs.eq_of_new_mem h ha]
  · obtain ⟨hm, hold⟩ := hs.kept h ha hne
    rw [if_neg hne, if_neg hold, h.parent_of_attribute hm]

theorem listed (hs : AttributeSet f g id e x) (h : WellFormed f) (hp : g.parent? c = some p) :
    c ∈ g.children p ∨ c ∈ g.attributes p := by
  rw [hs.children_eq, hs.mem_attributes]
  rw [hs.parent] at hp
  split at hp
  · next hc =>
    cases hp
    rw [if_pos rfl]
    exact .inr (.inl hc)
  · split at hp
    · cases hp
    · next hold =>
      refine (h.listed hp).imp_right fun ha => ?_
      split
      · next hpi => exact .inr ⟨hpi ▸ ha, hold⟩
      · exact ha

theorem attribute_name (hs : AttributeSet f g id e x) (h : WellFormed f) {b : NodeId} {y z : Attr}
    (ha : a ∈ g.attributes p) (hb : b ∈ g.attributes p) (hy : g.attr? a = some y)
    (hz : g.attr? b = some z) (hn : y.name = z.name) (hu : y.ns.uri = z.ns.uri) : a = b := by
  by_cases hax : a = x.id
  · subst hax
    cases hs.eq_of_new_mem h ha
    cases hs.attr?_new.symm.trans hy
    exact (hs.eq_new_of_name h hb hz hn.symm hu.symm).symm
  by_cases hbx : b = x.id
  · subst hbx
    cases hs.eq_of_new_mem h hb
    cases hs.attr?_new.symm.trans hz
    exact hs.eq_new_of_name h ha hy hn hu
  have ha := (hs.kept h ha hax).1
  have hb := (hs.kept h hb hbx).1
  obtain ⟨y', hy', -⟩ := h.attribute_data ha
  obtain ⟨z', hz', -⟩ := h.attribute_data hb
  cases (hs.attr?_old hy').symm.trans hy
  cases (hs.attr?_old hz').symm.trans hz
  exact h.attribute_name ha hb hy' hz' hn hu

theorem one_meaning (hs : AttributeSet f g id e x) (h : WellFormed f) {i : NodeId}
    {n m : Namespace} (hn : n ∈ g.bindingsAt i) (hm : m ∈ g.bindingsAt i) (hp : n.pfx = m.pfx) :
    n = m := by
  by_cases hx : x.ns.pfx = ""
  · have hold {n : Namespace} (hn : n ∈ g.bindingsAt i) : n ∈ f.bindingsAt i :=
      (hs.mem_bindingsAt h i n hn).resolve_right fun hnew => hnew.2.2 hx
    exact h.one_meaning (hold hn) (hold hm) hp
  · refine h.one_meaning_changed id x.ns (fun i n hn => ?_) (fun n hn => ?_) i n m hn hm hp
    · exact (hs.mem_bindingsAt h i n hn).imp_right fun hnew => ⟨hnew.1, hnew.2.1⟩
    · exact eq_of_checkPrefix (hs.checked hx) (bindingsAt_of_element hs.element ▸ hn)

end AttributeSet

theorem WellFormed.attributeSet (h : WellFormed f) (hs : AttributeSet f g id e x) :
    WellFormed g where
  chains := hs.exists_chain h
  parent_of_child := hs.parent_of_child h
  parent_of_attribute := hs.parent_of_attribute h
  listed := hs.listed h
  nodup_children p := hs.children_eq p ▸ h.nodup_children p
  nodup_attributes p := by
    rw [hs.attributes_eq]
    split
    · exact nodup_replaced (h.nodup_attributes id) fun hm => hs.attribute_ne_new h hm rfl
    · exact h.nodup_attributes p
  class_of_child hc := by
    rw [hs.children_eq] at hc
    rw [hs.class?_eq (hs.child_ne_new h hc).1, hs.class?_eq (hs.child_ne_new h hc).2]
    exact h.class_of_child hc
  one_root hp hc hd hce hde := by
    rw [hs.children_eq] at hc hd
    rw [hs.class?_eq (hs.child_ne_new h hc).2] at hp
    rw [hs.class?_eq (hs.child_ne_new h hc).1] at hce
    rw [hs.class?_eq (hs.child_ne_new h hd).1] at hde
    exact h.one_root hp hc hd hce hde
  attribute_data {p a} ha := by
    by_cases hne : a = x.id
    · exact ⟨x, hne ▸ hs.attr?_new, hs.bare⟩
    · obtain ⟨y, hy, hbare⟩ := h.attribute_data (hs.kept h ha hne).1
      exact ⟨y, hs.attr?_old hy, hbare⟩
  attribute_name := hs.attribute_name h
  one_meaning := hs.one_meaning h

end AttributeSet

end TreeQuery.Forest
