import TreeQuery.Forest.Build
import TreeQuery.Forest.Tree
import TreeQuery.Proofs.Forest.Ancestors

/-!
# Well-formed forests

In a well-formed forest parents and children know each other, chains of parents end, a document has
no second root element, and on one element neither a prefix nor the name of an attribute has two
meanings.
-/

namespace TreeQuery.Forest

variable {f g : Forest} {id p q c a : NodeId}

/-- The bindings that a node itself makes; only elements make any. -/
def bindingsAt (f : Forest) (id : NodeId) : List Namespace :=
  ((f.element? id).map f.bindings).getD []

structure WellFormed (f : Forest) : Prop where
  chains : ∀ id, ∃ l, Chain f id l
  parent_of_child : ∀ {p c}, c ∈ f.children p → f.parent? c = some p
  parent_of_attribute : ∀ {p a}, a ∈ f.attributes p → f.parent? a = some p
  listed : ∀ {p c}, f.parent? c = some p → c ∈ f.children p ∨ c ∈ f.attributes p
  nodup_children : ∀ p, (f.children p).Nodup
  nodup_attributes : ∀ p, (f.attributes p).Nodup
  class_of_child : ∀ {p c}, c ∈ f.children p → ∃ k, f.class? c = some k ∧
    (f.class? p = some .document → k.inDocument = true) ∧
    (f.class? p = some .element → k.inElement = true)
  one_root : ∀ {p c d}, f.class? p = some .document → c ∈ f.children p → d ∈ f.children p →
    f.class? c = some .element → f.class? d = some .element → c = d
  attribute_data : ∀ {p a}, a ∈ f.attributes p →
    ∃ x, f.attr? a = some x ∧ (x.ns.pfx = "" → x.ns.uri = "")
  attribute_name : ∀ {p a b x y}, a ∈ f.attributes p → b ∈ f.attributes p → f.attr? a = some x →
    f.attr? b = some y → x.name = y.name → x.ns.uri = y.ns.uri → a = b
  one_meaning : ∀ {id n m}, n ∈ f.bindingsAt id → m ∈ f.bindingsAt id → n.pfx = m.pfx → n = m

/-! ## Reading what was changed -/

theorem node?_add (f : Forest) (x : Content) (id : NodeId) :
    (f.add x).1.node? id = if id = f.nodes.size then some ⟨none, x⟩ else f.node? id :=
  Array.getElem?_push

theorem node?_modify (f : Forest) (i : NodeId) (change : Node → Node) (id : NodeId) :
    (f.modify i change).node? id = if i = id then (f.node? id).map change else f.node? id :=
  Array.getElem?_modify

theorem node?_size (f : Forest) : f.node? f.nodes.size = none :=
  Array.getElem?_eq_none (Nat.le_refl _)

theorem lt_size_of_content? {x : Content} (h : f.content? id = some x) : id < f.nodes.size := by
  obtain ⟨n, hn, -⟩ := Option.map_eq_some_iff.1 h
  exact (Array.getElem?_eq_some_iff.1 hn).1

theorem content?_size (f : Forest) : f.content? f.nodes.size = none := by
  rw [content?, node?_size]
  rfl

theorem parent?_size (f : Forest) : f.parent? f.nodes.size = none := by
  rw [parent?, node?_size]
  rfl

theorem content?_add (f : Forest) (x : Content) (id : NodeId) :
    (f.add x).1.content? id = if id = f.nodes.size then some x else f.content? id := by
  rw [content?, node?_add]
  split <;> rfl

theorem parent?_add (f : Forest) (x : Content) (id : NodeId) :
    (f.add x).1.parent? id = f.parent? id := by
  rw [parent?, node?_add]
  split
  · next h =>
    rw [h, parent?_size]
    rfl
  · rfl

theorem content?_setParent (f : Forest) (i : NodeId) (parent : Option NodeId) (id : NodeId) :
    (f.setParent i parent).content? id = f.content? id := by
  rw [content?, setParent, node?_modify, content?]
  split
  · rw [Option.map_map]
    rfl
  · rfl

theorem parent?_setParent (f : Forest) (i : NodeId) (parent : Option NodeId) (id : NodeId)
    (h : (f.content? i).isSome = true) :
    (f.setParent i parent).parent? id = if id = i then parent else f.parent? id := by
  rw [parent?, setParent, node?_modify, parent?]
  by_cases hi : i = id
  · subst hi
    rw [content?, Option.isSome_map] at h
    obtain ⟨n, hn⟩ := Option.isSome_iff_exists.1 h
    rw [if_pos rfl, if_pos rfl, hn]
    rfl
  · rw [if_neg hi, if_neg (Ne.symm hi)]

theorem parent?_modify (change : Node → Node) (hc : ∀ n, (change n).parent = n.parent)
    (f : Forest) (i id : NodeId) : (f.modify i change).parent? id = f.parent? id := by
  rw [parent?, node?_modify, parent?]
  split
  · cases f.node? id with
    | none => rfl
    | some n => exact hc n
  · rfl

theorem content?_modify (change : Content → Content) (f : Forest) (i id : NodeId) :
    (f.modify i fun n => { n with content := change n.content }).content? id =
      if id = i then (f.content? id).map change else f.content? id := by
  rw [content?, node?_modify, content?]
  by_cases hi : i = id
  · rw [if_pos hi, if_pos hi.symm, Option.map_map, Option.map_map]
    rfl
  · rw [if_neg hi, if_neg (Ne.symm hi)]

theorem eq_of_content? (hc : ∀ i, g.content? i = f.content? i)
    (hp : ∀ i, g.parent? i = f.parent? i) : g = f := by
  have hnode (i : NodeId) : g.node? i = f.node? i := by
    have hc := hc i
    have hp := hp i
    rw [content?, content?] at hc
    rw [parent?, parent?] at hp
    cases hg : g.node? i with
    | none =>
      rw [hg] at hc
      exact (Option.map_eq_none_iff.1 hc.symm).symm
    | some n =>
      rw [hg] at hc hp
      obtain ⟨m, hm, hcontent⟩ := Option.map_eq_some_iff.1 hc.symm
      rw [hm] at hp ⊢
      cases n
      cases m
      cases hcontent
      cases hp
      rfl
  have hnodes : g.nodes = f.nodes := Array.ext_getElem? hnode
  cases g
  cases f
  cases hnodes
  rfl

/-! ## Accessors -/

theorem children_congr (h : g.content? id = f.content? id) : g.children id = f.children id := by
  rw [children, h, children]

theorem attributes_congr (h : g.content? id = f.content? id) :
    g.attributes id = f.attributes id := by
  rw [attributes, h, attributes]

theorem class?_congr (h : g.content? id = f.content? id) : g.class? id = f.class? id := by
  rw [class?, h, class?]

theorem attr?_congr (h : g.content? id = f.content? id) : g.attr? id = f.attr? id := by
  rw [attr?, h, attr?]

theorem children_of_content? {x : Content} (h : f.content? id = some x) :
    f.children id = x.children := by
  rw [children, h]
  rfl

theorem attributes_of_content? {x : Content} (h : f.content? id = some x) :
    f.attributes id = x.attributes := by
  rw [attributes, h]
  rfl

theorem class?_of_content? {x : Content} (h : f.content? id = some x) :
    f.class? id = some x.nodeClass := by
  rw [class?, h]
  rfl

theorem class?_ne_of_content? {x : Content} {k : NodeClass} (h : f.content? id = some x)
    (hk : x.nodeClass ≠ k) : f.class? id ≠ some k := by
  rw [class?_of_content? h]
  exact fun he => hk (Option.some.inj he)

theorem exists_element (h : f.class? id = some .element) :
    ∃ e, f.content? id = some (.element e) := by
  obtain ⟨x, hx, hk⟩ := Option.map_eq_some_iff.1 h
  cases x with
  | element e => exact ⟨e, hx⟩
  | _ => cases hk

theorem exists_document (h : f.class? id = some .document) :
    ∃ cs, f.content? id = some (.document cs) := by
  obtain ⟨x, hx, hk⟩ := Option.map_eq_some_iff.1 h
  cases x with
  | document cs => exact ⟨cs, hx⟩
  | _ => cases hk

theorem exists_attr (h : f.class? id = some .attr) :
    ∃ name value ns, f.content? id = some (.attr name value ns) := by
  obtain ⟨x, hx, hk⟩ := Option.map_eq_some_iff.1 h
  cases x with
  | attr name value ns => exact ⟨name, value, ns, hx⟩
  | _ => cases hk

theorem exists_text (h : f.class? id = some .text) : ∃ v, f.content? id = some (.text v) := by
  obtain ⟨x, hx, hk⟩ := Option.map_eq_some_iff.1 h
  cases x with
  | text v => exact ⟨v, hx⟩
  | _ => cases hk

theorem isElement_of_content? {e : ElementData} (h : f.content? id = some (.element e)) :
    f.isElement id = true := by
  rw [isElement, class?_of_content? h]
  rfl

theorem exists_content?_of_child (h : c ∈ f.children p) : ∃ x, f.content? p = some x := by
  cases hx : f.content? p with
  | some x => exact ⟨x, rfl⟩
  | none =>
    rw [children, hx] at h
    cases h

theorem content?_of_element? {e : ElementData} (h : f.element? id = some e) :
    f.content? id = some (.element e) := by
  unfold element? at h
  split at h
  · next he => rw [he, Option.some.inj h]
  · cases h

theorem element?_eq_some_iff {e : ElementData} :
    f.element? id = some e ↔ f.content? id = some (.element e) :=
  ⟨content?_of_element?, fun h => by rw [element?, h]⟩

theorem exists_content?_of_attribute (h : a ∈ f.attributes p) :
    ∃ e, f.content? p = some (.element e) ∧ a ∈ e.attributes := by
  cases hx : f.content? p with
  | none =>
    rw [attributes, hx] at h
    cases h
  | some x =>
    rw [attributes_of_content? hx] at h
    cases x with
    | element e => exact ⟨e, rfl, h⟩
    | _ => cases h

theorem mem_attributes {e : ElementData} (he : f.content? p = some (.element e))
    (ha : a ∈ e.attributes) : a ∈ f.attributes p := by
  rwa [attributes_of_content? he]

theorem content?_of_attr? {x : Attr} (h : f.attr? a = some x) :
    x.id = a ∧ f.content? a = some (.attr x.name x.value x.ns) := by
  unfold attr? at h
  split at h
  · next hx =>
    cases h
    exact ⟨rfl, hx⟩
  · cases h

theorem attributeNamespace?_eq (f : Forest) (a : NodeId) :
    f.attributeNamespace? a = (f.attr? a).map (·.ns) := by
  unfold attributeNamespace? attr?
  split <;> simp_all

theorem bindingsAt_of_element {e : ElementData} (h : f.content? id = some (.element e)) :
    f.bindingsAt id = f.bindings e := by
  rw [bindingsAt, element?, h]
  rfl

theorem bindingsAt_eq_nil {f : Forest} {id : NodeId} (h : f.element? id = none) :
    f.bindingsAt id = [] := by
  rw [bindingsAt, h]
  rfl

theorem mem_bindings {e : ElementData} {n : Namespace} :
    n ∈ f.bindings e ↔ n = e.ns ∨ n ∈ e.declared ∨
      ∃ a ∈ e.attributes, ∃ x, f.attr? a = some x ∧ x.ns = n ∧ n.pfx ≠ "" := by
  rw [bindings, List.cons_append, List.mem_cons, List.mem_append, List.mem_filter,
    List.mem_filterMap, bne_iff_ne]
  simp only [attributeNamespace?_eq, Option.map_eq_some_iff]
  constructor
  · rintro (h | h | ⟨⟨a, ha, x, hx, hn⟩, hne⟩)
    · exact .inl h
    · exact .inr (.inl h)
    · exact .inr (.inr ⟨a, ha, x, hx, hn, hne⟩)
  · rintro (h | h | ⟨a, ha, x, hx, hn, hne⟩)
    · exact .inl h
    · exact .inr (.inl h)
    · exact .inr (.inr ⟨⟨a, ha, x, hx, hn⟩, hne⟩)

theorem mem_bindingsAt {n : Namespace} :
    n ∈ f.bindingsAt id ↔ ∃ e, f.content? id = some (.element e) ∧ n ∈ f.bindings e := by
  constructor
  · intro h
    cases he : f.element? id with
    | none =>
      rw [bindingsAt_eq_nil he] at h
      cases h
    | some e =>
      have hc := content?_of_element? he
      exact ⟨e, hc, bindingsAt_of_element hc ▸ h⟩
  · rintro ⟨e, he, hn⟩
    rwa [bindingsAt_of_element he]

/-- What an element of a changed forest binds: what it bound before, and what is new to it. -/
theorem mem_bindingsAt_changed {e e' : ElementData} (isNew : Namespace → Prop) {n : Namespace}
    (he : f.content? id = some (.element e)) (he' : g.content? id = some (.element e'))
    (hns : e'.ns = e.ns) (hd : ∀ n ∈ e'.declared, n ∈ e.declared ∨ isNew n)
    (ha : ∀ a ∈ e'.attributes, ∀ x, g.attr? a = some x →
      (a ∈ e.attributes ∧ f.attr? a = some x) ∨ (x.ns.pfx ≠ "" → isNew x.ns))
    (hn : n ∈ g.bindingsAt id) : n ∈ f.bindingsAt id ∨ isNew n := by
  rw [bindingsAt_of_element he', mem_bindings] at hn
  rw [bindingsAt_of_element he, mem_bindings]
  rcases hn with rfl | hn | ⟨a, hm, x, hx, rfl, hne⟩
  · exact .inl (.inl hns)
  · exact (hd n hn).imp_left fun h => .inr (.inl h)
  · rcases ha a hm x hx with ⟨hm, hx⟩ | hnew
    · exact .inl (.inr (.inr ⟨a, hm, x, hx, rfl, hne⟩))
    · exact .inr (hnew hne)

/-- A prefix keeps its one meaning if what is new on an element agrees with what is there. -/
theorem WellFormed.one_meaning_changed (h : WellFormed f) (id : NodeId) (ns : Namespace)
    (hsub : ∀ i n, n ∈ g.bindingsAt i → n ∈ f.bindingsAt i ∨ i = id ∧ n = ns)
    (hns : ∀ n ∈ f.bindingsAt id, n.pfx = ns.pfx → n = ns) (i : NodeId) (n m : Namespace)
    (hn : n ∈ g.bindingsAt i) (hm : m ∈ g.bindingsAt i) (hp : n.pfx = m.pfx) : n = m := by
  rcases hsub i n hn with hn | ⟨rfl, rfl⟩
  · rcases hsub i m hm with hm | ⟨rfl, rfl⟩
    · exact h.one_meaning hn hm hp
    · exact hns n hn hp
  · rcases hsub i m hm with hm | ⟨-, rfl⟩
    · exact (hns m hm hp.symm).symm
    · rfl

theorem WellFormed.class?_ne_attr_of_child (h : WellFormed f) (hc : c ∈ f.children p) :
    f.class? c ≠ some .attr := by
  intro ha
  obtain ⟨k, hk, hd, he⟩ := h.class_of_child hc
  cases hk.symm.trans ha
  obtain ⟨y, hy⟩ := exists_content?_of_child hc
  rw [children_of_content? hy] at hc
  rw [class?_of_content? hy] at hd he
  cases y with
  | document cs => cases hd rfl
  | element e => cases he rfl
  | _ => cases hc

theorem WellFormed.class?_of_attribute (h : WellFormed f) (ha : a ∈ f.attributes p) :
    f.class? a = some .attr := by
  obtain ⟨x, hx, -⟩ := h.attribute_data ha
  exact class?_of_content? (content?_of_attr? hx).2

theorem WellFormed.child_ne_attribute (h : WellFormed f) (hc : c ∈ f.children p)
    (ha : a ∈ f.attributes q) : c ≠ a := by
  rintro rfl
  exact h.class?_ne_attr_of_child hc (h.class?_of_attribute ha)

theorem WellFormed.mem_children (h : WellFormed f) (hp : f.parent? c = some p)
    (hc : f.class? c ≠ some .attr) : c ∈ f.children p :=
  (h.listed hp).resolve_right fun ha => hc (h.class?_of_attribute ha)

theorem WellFormed.lt_of_mem_chain (h : WellFormed f) {l : List NodeId} (hl : Chain f id l) :
    ∀ p ∈ l, p < f.nodes.size := by
  induction hl with
  | top => exact nofun
  | step hp _ ih =>
    refine List.forall_mem_cons.2 ⟨?_, ih⟩
    rcases h.listed hp with hc | ha
    · obtain ⟨x, hx⟩ := exists_content?_of_child hc
      exact lt_size_of_content? hx
    · obtain ⟨e, he, -⟩ := exists_content?_of_attribute ha
      exact lt_size_of_content? he

theorem WellFormed.chain (h : WellFormed f) (id : NodeId) : Chain f id (f.ancestors id) := by
  obtain ⟨l, hl⟩ := h.chains id
  rwa [hl.ancestors_eq (h.lt_of_mem_chain hl)]

end TreeQuery.Forest
