import Mathlib.Data.List.Nodup
import TreeQuery.Forest.Element
import TreeQuery.Proofs.Forest.WellFormed

/-!
# Growing a forest

A forest stays well-formed when a node is made (`WellFormed.add`), a namespace declared
(`WellFormed.declare`) or a child appended (`WellFormed.attach`).
-/

namespace TreeQuery.Forest

variable {f g : Forest} {id p q c a : NodeId}

/-! ## New nodes and declarations -/

/-- What a node may become without a change of its links: the same, but that an element may declare
more. -/
def SameLinks (x y : Content) : Prop :=
  y.nodeClass = x.nodeClass ∧ y.children = x.children ∧ y.attributes = x.attributes ∧
    (x.nodeClass = .attr → y = x)

/-- What adding nodes without links does, and declaring more namespaces. -/
structure LinksKept (f g : Forest) : Prop where
  parent : ∀ id, g.parent? id = f.parent? id
  old : ∀ id x, f.content? id = some x → ∃ y, g.content? id = some y ∧ SameLinks x y
  new : ∀ id y, f.content? id = none → g.content? id = some y →
    y.children = [] ∧ y.attributes = []

namespace LinksKept

theorem links_eq (hs : LinksKept f g) (id : NodeId) :
    g.children id = f.children id ∧ g.attributes id = f.attributes id := by
  cases hx : f.content? id with
  | some x =>
    obtain ⟨y, hy, -, hc, ha, -⟩ := hs.old id x hx
    rw [children_of_content? hx, children_of_content? hy, attributes_of_content? hx,
      attributes_of_content? hy]
    exact ⟨hc, ha⟩
  | none =>
    rw [children, attributes, children, attributes, hx]
    cases hy : g.content? id with
    | none => exact ⟨rfl, rfl⟩
    | some y => exact hs.new id y hx hy

theorem class?_eq (hs : LinksKept f g) {x : Content} (hx : f.content? id = some x) :
    g.class? id = f.class? id := by
  obtain ⟨y, hy, hc, -⟩ := hs.old id x hx
  rw [class?_of_content? hy, class?_of_content? hx, hc]

theorem attr?_eq_some (hs : LinksKept f g) {x : Attr} (hx : f.attr? id = some x) :
    g.attr? id = some x := by
  have hcontent := (content?_of_attr? hx).2
  obtain ⟨y, hy, -, -, -, hsame⟩ := hs.old id _ hcontent
  rw [attr?_congr (hy.trans ((congrArg some (hsame rfl)).trans hcontent.symm)), hx]

theorem attr?_eq (hs : LinksKept f g) (h : WellFormed f) (ha : a ∈ f.attributes p) :
    g.attr? a = f.attr? a := by
  obtain ⟨y, hy, -⟩ := h.attribute_data ha
  rw [hs.attr?_eq_some hy, hy]

end LinksKept

theorem WellFormed.content?_of_child (h : WellFormed f) (hc : c ∈ f.children p) :
    ∃ x, f.content? c = some x := by
  obtain ⟨k, hk, -⟩ := h.class_of_child hc
  obtain ⟨x, hx, -⟩ := Option.map_eq_some_iff.1 hk
  exact ⟨x, hx⟩

theorem WellFormed.linksKept (h : WellFormed f) (hs : LinksKept f g)
    (hmeaning : ∀ id n m, n ∈ g.bindingsAt id → m ∈ g.bindingsAt id → n.pfx = m.pfx → n = m) :
    WellFormed g where
  chains id := by
    obtain ⟨l, hl⟩ := h.chains id
    exact ⟨l, hl.congr hs.parent⟩
  parent_of_child {p c} hc := by
    rw [(hs.links_eq p).1] at hc
    rw [hs.parent, h.parent_of_child hc]
  parent_of_attribute {p a} ha := by
    rw [(hs.links_eq p).2] at ha
    rw [hs.parent, h.parent_of_attribute ha]
  listed {p c} hc := by
    rw [hs.parent] at hc
    rw [(hs.links_eq p).1, (hs.links_eq p).2]
    exact h.listed hc
  nodup_children p := (hs.links_eq p).1 ▸ h.nodup_children p
  nodup_attributes p := (hs.links_eq p).2 ▸ h.nodup_attributes p
  class_of_child {p c} hc := by
    rw [(hs.links_eq p).1] at hc
    obtain ⟨x, hx⟩ := h.content?_of_child hc
    obtain ⟨y, hy⟩ := exists_content?_of_child hc
    rw [hs.class?_eq hx, hs.class?_eq hy]
    exact h.class_of_child hc
  one_root {p c d} hp hc hd hce hde := by
    rw [(hs.links_eq p).1] at hc hd
    obtain ⟨x, hx⟩ := h.content?_of_child hc
    obtain ⟨y, hy⟩ := h.content?_of_child hd
    obtain ⟨z, hz⟩ := exists_content?_of_child hc
    rw [hs.class?_eq hz] at hp
    rw [hs.class?_eq hx] at hce
    rw [hs.class?_eq hy] at hde
    exact h.one_root hp hc hd hce hde
  attribute_data {p a} ha := by
    rw [(hs.links_eq p).2] at ha
    rw [hs.attr?_eq h ha]
    exact h.attribute_data ha
  attribute_name {p a b x y} ha hb hx hy hn hu := by
    rw [(hs.links_eq p).2] at ha hb
    rw [hs.attr?_eq h ha] at hx
    rw [hs.attr?_eq h hb] at hy
    exact h.attribute_name ha hb hx hy hn hu
  one_meaning := hmeaning _ _ _

/-- Whether a node is as it is made: without links and declarations. -/
def IsNew : Content → Prop
  | .document cs => cs = []
  | .element e => e.declared = [] ∧ e.attributes = [] ∧ e.children = []
  | _ => True

theorem WellFormed.content?_of_attribute (h : WellFormed f) (ha : a ∈ f.attributes p) :
    ∃ x, f.content? a = some x := by
  obtain ⟨x, hx, -⟩ := h.attribute_data ha
  exact ⟨_, (content?_of_attr? hx).2⟩

theorem content?_add_of_some {x y : Content} (h : f.content? id = some y) :
    (f.add x).1.content? id = some y := by
  rw [content?_add, if_neg (Nat.ne_of_lt (lt_size_of_content? h)), h]

theorem WellFormed.add (h : WellFormed f) {x : Content} (hx : IsNew x) :
    WellFormed (f.add x).1 := by
  have hbinds (id : NodeId) (n : Namespace) (hn : n ∈ (f.add x).1.bindingsAt id) :
      n ∈ f.bindingsAt id ∨ id = f.nodes.size ∧ ∃ e, x = .element e ∧ n = e.ns := by
    obtain ⟨e, he, hb⟩ := mem_bindingsAt.1 hn
    have hc := he
    rw [content?_add] at hc
    split at hc
    · next hid =>
      cases hc
      obtain ⟨hd, ha, -⟩ := hx
      rw [mem_bindings, hd, ha] at hb
      simp only [List.not_mem_nil, false_and, exists_false, or_false] at hb
      exact .inr ⟨hid, e, rfl, hb⟩
    · refine .inl ((mem_bindingsAt_changed (fun _ => False) hc he rfl
        (fun _ => .inl) (fun a ha y hy => .inl ⟨ha, ?_⟩) hn).resolve_right not_false)
      obtain ⟨z, hz⟩ := h.content?_of_attribute (mem_attributes hc ha)
      rwa [attr?_congr ((content?_add_of_some hz).trans hz.symm)] at hy
  refine h.linksKept ⟨parent?_add f x, fun id y hy => ?_, fun id y hn hy => ?_⟩ ?_
  · exact ⟨y, content?_add_of_some hy, rfl, rfl, rfl, fun _ => rfl⟩
  · rw [content?_add] at hy
    split at hy
    · cases hy
      cases x with
      | document cs => exact ⟨hx, rfl⟩
      | element e => exact ⟨hx.2.2, hx.2.1⟩
      | _ => exact ⟨rfl, rfl⟩
    · rw [hn] at hy
      cases hy
  · cases x with
    | element e =>
      refine h.one_meaning_changed f.nodes.size e.ns (fun i n hn => ?_) ?_
      · exact (hbinds i n hn).imp_right (And.imp_right fun ⟨e', he, hn⟩ => by cases he; exact hn)
      · intro n hn
        obtain ⟨e', he, -⟩ := mem_bindingsAt.1 hn
        rw [content?_size] at he
        cases he
    | _ =>
      intro i n m hn hm
      exact h.one_meaning ((hbinds i n hn).resolve_right (by rintro ⟨-, e, he, -⟩; cases he))
        ((hbinds i m hm).resolve_right (by rintro ⟨-, e, he, -⟩; cases he))

/-- An element can bind a prefix if all that it uses or declares under the prefix is the same. -/
theorem checkPrefix_eq_ok_iff {e : ElementData} {ns : Namespace} :
    f.checkPrefix e ns = .ok () ↔ ∀ n ∈ f.usedNamespaces e, n.pfx = ns.pfx → n = ns := by
  have hfree : (f.usedNamespaces e).find? (fun n => n.pfx == ns.pfx && n.uri != ns.uri) = none ↔
      ∀ n ∈ f.usedNamespaces e, n.pfx = ns.pfx → n = ns := by
    rw [List.find?_eq_none]
    refine forall₂_congr fun n _ => ?_
    rw [Bool.and_eq_true, beq_iff_eq, bne_iff_ne, not_and, not_not]
    exact forall_congr' fun hp => ⟨Namespace.ext' hp, congrArg Namespace.uri⟩
  rw [← hfree, checkPrefix]
  split <;> simp [*]

/-- What an element uses or declares is what it binds, and the namespaces of attributes without a
prefix. -/
theorem mem_usedNamespaces {e : ElementData} {n : Namespace} : n ∈ f.usedNamespaces e ↔
    n ∈ f.bindings e ∨ n.pfx = "" ∧ ∃ a ∈ e.attributes, ∃ x, f.attr? a = some x ∧ x.ns = n := by
  have hattribute : n ∈ e.attributes.filterMap f.attributeNamespace? ↔
      ∃ a ∈ e.attributes, ∃ x, f.attr? a = some x ∧ x.ns = n := by
    simp only [List.mem_filterMap, attributeNamespace?_eq, Option.map_eq_some_iff]
  rw [usedNamespaces, bindings, List.mem_append, List.mem_append, List.mem_filter, bne_iff_ne,
    hattribute, or_assoc, or_congr_right]
  by_cases hp : n.pfx = "" <;> simp [hp]

theorem eq_of_checkPrefix {e : ElementData} {ns n : Namespace}
    (h : f.checkPrefix e ns = .ok ()) (hn : n ∈ f.bindings e) (hp : n.pfx = ns.pfx) : n = ns :=
  checkPrefix_eq_ok_iff.1 h n (mem_usedNamespaces.2 (.inl hn)) hp

theorem content?_setContent {y : Content} (h : f.content? id = some y) (x : Content) (i : NodeId) :
    (f.setContent id x).content? i = if i = id then some x else f.content? i := by
  rw [setContent, content?_modify fun _ => x]
  split
  · next hi => rw [hi, h]; rfl
  · rfl

theorem parent?_setContent (f : Forest) (id : NodeId) (x : Content) (i : NodeId) :
    (f.setContent id x).parent? i = f.parent? i :=
  parent?_modify (fun n => { n with content := x }) (fun _ => rfl) f id i

theorem attr?_setContent_element {e e' : ElementData} (he : f.content? id = some (.element e)) :
    (f.setContent id (.element e')).attr? a = f.attr? a := by
  by_cases ha : a = id
  · rw [attr?, attr?, content?_setContent he, if_pos ha, ha, he]
  · exact attr?_congr ((content?_setContent he _ a).trans (if_neg ha))

theorem setContent_self {x : Content} (h : f.content? id = some x) : f.setContent id x = f := by
  refine eq_of_content? (fun i => ?_) (parent?_setContent f id x)
  rw [content?_setContent h]
  split
  · next hi => rw [hi, h]
  · rfl

/-- The declarations of an element after one more has been made. -/
def declaredWith (ns : Namespace) (declared : List Namespace) : List Namespace :=
  if ns = Namespace.none ∨ ns = Namespace.xml ∨ ns ∈ declared then declared else declared ++ [ns]

/-- What keeps an element from declaring a namespace. -/
def checkDeclaration (f : Forest) (e : ElementData) (ns : Namespace) : Except Failure Unit :=
  if ns = Namespace.none ∨ ns = Namespace.xml then .ok () else f.checkPrefix e ns

theorem declare_of_element {e : ElementData} {ns : Namespace}
    (he : f.content? id = some (.element e)) :
    f.declare id ns = (f.checkDeclaration e ns).map fun _ =>
      f.setContent id (.element { e with declared := declaredWith ns e.declared }) := by
  unfold Forest.declare checkDeclaration declaredWith
  rw [element?_eq_some_iff.2 he]
  dsimp only
  split
  · next hfree =>
    rw [if_pos (or_assoc.1 (.inl hfree)), setContent_self he]
    rfl
  · next hbound =>
    simp only [← or_assoc, hbound, false_or, List.contains_iff_mem]
    cases f.checkPrefix e ns with
    | error fault => rfl
    | ok =>
      dsimp only [bind, Except.bind, Except.map]
      split
      · rw [setContent_self he]
        rfl
      · rfl

theorem declare_eq_ok_iff {ns : Namespace} : f.declare id ns = .ok g ↔
    ∃ e, f.content? id = some (.element e) ∧ f.checkDeclaration e ns = .ok () ∧
      g = f.setContent id (.element { e with declared := declaredWith ns e.declared }) := by
  constructor
  · intro h
    cases he : f.element? id with
    | none =>
      rw [declare, he] at h
      cases h
    | some e =>
      have he := content?_of_element? he
      rw [declare_of_element he] at h
      obtain ⟨_, hcheck, rfl⟩ := map_eq_ok h
      exact ⟨e, he, hcheck, rfl⟩
  · rintro ⟨e, he, hcheck, rfl⟩
    rw [declare_of_element he, hcheck]
    rfl

theorem WellFormed.declare (h : WellFormed f) {ns : Namespace}
    (hd : f.declare id ns = .ok g) : WellFormed g := by
  obtain ⟨e, he, hcheck, rfl⟩ := declare_eq_ok_iff.1 hd
  unfold declaredWith
  split
  · rwa [setContent_self he]
  next hnew =>
  rw [← or_assoc, not_or] at hnew
  rw [checkDeclaration, if_neg hnew.1] at hcheck
  have hcontent := content?_setContent he (.element { e with declared := e.declared ++ [ns] })
  have hattr (a : NodeId) (x : Attr) (hx : (f.setContent id
      (.element { e with declared := e.declared ++ [ns] })).attr? a = some x) :
      f.attr? a = some x := attr?_setContent_element he ▸ hx
  refine h.linksKept ⟨parent?_setContent f id _, fun i x hx => ?_, fun i y hn hy => ?_⟩
    (h.one_meaning_changed id ns (fun i n hn => ?_)
      fun n hn => eq_of_checkPrefix hcheck (bindingsAt_of_element he ▸ hn))
  · rw [hcontent]
    split
    · next hi =>
      cases (hi ▸ hx).symm.trans he
      exact ⟨_, rfl, rfl, rfl, rfl, nofun⟩
    · exact ⟨x, hx, rfl, rfl, rfl, fun _ => rfl⟩
  · rw [hcontent] at hy
    split at hy
    · next hi =>
      rw [hi, he] at hn
      cases hn
    · rw [hn] at hy
      cases hy
  · obtain ⟨e', he', -⟩ := mem_bindingsAt.1 hn
    have hc := he'
    rw [hcontent] at hc
    split at hc
    · next hi =>
      cases hc
      subst hi
      refine (mem_bindingsAt_changed (· = ns) he he' rfl (fun m hm => ?_)
        (fun a ha x hx => .inl ⟨ha, hattr a x hx⟩) hn).imp_right fun h => ⟨rfl, h⟩
      exact (List.mem_append.1 hm).imp_right List.mem_singleton.1
    · exact .inl ((mem_bindingsAt_changed (fun _ => False) hc he' rfl (fun _ => .inl)
        (fun a ha x hx => .inl ⟨ha, hattr a x hx⟩) hn).resolve_right not_false)

/-! ## Children -/

/-- What must hold for a node to become the last child of another. -/
structure Appendable (f : Forest) (parent child : NodeId) : Prop where
  fits : ∃ k, f.class? child = some k ∧
    (f.class? parent = some .document ∧ k.inDocument = true ∧
        (k = .element → f.rootElement? parent = none) ∨
      f.class? parent = some .element ∧ k.inElement = true)
  detached : f.parent? child = none
  apart : child ∉ parent :: f.ancestors parent

theorem refused_iff {α : Type} {c : Prop} [Decidable c] {a : α} {x : Option α} :
    (if c then some a else x) = none ↔ ¬ c ∧ x = none := by
  split <;> simp [*]

theorem append_eq_ok {parent child : NodeId} (h : f.append parent child = .ok g) :
    g = f.attach parent child ∧ Appendable f parent child := by
  unfold append at h
  split at h
  · cases h
  · next hfault =>
    cases h
    refine ⟨rfl, ?_⟩
    unfold appendFault? at hfault
    cases hk : f.class? child with
    | none =>
      rw [hk] at hfault
      dsimp only [Option.getD] at hfault
      split at hfault <;> cases hfault
    | some k =>
      rw [hk] at hfault
      dsimp only [Option.getD_some] at hfault
      split at hfault
      · next hp =>
        simp only [refused_iff, not_and, Bool.not_eq_true', Bool.not_eq_false,
          Option.not_isSome_iff_eq_none, List.contains_iff_mem] at hfault
        obtain ⟨hroot, hin, hdetached, hapart, -⟩ := hfault
        exact ⟨⟨k, hk, .inl ⟨hp, hin, hroot⟩⟩, hdetached, hapart⟩
      · next hp =>
        simp only [refused_iff, Bool.not_eq_true', Bool.not_eq_false, Option.not_isSome_iff_eq_none,
          List.contains_iff_mem] at hfault
        obtain ⟨hin, hdetached, hapart, -⟩ := hfault
        exact ⟨⟨k, hk, .inr ⟨hp, hin⟩⟩, hdetached, hapart⟩
      · cases hfault

section Attach

variable {parent child : NodeId}

theorem content?_attach (f : Forest) (parent child id : NodeId) :
    (f.attach parent child).content? id =
      if id = parent then (f.content? id).map (·.push child) else f.content? id := by
  rw [attach, content?_modify (·.push child), content?_setParent]

theorem parent?_attach (h : (f.content? child).isSome = true) (id : NodeId) :
    (f.attach parent child).parent? id = if id = child then some parent else f.parent? id := by
  rw [attach, parent?_modify (fun n => { n with content := n.content.push child })
    (fun _ => rfl), parent?_setParent _ _ _ _ h]

theorem nodeClass_push (x : Content) (c : NodeId) : (x.push c).nodeClass = x.nodeClass := by
  cases x <;> rfl

theorem attributes_push (x : Content) (c : NodeId) : (x.push c).attributes = x.attributes := by
  cases x <;> rfl

theorem class?_attach (f : Forest) (parent child id : NodeId) :
    (f.attach parent child).class? id = f.class? id := by
  rw [class?, content?_attach, class?]
  split
  · cases f.content? id with
    | none => rfl
    | some x => exact congrArg some (nodeClass_push x child)
  · rfl

theorem attributes_attach (f : Forest) (parent child id : NodeId) :
    (f.attach parent child).attributes id = f.attributes id := by
  rw [attributes, content?_attach, attributes]
  split
  · cases f.content? id with
    | none => rfl
    | some x => exact attributes_push x child
  · rfl

theorem attr?_attach (f : Forest) (parent child id : NodeId) :
    (f.attach parent child).attr? id = f.attr? id := by
  by_cases hid : id = parent
  · rw [attr?, content?_attach, if_pos hid, attr?]
    cases f.content? id with
    | none => rfl
    | some x => cases x <;> rfl
  · exact attr?_congr (by rw [content?_attach, if_neg hid])

namespace Appendable

theorem isSome (h : Appendable f parent child) : (f.content? child).isSome = true := by
  obtain ⟨k, hk, -⟩ := h.fits
  obtain ⟨x, hx, -⟩ := Option.map_eq_some_iff.1 hk
  rw [hx]
  rfl

theorem children_attach (h : Appendable f parent child) (id : NodeId) :
    (f.attach parent child).children id =
      if id = parent then f.children id ++ [child] else f.children id := by
  rw [children, content?_attach, children]
  split
  · next hid =>
    obtain ⟨k, -, hp⟩ := h.fits
    cases hx : f.content? id with
    | none =>
      rw [hid] at hx
      rw [class?, hx] at hp
      rcases hp with ⟨hp, -⟩ | ⟨hp, -⟩ <;> cases hp
    | some x =>
      rw [hid] at hx
      rw [class?_of_content? hx] at hp
      cases x with
      | document cs => rfl
      | element e => rfl
      | _ => rcases hp with ⟨hp, -⟩ | ⟨hp, -⟩ <;> cases hp
  · rfl

theorem not_mem_children (h : Appendable f parent child) (hf : WellFormed f) (p : NodeId) :
    child ∉ f.children p := fun hc => by
  cases h.detached.symm.trans (hf.parent_of_child hc)

theorem mem_children_attach (h : Appendable f parent child)
    (hc : c ∈ (f.attach parent child).children p) :
    c ∈ f.children p ∨ p = parent ∧ c = child := by
  rw [h.children_attach] at hc
  split at hc
  · next hp => exact (List.mem_append.1 hc).imp_right fun hc => ⟨hp, List.mem_singleton.1 hc⟩
  · exact .inl hc

theorem no_root (h : Appendable f parent child) (hp : f.class? parent = some .document)
    (hchild : f.class? child = some .element) (hc : c ∈ f.children parent) :
    f.class? c ≠ some .element := fun hce => by
  obtain ⟨k, hk, ⟨-, -, hroot⟩ | ⟨he, -⟩⟩ := h.fits
  · rw [hchild] at hk
    cases hk
    have := List.find?_eq_none.1 (hroot rfl) c hc
    rw [isElement, hce] at this
    exact this rfl
  · rw [hp] at he
    cases he

end Appendable

theorem mem_bindingsAt_attach {n : Namespace} (hn : n ∈ (f.attach parent child).bindingsAt id) :
    n ∈ f.bindingsAt id := by
  obtain ⟨e', he', -⟩ := mem_bindingsAt.1 hn
  have hattr (a : NodeId) (x : Attr) (hx : (f.attach parent child).attr? a = some x) :
      f.attr? a = some x := attr?_attach f parent child a ▸ hx
  have hc := he'
  rw [content?_attach] at hc
  split at hc
  · obtain ⟨x, hx, hpush⟩ := Option.map_eq_some_iff.1 hc
    cases x with
    | element e =>
      cases hpush
      exact (mem_bindingsAt_changed (fun _ => False) hx he' rfl (fun _ => .inl)
        (fun a ha x hx => .inl ⟨ha, hattr a x hx⟩) hn).resolve_right not_false
    | _ => cases hpush
  · exact (mem_bindingsAt_changed (fun _ => False) hc he' rfl (fun _ => .inl)
      (fun a ha x hx => .inl ⟨ha, hattr a x hx⟩) hn).resolve_right not_false

theorem WellFormed.attach (h : WellFormed f) (ha : Appendable f parent child) :
    WellFormed (f.attach parent child) where
  chains := by
    refine exists_chain (p := parent) child h.chains (fun id => ?_) fun l hl => ?_
    · rw [parent?_attach ha.isSome]
      split
      · next hid => exact .inr (.inr ⟨hid, rfl⟩)
      · exact .inl rfl
    · rw [hl.unique (h.chain parent)]
      exact ha.apart
  parent_of_child {p c} hc := by
    rw [parent?_attach ha.isSome]
    rcases ha.mem_children_attach hc with hc | ⟨rfl, rfl⟩
    · rw [if_neg (ne_of_mem_of_not_mem hc (ha.not_mem_children h p)), h.parent_of_child hc]
    · rw [if_pos rfl]
  parent_of_attribute {p a} hm := by
    rw [attributes_attach] at hm
    have hp := h.parent_of_attribute hm
    rw [parent?_attach ha.isSome, if_neg (by rintro rfl; cases ha.detached.symm.trans hp), hp]
  listed {p c} hp := by
    rw [parent?_attach ha.isSome] at hp
    rw [ha.children_attach, attributes_attach]
    split at hp
    · next hc =>
      cases hp
      rw [if_pos rfl, hc]
      exact .inl (List.mem_append_right _ (List.mem_singleton_self _))
    · refine (h.listed hp).imp_left fun hc => ?_
      split
      · exact List.mem_append_left _ hc
      · exact hc
  nodup_children p := by
    rw [ha.children_attach]
    split
    · rw [← List.concat_eq_append]
      exact (h.nodup_children p).concat (ha.not_mem_children h p)
    · exact h.nodup_children p
  nodup_attributes p := attributes_attach f parent child p ▸ h.nodup_attributes p
  class_of_child {p c} hc := by
    rw [class?_attach, class?_attach]
    rcases ha.mem_children_attach hc with hc | ⟨rfl, rfl⟩
    · exact h.class_of_child hc
    · obtain ⟨k, hk, ⟨hp, hin, -⟩ | ⟨hp, hin⟩⟩ := ha.fits
      · exact ⟨k, hk, fun _ => hin, fun he => nomatch hp.symm.trans he⟩
      · exact ⟨k, hk, fun hd => (nomatch hp.symm.trans hd), fun _ => hin⟩
  one_root {p c d} hp hc hd hce hde := by
    rw [class?_attach] at hp hce hde
    rcases ha.mem_children_attach hc, ha.mem_children_attach hd with
      ⟨hc' | ⟨rfl, rfl⟩, hd' | ⟨hpd, hdc⟩⟩
    · exact h.one_root hp hc' hd' hce hde
    · exact absurd hce (ha.no_root (hpd ▸ hp) (hdc ▸ hde) (hpd ▸ hc'))
    · exact absurd hde (ha.no_root hp hce hd')
    · exact hdc.symm
  attribute_data {p a} hm := by
    rw [attributes_attach] at hm
    rw [attr?_attach]
    exact h.attribute_data hm
  attribute_name {p a b x y} hm hm' hx hy := by
    rw [attributes_attach] at hm hm'
    rw [attr?_attach] at hx hy
    exact h.attribute_name hm hm' hx hy
  one_meaning hn hm := h.one_meaning (mem_bindingsAt_attach hn) (mem_bindingsAt_attach hm)

end Attach

end TreeQuery.Forest
