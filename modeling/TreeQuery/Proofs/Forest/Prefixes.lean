import TreeQuery.Proofs.Forest.Calls
import TreeQuery.Proofs.Forest.Nearest

/-!
# Prefixes of an element

An element binds a prefix by its own namespace, by a declaration or by an attribute that has the
prefix. Whatever is declared on it and set on it, in any order and with calls that fail in between,
no prefix has two meanings on it. So all that it binds is in its scope, whatever is bound around it
(`prefixes_unambiguous`).
-/

namespace TreeQuery.Forest

variable {f : Forest} {id : NodeId} {e : ElementData} {n : Namespace}

/-! ## Edits of an element -/

/-- What can be done to the namespaces and attributes of an element. -/
inductive Edit where
  | declare (ns : Namespace)
  | setAttribute (name : Option String) (value : Value) (ns : Namespace)

/-- The call that makes an edit of an element. -/
def Edit.on (id : NodeId) : Edit → Call
  | declare ns => .declare id ns
  | setAttribute name value ns => .setAttribute id name value ns

/-- The forest after several edits of one element, those that failed included. -/
def edited (f : Forest) (id : NodeId) (edits : List Edit) : Forest :=
  f.performAll (edits.map (·.on id))

theorem Built.edited (hf : f.Built) (id : NodeId) (edits : List Edit) : (f.edited id edits).Built :=
  hf.performAll _

theorem perform_edit_of_fault {edit : Edit} {fault : Failure}
    (h : (f.perform (edit.on id)).2 = some fault) : (f.perform (edit.on id)).1 = f :=
  perform_of_fault (by cases edit <;> nofun) h

/-- An edit leaves an element its name, its own namespace and its children. -/
theorem perform_edit (he : f.content? id = some (.element e)) (edit : Edit) :
    ∃ declared attributes, (f.perform (edit.on id)).1.content? id =
      some (.element { e with declared, attributes }) := by
  cases edit with
  | declare ns =>
    rw [Edit.on, perform]
    cases hg : f.declare id ns with
    | error fault => exact ⟨_, _, he⟩
    | ok g =>
      obtain ⟨e', he', -, rfl⟩ := declare_eq_ok_iff.1 hg
      cases he.symm.trans he'
      refine ⟨declaredWith ns e.declared, e.attributes, ?_⟩
      exact (content?_setContent he _ id).trans (if_pos rfl)
  | setAttribute name value ns =>
    rw [Edit.on, perform]
    cases hg : f.setAttribute id name value ns with
    | error fault => exact ⟨_, _, he⟩
    | ok r =>
      obtain ⟨e', x, -, -, -, -, hs⟩ := setAttribute_eq_ok hg
      cases he.symm.trans hs.element
      exact ⟨_, _, hs.content?_element⟩

theorem content?_edited (he : f.content? id = some (.element e)) (edits : List Edit) :
    ∃ declared attributes, (f.edited id edits).content? id =
      some (.element { e with declared, attributes }) := by
  induction edits generalizing f e with
  | nil => exact ⟨_, _, he⟩
  | cons edit edits ih =>
    obtain ⟨_, _, he⟩ := perform_edit he edit
    have hrest := ih he
    exact hrest

/-! ## Meanings -/

/-- On an element every prefix has one meaning, which is that of the prefix in scope. -/
structure OneMeaning (f : Forest) (id : NodeId) (e : ElementData) : Prop where
  unique : ∀ n m, f.Binds id n → f.Binds id m → n.pfx = m.pfx → n = m
  in_scope : ∀ n, f.Binds id n → n ∈ f.scope id
  own : f.namespaceOf? id e.ns.pfx = some e.ns
  declared : ∀ n ∈ e.declared, f.namespaceOf? id n.pfx = some n
  prefixed : ∀ a ∈ e.attributes, ∃ x, f.attr? a = some x ∧
    (x.ns.pfx ≠ "" → f.namespaceOf? id x.ns.pfx = some x.ns)

theorem WellFormed.namespaceOf?_of_binds (hf : f.WellFormed)
    (he : f.content? id = some (.element e)) (hn : f.Binds id n) :
    f.namespaceOf? id n.pfx = some n :=
  namespaceOf?_eq_some.2 ⟨hf.mem_scope_of_own he ((binds_iff he).1 hn), rfl⟩

theorem WellFormed.oneMeaning (hf : f.WellFormed) (he : f.content? id = some (.element e)) :
    f.OneMeaning id e where
  unique _ _ hn hm hp := hf.bindOnce_bindings he ((binds_iff he).1 hn) ((binds_iff he).1 hm) hp
  in_scope _ hn := hf.mem_scope_of_own he ((binds_iff he).1 hn)
  own := hf.namespaceOf?_of_binds he (.own he rfl)
  declared _ hn := hf.namespaceOf?_of_binds he (.declared he hn)
  prefixed a ha := by
    obtain ⟨x, hx, -⟩ := hf.attribute_data (mem_attributes he ha)
    refine ⟨x, hx, fun hp => ?_⟩
    exact hf.namespaceOf?_of_binds he (.attribute he ha (content?_of_attr? hx).2 hp)

/-- Whatever is declared and set on an element, it keeps its own namespace, and on it every prefix
has one meaning. What is refused changes nothing. -/
theorem prefixes_unambiguous (hf : f.Built) (he : f.content? id = some (.element e))
    (edits : List Edit) :
    let g := f.edited id edits
    (∃ e', g.content? id = some (.element e') ∧ e'.name = e.name ∧ e'.ns = e.ns ∧
        g.OneMeaning id e') ∧
      ∀ (edit : Edit) (fault : Failure), (g.perform (edit.on id)).2 = some fault →
        (g.perform (edit.on id)).1 = g := by
  intro g
  obtain ⟨_, _, he'⟩ := content?_edited he edits
  have hg : g.WellFormed := (hf.edited id edits).wellFormed
  exact ⟨⟨_, he', rfl, rfl, hg.oneMeaning he'⟩, fun _ _ => perform_edit_of_fault⟩

/-- An element within one that binds the prefix `q`. -/
def nestedPrefix : Forest :=
  ⟨#[⟨none, .element ⟨"a", Namespace.none, [⟨"q", "u", by decide, by decide, by decide⟩], [], [1]⟩⟩,
    ⟨some 0, .element ⟨"b", ⟨"p", "v", by decide, by decide, by decide⟩, [], [], []⟩⟩]⟩

/-- Edits of the inner element, of which the second is refused and the third replaces the first. -/
def prefixEdits : List Edit :=
  let r : Namespace := ⟨"q", "w", by decide, by decide, by decide⟩
  [.setAttribute (some "x") (.text "1") r,
    .declare ⟨"q", "u", by decide, by decide, by decide⟩,
    .setAttribute (some "x") (.text "2") r]

/-- An attribute binds a prefix that is bound around its element, and then the element can not take
over the binding from around. -/
theorem prefixes_unambiguous_shadowed :
    let p : Namespace := ⟨"p", "v", by decide, by decide, by decide⟩
    let q : Namespace := ⟨"q", "u", by decide, by decide, by decide⟩
    let r : Namespace := ⟨"q", "w", by decide, by decide, by decide⟩
    let g := nestedPrefix.edited 1 prefixEdits
    nestedPrefix.Built ∧ nestedPrefix.content? 1 = some (.element ⟨"b", p, [], [], []⟩) ∧
      g.scope 1 = [p, r, Namespace.none, Namespace.xml] ∧ g.OneMeaning 1 ⟨"b", p, [], [3], []⟩ ∧
      (g.perform (.declare 1 q)).1 = g := by
  intro p q r g
  have hbuilt : nestedPrefix.Built := by
    have h := Forest.Built.element .empty
      (rfl : Forest.newElement _ (some "a") Namespace.none = .ok (_, 0))
    have h := h.element (rfl : Forest.newElement _ (some "b") p = .ok (_, 1))
    have h := h.declare (rfl : Forest.declare _ 0 q = .ok _)
    have h := h.extend 0 [.node 1]
    cbv at h
    exact h
  have helement : nestedPrefix.content? 1 = some (.element ⟨"b", p, [], [], []⟩) := rfl
  have hedited : g.content? 1 = some (.element ⟨"b", p, [], [3], []⟩) := rfl
  obtain ⟨⟨e, he, -, -, hmeaning⟩, hrefused⟩ := prefixes_unambiguous hbuilt helement prefixEdits
  have hdata := Content.element.inj (Option.some.inj (hedited.symm.trans he))
  refine ⟨hbuilt, helement, by decide, hdata ▸ hmeaning, ?_⟩
  exact hrefused (.declare q) (.prefixTaken "q" "w" "p:b") rfl

end TreeQuery.Forest
