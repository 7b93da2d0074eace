import TreeQuery.Forest.Navigate
import TreeQuery.Proofs.Forest.Scope

/-!
# The nearest bindings

Whatever an element binds, it binds once, and what it binds hides what is bound further out. So the
scope of an element holds for every prefix the nearest binding on the way up from the element
(`Forest.scope_nearest`). Outside of all elements there are `xml` and the lack of a default
namespace.
-/

namespace TreeQuery.Forest

variable {f : Forest} {id a p : NodeId} {e : ElementData} {n : Namespace}
  {chain before after : List NodeId}

/-! ## Bindings along a chain -/

/-- An element binds a prefix by its own namespace, by a declaration or by an attribute that has a
prefix. -/
inductive Binds (f : Forest) (id : NodeId) (n : Namespace) : Prop where
  | own {e : ElementData} : f.content? id = some (.element e) → n = e.ns → Binds f id n
  | declared {e : ElementData} : f.content? id = some (.element e) → n ∈ e.declared → Binds f id n
  | attribute {e : ElementData} {a : NodeId} {name value : String} :
      f.content? id = some (.element e) → a ∈ e.attributes →
      f.content? a = some (.attr name value n) → n.pfx ≠ "" → Binds f id n

/-- None of some nodes binds a prefix. -/
def Unbound (f : Forest) (pfx : String) (ids : List NodeId) : Prop :=
  ∀ a ∈ ids, ∀ n, f.Binds a n → n.pfx ≠ pfx

/-- The nearest node of a chain that binds the prefix of `n` binds it to `n`; or no node does, and
`n` is there without being bound. -/
def ResolvesTo (f : Forest) (chain : List NodeId) (n : Namespace) : Prop :=
  (∃ before a after, chain = before ++ a :: after ∧ f.Binds a n ∧ f.Unbound n.pfx before) ∨
    (n = Namespace.xml ∨ n = Namespace.none) ∧ f.Unbound n.pfx chain

theorem binds_iff (he : f.content? id = some (.element e)) : f.Binds id n ↔ n ∈ f.bindings e := by
  have hsame {e' : ElementData} (he' : f.content? id = some (.element e')) : e' = e := by
    cases he.symm.trans he'
    rfl
  rw [mem_bindings]
  constructor
  · rintro (⟨he', hn⟩ | ⟨he', hn⟩ | ⟨he', ha, hx, hne⟩)
    · exact .inl (hsame he' ▸ hn)
    · exact .inr (.inl (hsame he' ▸ hn))
    · exact .inr (.inr ⟨_, hsame he' ▸ ha, ⟨_, _, _, n⟩, by rw [attr?, hx], rfl, hne⟩)
  · rintro (hn | hn | ⟨a, ha, x, hx, rfl, hne⟩)
    · exact .own he hn
    · exact .declared he hn
    · exact .attribute he ha (content?_of_attr? hx).2 hne

theorem not_binds (h : f.isElement id = false) : ¬ f.Binds id n := by
  rintro (⟨he, -⟩ | ⟨he, -⟩ | ⟨he, -⟩) <;> rw [isElement_of_content? he] at h <;> cases h

theorem unbound_cons {pfx : String} :
    f.Unbound pfx (a :: chain) ↔ (∀ n, f.Binds a n → n.pfx ≠ pfx) ∧ f.Unbound pfx chain :=
  List.forall_mem_cons

theorem resolvesTo_nil : f.ResolvesTo [] n ↔ n ∈ outerScope := by
  rw [outerScope, List.mem_pair]
  refine ⟨?_, fun h => .inr ⟨h, nofun⟩⟩
  rintro (⟨before, a, after, h, -⟩ | ⟨h, -⟩)
  · cases before <;> cases h
  · exact h

theorem resolvesTo_cons : f.ResolvesTo (a :: chain) n ↔
    f.Binds a n ∨ (∀ m, f.Binds a m → m.pfx ≠ n.pfx) ∧ f.ResolvesTo chain n := by
  constructor
  · rintro (⟨before, b, after, h, hb, hu⟩ | ⟨hn, hu⟩)
    · cases before with
      | nil =>
        cases h
        exact .inl hb
      | cons c before =>
        cases h
        obtain ⟨hc, hu⟩ := unbound_cons.1 hu
        exact .inr ⟨hc, .inl ⟨before, b, after, rfl, hb, hu⟩⟩
    · obtain ⟨ha, hu⟩ := unbound_cons.1 hu
      exact .inr ⟨ha, .inr ⟨hn, hu⟩⟩
  · rintro (ha | ⟨ha, ⟨before, b, after, rfl, hb, hu⟩ | ⟨hn, hu⟩⟩)
    · exact .inl ⟨[], a, chain, rfl, ha, nofun⟩
    · exact .inl ⟨a :: before, b, after, rfl, hb, unbound_cons.2 ⟨ha, hu⟩⟩
    · exact .inr ⟨hn, unbound_cons.2 ⟨ha, hu⟩⟩

theorem resolvesTo_cons_of_not_element (h : f.isElement a = false) :
    f.ResolvesTo (a :: chain) n ↔ f.ResolvesTo chain n := by
  rw [resolvesTo_cons, or_iff_right (not_binds h)]
  exact and_iff_right fun m hm => absurd hm (not_binds h)

/-! ## Scopes -/

/-- If an element inherits what the prefixes along a chain resolve to, the same is true of its scope
and the chain with the element in front. -/
theorem mem_scope_step (hf : f.WellFormed) (he : f.content? id = some (.element e))
    (h : n ∈ f.inheritedScope id ↔ f.ResolvesTo chain n) :
    n ∈ f.scope id ↔ f.ResolvesTo (id :: chain) n := by
  have hinherited : BindOnce (f.inheritedScope id) := f.bindOnce_scopeOfChain _
  rw [scope_eq he, mem_extendScope_iff (hf.bindOnce_bindings he) hinherited, resolvesTo_cons, ← h]
  simp only [binds_iff he]

/-- The parent of an element that is none itself is a document, with nothing around it. -/
theorem WellFormed.ancestors_of_not_element (hf : f.WellFormed) (h : f.isElement id = true)
    (hp : f.parent? id = some p) (hparent : f.isElement p = false) : f.ancestors p = [] := by
  have hattr : f.class? id ≠ some .attr := fun ha => by
    cases (eq_of_beq h).symm.trans ha
  rcases class?_of_mem_children (hf.mem_children hp hattr) with hd | he
  · exact ancestors_of_top (hf.parent?_of_document hd)
  · rw [isElement, he] at hparent
    cases hparent

/-- Every binding in scope is the nearest one of its prefix. -/
theorem WellFormed.mem_scope_iff (hf : f.WellFormed) (h : f.isElement id = true) :
    n ∈ f.scope id ↔ f.ResolvesTo (id :: f.ancestors id) n := by
  -- The scope stops at the first parent that is no element, the chain goes on; only a document can
  -- be there, and it binds nothing.
  induction id using hf.induction_down with
  | top id hp =>
    obtain ⟨e, he⟩ := exists_element (eq_of_beq h)
    refine mem_scope_step hf he ?_
    rw [inheritedScope_of_top hp, ancestors_of_top hp, resolvesTo_nil]
  | below id p hp ih =>
    obtain ⟨e, he⟩ := exists_element (eq_of_beq h)
    refine mem_scope_step hf he ?_
    rw [hf.inheritedScope_of_parent h hp, hf.ancestors_of_parent hp]
    cases hparent : f.isElement p with
    | true => exact ih hparent
    | false =>
      rw [resolvesTo_cons_of_not_element hparent, hf.ancestors_of_not_element h hp hparent,
        resolvesTo_nil, scope_of_not_element hparent]

/-- The scope of an element is made of the nearest bindings: its own, in order, and then those that
it does not hide. -/
structure NearestScope (f : Forest) (id : NodeId) (e : ElementData) : Prop where
  once : ((f.scope id).map (·.pfx)).Nodup
  mem_iff : ∀ n, n ∈ f.scope id ↔ f.ResolvesTo (id :: f.ancestors id) n
  xml : Namespace.xml ∈ f.scope id
  own_first : ∃ rest, f.scope id = (f.bindings e).eraseDups ++ rest ∧
    ∀ n ∈ rest, f.Unbound n.pfx [id]
  namespaceOf? : ∀ p n, f.namespaceOf? id p = some n ↔
    n.pfx = p ∧ f.ResolvesTo (id :: f.ancestors id) n
  namespacesOf : f.namespacesOf (.node id) =
    ((f.scope id).erase Namespace.none).map fun n => .nsNode n (some id)

theorem WellFormed.own_first (hf : f.WellFormed) (he : f.content? id = some (.element e)) :
    ∃ rest, f.scope id = (f.bindings e).eraseDups ++ rest ∧ ∀ n ∈ rest, f.Unbound n.pfx [id] := by
  have hscope := scope_eq he
  rw [extendScope, firstBindings_append,
    firstBindings_eq_eraseDups (hf.bindOnce_bindings he)] at hscope
  refine ⟨_, hscope, fun n hn => List.forall_mem_singleton.2 fun m hm => ?_⟩
  exact bne_iff_ne.1 (List.all_eq_true.1 (List.mem_filter.1 hn).2 m ((binds_iff he).1 hm))

/-- In every forest that is built the scope of every element is made of the nearest bindings. -/
theorem scope_nearest (hf : f.Built) (he : f.content? id = some (.element e)) :
    f.NearestScope id e := by
  have helement := isElement_of_content? he
  have hmem (n : Namespace) := hf.wellFormed.mem_scope_iff (n := n) helement
  refine ⟨f.nodup_scope id, hmem, f.xml_mem_scope id, hf.wellFormed.own_first he, fun p n => ?_, ?_⟩
  · rw [namespaceOf?_eq_some, hmem, and_comm]
  · rw [Forest.namespacesOf, if_pos helement, (f.nodup_scope id).of_map.erase_eq_filter]

/-- An element in no namespace takes back the default namespace, and below it an attribute binds a
prefix again. -/
theorem scope_nearest_shadowed :
    let d : Namespace := ⟨"", "urn:d", by decide, by decide, by decide⟩
    let q : Namespace := ⟨"q", "urn:q", by decide, by decide, by decide⟩
    let q' : Namespace := ⟨"q", "urn:r", by decide, by decide, by decide⟩
    let p : Namespace := ⟨"p", "urn:p", by decide, by decide, by decide⟩
    let e : ElementData := ⟨"c", p, [], [3], []⟩
    let f : Forest := ⟨#[⟨none, .element ⟨"a", d, [q], [], [1]⟩⟩,
      ⟨some 0, .element ⟨"b", Namespace.none, [], [], [2]⟩⟩, ⟨some 1, .element e⟩,
      ⟨some 2, .attr "x" "v" q'⟩]⟩
    f.Built ∧ f.content? 2 = some (.element e) ∧
      f.scope 2 = [p, q', Namespace.none, Namespace.xml] ∧ f.NearestScope 2 e := by
  intro d q q' p e f
  have hbuilt : f.Built := by
    have h := Forest.Built.element .empty
      (rfl : Forest.newElement _ (some "a") d = .ok (_, 0))
    have h := h.element (rfl : Forest.newElement _ (some "b") Namespace.none = .ok (_, 1))
    have h := h.element (rfl : Forest.newElement _ (some "c") p = .ok (_, 2))
    have h := h.setAttribute
      (rfl : Forest.setAttribute _ 2 (some "x") (.text "v") q' = .ok (_, 3))
    have h := h.declare (rfl : Forest.declare _ 0 q = .ok _)
    have h := (h.extend 0 [.node 1]).extend 1 [.node 2]
    cbv at h
    exact h
  exact ⟨hbuilt, rfl, by decide, scope_nearest hbuilt rfl⟩

end TreeQuery.Forest
