import Mathlib.Data.List.Perm.Subperm
import Mathlib.Data.List.TakeWhile
import TreeQuery.Proofs.Forest.Scope

/-!
# Introduced bindings

The bindings that an element introduces are the change from the scope around it to its own: put over
the scope around it they give its scope, and no fewer do (`Forest.introduced_change_scope`). So the
scope of an element is rebuilt from what is introduced on the way down to it.
-/

namespace TreeQuery

variable {n : Namespace} {inherited inherited' changes scope kept : List Namespace}

/-! ## Changes of bindings -/

/-- Bindings after others have been put over them. -/
def override (inherited changes : List Namespace) : List Namespace :=
  changes ++ inherited.filter fun m => changes.all (·.pfx != m.pfx)

theorem mem_override : n ∈ override inherited changes ↔
    n ∈ changes ∨ n ∈ inherited ∧ ∀ m ∈ changes, m.pfx ≠ n.pfx := by
  rw [override, List.mem_append, List.mem_filter, List.all_eq_true]
  simp only [bne_iff_ne]

theorem override_perm (h : inherited.Perm inherited') (changes : List Namespace) :
    (override inherited changes).Perm (override inherited' changes) :=
  (h.filter _).append_left changes

theorem nodup_override (hi : inherited.Nodup) (hc : changes.Nodup) :
    (override inherited changes).Nodup := by
  refine List.nodup_append'.2 ⟨hc, hi.filter _, fun n hn hm => ?_⟩
  exact bne_iff_ne.1 (List.all_eq_true.1 (List.mem_filter.1 hm).2 n hn) rfl

/-- The bindings of a scope that are not inherited change what is inherited into the scope, if the
scope binds all prefixes that are inherited. -/
theorem override_new_perm (hi : (inherited.map (·.pfx)).Nodup) (hs : (scope.map (·.pfx)).Nodup)
    (hbound : ∀ n ∈ inherited, ∃ m ∈ scope, m.pfx = n.pfx) :
    (override inherited (scope.filter fun n => !inherited.contains n)).Perm scope := by
  have hnew (m : Namespace) : m ∈ scope.filter (fun n => !inherited.contains n) ↔
      m ∈ scope ∧ m ∉ inherited := by
    simp [List.mem_filter]
  refine (List.perm_ext_iff_of_nodup ?_ hs.of_map).2 fun n => ?_
  · exact nodup_override hi.of_map (hs.of_map.filter _)
  rw [mem_override, hnew]
  constructor
  · rintro (⟨hn, -⟩ | ⟨hn, hfree⟩)
    · exact hn
    · obtain ⟨m, hm, hp⟩ := hbound n hn
      by_cases hmi : m ∈ inherited
      · rwa [← List.inj_on_of_nodup_map hi hmi hn hp]
      · exact absurd hp (hfree m ((hnew m).2 ⟨hm, hmi⟩))
  · intro hn
    by_cases hni : n ∈ inherited
    · refine .inr ⟨hni, fun m hm hp => ?_⟩
      obtain ⟨hm, hmi⟩ := (hnew m).1 hm
      exact hmi (List.inj_on_of_nodup_map hs hm hn hp ▸ hni)
    · exact .inl ⟨hn, hni⟩

/-- Fewer bindings do not change what is inherited into the scope. -/
theorem eq_of_subset_override (hs : scope.Nodup)
    (hkept : kept.Sublist (scope.filter fun n => !inherited.contains n))
    (h : ∀ n ∈ scope, n ∈ override inherited' kept) (hi : ∀ n ∈ inherited', n ∈ inherited) :
    kept = scope.filter fun n => !inherited.contains n := by
  refine hkept.eq_of_length_le ((hs.filter _).subperm fun n hn => ?_).length_le
  obtain ⟨hn, hni⟩ := List.mem_filter.1 hn
  refine (mem_override.1 (h n hn)).resolve_right fun hm => ?_
  simp [hi n hm.1] at hni

namespace Forest

variable {f : Forest} {id a p : NodeId} {e : ElementData}

/-! ## The way down to an element -/

/-- The bindings around an element: those in scope at its parent if that is an element. -/
def scopeAround (f : Forest) (id : NodeId) : List Namespace :=
  match f.parent? id with
  | some p => if f.isElement p then f.scope p else outerScope
  | none => outerScope

/-- What the elements of a chain change the outermost bindings to, the innermost element first. -/
def rebuild (changes : NodeId → List Namespace) (chain : List NodeId) : List Namespace :=
  chain.foldr (fun a around => override around (changes a)) outerScope

theorem WellFormed.scopeAround_eq (hf : f.WellFormed) (h : f.isElement id = true) :
    f.scopeAround id = f.inheritedScope id :=
  (hf.inheritedScope_eq h).symm

theorem not_inherited_of_introduced (hn : n ∈ f.introduced id) : n ∉ f.inheritedScope id := by
  have hnew := (List.mem_filter.1 hn).2
  rwa [Bool.not_eq_true', List.contains_eq_mem, decide_eq_false_iff_not] at hnew

theorem override_introduced_perm (he : f.content? id = some (.element e)) :
    (override (f.inheritedScope id) (f.introduced id)).Perm (f.scope id) := by
  refine override_new_perm (f.nodup_scopeOfChain _) (f.nodup_scope id) fun n hn => ?_
  rw [scope_eq he]
  exact exists_mem_extendScope_of_inherited _ hn

theorem rebuild_elementChain (changes : NodeId → List Namespace) (h : f.isElement id = true) :
    rebuild changes (f.elementChain id) =
      override (rebuild changes (f.elementChain id).tail) (changes id) := by
  rw [elementChain_of_element h]
  rfl

theorem rebuild_of_not_element (changes : NodeId → List Namespace) (h : f.isElement id = false) :
    rebuild changes (f.elementChain id) = f.scope id := by
  rw [elementChain_of_not_element h, scope_of_not_element h]
  rfl

/-- What is introduced from the top element down to an element makes up its scope. -/
theorem WellFormed.rebuild_introduced_perm (hf : f.WellFormed) (id : NodeId) :
    (rebuild f.introduced (f.elementChain id)).Perm (f.scope id) := by
  have hstep (id : NodeId) (h : f.isElement id = true)
      (haround : (rebuild f.introduced (f.elementChain id).tail).Perm (f.inheritedScope id)) :
      (rebuild f.introduced (f.elementChain id)).Perm (f.scope id) := by
    obtain ⟨e, he⟩ := exists_element (eq_of_beq h)
    rw [rebuild_elementChain _ h]
    exact (override_perm haround _).trans (override_introduced_perm he)
  induction id using hf.induction_down with
  | top id hp =>
    cases h : f.isElement id with
    | false => rw [rebuild_of_not_element _ h]
    | true =>
      refine hstep id h ?_
      rw [inheritedScope_of_top hp, elementChain, ancestors_of_top hp, List.takeWhile_cons_of_pos h]
      exact .refl _
  | below id p hp ih =>
    cases h : f.isElement id with
    | false => rw [rebuild_of_not_element _ h]
    | true =>
      refine hstep id h ?_
      rwa [hf.elementChain_of_parent h hp, hf.inheritedScope_of_parent h hp]

/-- The elements around an element go on as far as there are elements. -/
theorem WellFormed.mem_elementChain_of_parent (hf : f.WellFormed) (ha : a ∈ f.elementChain id)
    (hp : f.parent? a = some p) (h : f.isElement p = true) : p ∈ f.elementChain id := by
  have helement (id : NodeId) (ha : a ∈ f.elementChain id) : f.isElement id = true := by
    by_contra hid
    rw [elementChain_of_not_element (Bool.eq_false_iff.2 hid)] at ha
    cases ha
  induction id using hf.induction_down with
  | top id hid =>
    have hchain := ha
    rw [elementChain, ancestors_of_top hid, List.takeWhile_cons_of_pos (helement id ha)] at hchain
    rw [List.mem_singleton.1 hchain, hid] at hp
    cases hp
  | below id q hq ih =>
    have hid := helement id ha
    rw [elementChain_of_element hid, hf.elementChain_of_parent hid hq, List.mem_cons] at ha ⊢
    rcases ha with rfl | ha
    · cases hq.symm.trans hp
      rw [elementChain_of_element h]
      exact .inr List.mem_cons_self
    · exact .inr (ih ha)

/-- Where fewer bindings rebuild the scopes on the way down to an element they are all that are
introduced. -/
theorem WellFormed.kept_eq_introduced (hf : f.WellFormed) {kept : NodeId → List Namespace}
    (hkept : ∀ a ∈ f.elementChain id, (kept a).Sublist (f.introduced a))
    (hscope : ∀ a ∈ f.elementChain id, ∀ n, n ∈ rebuild kept (f.elementChain a) ↔ n ∈ f.scope a)
    (ha : a ∈ f.elementChain id) : kept a = f.introduced a := by
  have helement : f.isElement a = true := List.mem_takeWhile_imp ha
  have haround : ∀ n ∈ rebuild kept (f.elementChain a).tail, n ∈ f.inheritedScope a := by
    intro n hn
    rcases hf.inherited_cases helement with ⟨htail, hinherited⟩ | ⟨p, hp, htail, hinherited⟩
    · rw [htail] at hn
      rwa [hinherited]
    · rw [htail] at hn
      rw [hinherited]
      cases hparent : f.isElement p with
      | true => exact (hscope p (hf.mem_elementChain_of_parent ha hp hparent) n).1 hn
      | false => rwa [rebuild_of_not_element kept hparent] at hn
  have hall : ∀ n ∈ f.scope a, n ∈ override (rebuild kept (f.elementChain a).tail) (kept a) := by
    intro n hn
    rw [← rebuild_elementChain kept helement]
    exact (hscope a ha n).2 hn
  exact eq_of_subset_override (f.nodup_scope a).of_map (hkept a ha) hall haround

/-- What an element introduces is the change from the bindings around it to those in its scope: each
prefix once, nothing that is there already, and nothing that could be left out. -/
structure ScopeChange (f : Forest) (id : NodeId) : Prop where
  changed : (override (f.scopeAround id) (f.introduced id)).Perm (f.scope id)
  fresh : ∀ n ∈ f.introduced id, n ∉ f.scopeAround id
  once : ((f.introduced id).map (·.pfx)).Nodup
  least : ∀ kept : List Namespace, kept.Sublist (f.introduced id) →
    (∀ n ∈ f.scope id, n ∈ override (f.scopeAround id) kept) → kept = f.introduced id
  rebuilt : (rebuild f.introduced (f.elementChain id)).Perm (f.scope id)
  all_needed : ∀ kept : NodeId → List Namespace,
    (∀ a ∈ f.elementChain id, (kept a).Sublist (f.introduced a)) →
    (∀ a ∈ f.elementChain id, ∀ n, n ∈ rebuild kept (f.elementChain a) ↔ n ∈ f.scope a) →
    ∀ a ∈ f.elementChain id, kept a = f.introduced a

/-- In every forest that is built the bindings that an element introduces are the change of scope
that it makes. -/
theorem introduced_change_scope (hf : f.Built) (he : f.content? id = some (.element e)) :
    f.ScopeChange id := by
  have hwf := hf.wellFormed
  have haround := hwf.scopeAround_eq (isElement_of_content? he)
  refine ⟨?_, ?_, f.nodup_introduced id, ?_, hwf.rebuild_introduced_perm id,
    fun kept hkept hscope a ha => hwf.kept_eq_introduced hkept hscope ha⟩
  · rw [haround]
    exact override_introduced_perm he
  · rw [haround]
    exact fun n => not_inherited_of_introduced
  · rw [haround]
    exact fun kept hkept hall =>
      eq_of_subset_override (f.nodup_scope id).of_map hkept hall fun n hn => hn

/-- An element in a default namespace that binds two prefixes, with one in no namespace in it that
binds one of them again and the other one anew. -/
def redeclared : Forest :=
  ⟨#[⟨none, .element ⟨"a", ⟨"", "urn:a", by decide, by decide, by decide⟩,
      [⟨"q", "urn:q", by decide, by decide, by decide⟩,
        ⟨"p", "urn:p", by decide, by decide, by decide⟩], [], [1]⟩⟩,
    ⟨some 0, .element ⟨"b", Namespace.none,
      [⟨"q", "urn:q", by decide, by decide, by decide⟩,
        ⟨"p", "urn:other", by decide, by decide, by decide⟩], [], []⟩⟩]⟩

/-- What is bound again introduces nothing. A prefix that is bound anew and the lack of a default
namespace are introduced. -/
theorem introduced_change_scope_redeclared :
    let d : Namespace := ⟨"", "urn:a", by decide, by decide, by decide⟩
    let q : Namespace := ⟨"q", "urn:q", by decide, by decide, by decide⟩
    let p : Namespace := ⟨"p", "urn:p", by decide, by decide, by decide⟩
    let p' : Namespace := ⟨"p", "urn:other", by decide, by decide, by decide⟩
    redeclared.Built ∧
      redeclared.content? 1 = some (.element ⟨"b", Namespace.none, [q, p'], [], []⟩) ∧
      redeclared.introduced 0 = [d, q, p] ∧ redeclared.introduced 1 = [Namespace.none, p'] ∧
      redeclared.ScopeChange 1 := by
  intro d q p p'
  have hbuilt : redeclared.Built := by
    have h := Forest.Built.element .empty
      (rfl : Forest.newElement _ (some "a") d = .ok (_, 0))
    have h := h.element (rfl : Forest.newElement _ (some "b") Namespace.none = .ok (_, 1))
    have h := h.declare (rfl : Forest.declare _ 0 q = .ok _)
    have h := h.declare (rfl : Forest.declare _ 0 p = .ok _)
    have h := h.declare (rfl : Forest.declare _ 1 q = .ok _)
    have h := h.declare (rfl : Forest.declare _ 1 p' = .ok _)
    have h := h.extend 0 [.node 1]
    cbv at h
    exact h
  have helement : redeclared.content? 1 =
      some (.element ⟨"b", Namespace.none, [q, p'], [], []⟩) := rfl
  exact ⟨hbuilt, helement, by decide, by decide, introduced_change_scope hbuilt helement⟩

end Forest

end TreeQuery
