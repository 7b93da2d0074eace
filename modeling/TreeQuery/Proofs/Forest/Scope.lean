import Mathlib.Data.List.Induction
import TreeQuery.Forest.Scope
import TreeQuery.Proofs.Forest.Reading

/-!
# Scopes

A scope binds every prefix once: it holds the bindings that are found first
(`mem_firstBindings_iff`). An element's own bindings come before those that it inherits from the
element around it (`Forest.scope_eq`), so all of them are in its scope
(`Forest.WellFormed.mem_scope_of_own`), and no prefix is lost on the way down.
-/

namespace TreeQuery

variable {n : Namespace} {l inherited own : List Namespace}

theorem mem_of_mem_firstBindings (h : n ∈ firstBindings l) : n ∈ l := by
  induction l with
  | nil => exact h
  | cons m l ih =>
    rcases List.mem_cons.1 h with rfl | h
    · exact List.mem_cons_self
    · exact List.mem_cons_of_mem _ (ih (List.mem_of_mem_filter h))

theorem mem_firstBindings_iff : n ∈ firstBindings l ↔ l.find? (·.pfx == n.pfx) = some n := by
  induction l with
  | nil => simp [firstBindings]
  | cons m l ih =>
    rw [firstBindings, List.mem_cons, List.mem_filter, ih, List.find?_cons]
    by_cases hp : m.pfx = n.pfx
    · rw [beq_iff_eq.2 hp, hp]
      simp [eq_comm]
    · rw [beq_false_of_ne hp]
      have hne : n ≠ m := fun he => hp (he ▸ rfl)
      simp [hne, Ne.symm hp]

theorem mem_of_find?_pfx {p : String} (h : l.find? (·.pfx == p) = some n) : n ∈ l ∧ n.pfx = p :=
  ⟨List.mem_of_find?_eq_some h, by simpa using List.find?_some h⟩

theorem exists_find?_pfx (h : n ∈ l) :
    ∃ m, l.find? (·.pfx == n.pfx) = some m ∧ m ∈ l ∧ m.pfx = n.pfx := by
  cases hm : l.find? (·.pfx == n.pfx) with
  | none => exact absurd (beq_iff_eq.2 rfl) (List.find?_eq_none.1 hm n h)
  | some m => exact ⟨m, rfl, mem_of_find?_pfx hm⟩

/-- No prefix is lost. -/
theorem exists_mem_firstBindings (h : n ∈ l) : ∃ m ∈ firstBindings l, m.pfx = n.pfx := by
  obtain ⟨m, hm, -, hp⟩ := exists_find?_pfx h
  exact ⟨m, mem_firstBindings_iff.2 (hp ▸ hm), hp⟩

theorem mem_own_of_introduced (h : n ∈ extendScope inherited own) (hn : n ∉ inherited) :
    n ∈ own :=
  (List.mem_append.1 (mem_of_mem_firstBindings h)).resolve_right hn

/-- Bindings of which no two bind one prefix. -/
def BindOnce (l : List Namespace) : Prop :=
  ∀ {n m}, n ∈ l → m ∈ l → n.pfx = m.pfx → n = m

theorem nodup_firstBindings (l : List Namespace) : ((firstBindings l).map (·.pfx)).Nodup := by
  induction l with
  | nil => exact List.nodup_nil
  | cons n l ih =>
    rw [firstBindings, List.map_cons, List.nodup_cons, List.mem_map]
    refine ⟨fun ⟨m, hm, hp⟩ => ?_, ih.sublist (List.filter_sublist.map _)⟩
    exact bne_iff_ne.1 (List.mem_filter.1 hm).2 hp

theorem mem_firstBindings_of_bindOnce (h : BindOnce l) : n ∈ firstBindings l ↔ n ∈ l := by
  refine ⟨mem_of_mem_firstBindings, fun hn => ?_⟩
  obtain ⟨m, hm, hp⟩ := exists_mem_firstBindings hn
  rwa [← h (mem_of_mem_firstBindings hm) hn hp]

/-- What comes later is kept if its prefix is not bound before. -/
theorem firstBindings_append (l l' : List Namespace) : firstBindings (l ++ l') =
    firstBindings l ++ (firstBindings l').filter fun n => l.all (·.pfx != n.pfx) := by
  induction l with
  | nil => simp [firstBindings]
  | cons m l ih =>
    rw [List.cons_append, firstBindings, ih, firstBindings, List.filter_append, List.filter_filter,
      List.cons_append]
    simp only [List.all_cons, bne_comm]

theorem eraseDups_append_singleton {α : Type} [BEq α] [LawfulBEq α] (l : List α) (a : α) :
    (l ++ [a]).eraseDups = if a ∈ l then l.eraseDups else l.eraseDups ++ [a] := by
  rw [List.eraseDups_append, List.removeAll, List.filter_cons, List.filter_nil]
  by_cases ha : a ∈ l
  · simp [ha]
  · simp [ha, List.eraseDups_cons]

/-- Where no prefix is bound in two ways nothing but repetitions is dropped. -/
theorem firstBindings_eq_eraseDups (h : BindOnce l) : firstBindings l = l.eraseDups := by
  induction l using List.reverseRecOn with
  | nil => rfl
  | append_singleton l n ih =>
    have hl : BindOnce l := fun hm hm' =>
      h (List.mem_append_left _ hm) (List.mem_append_left _ hm')
    have hn : l.all (·.pfx != n.pfx) = true ↔ n ∉ l := by
      rw [List.all_eq_true]
      refine ⟨fun hall hm => bne_iff_ne.1 (hall n hm) rfl, fun hn m hm => bne_iff_ne.2 fun hp => ?_⟩
      obtain rfl := h (List.mem_append_left _ hm) (List.mem_append_right _ (.head _)) hp
      exact hn hm
    rw [firstBindings_append, eraseDups_append_singleton, ih hl, firstBindings, firstBindings,
      List.filter_nil, List.filter_cons, List.filter_nil]
    by_cases hm : n ∈ l
    · rw [if_neg (mt hn.1 (not_not_intro hm)), if_pos hm, List.append_nil]
    · rw [if_pos (hn.2 hm), if_neg hm]

theorem mem_extendScope_of_own (ho : BindOnce own) (h : n ∈ own) :
    n ∈ extendScope inherited own := by
  rw [extendScope, mem_firstBindings_iff, List.find?_append]
  obtain ⟨m, hm, hmem, hp⟩ := exists_find?_pfx h
  rw [hm, ho hmem h hp]
  rfl

/-- What is bound around is bound unless it is bound again. -/
theorem mem_extendScope_iff (ho : BindOnce own) (hi : BindOnce inherited) :
    n ∈ extendScope inherited own ↔ n ∈ own ∨ (∀ m ∈ own, m.pfx ≠ n.pfx) ∧ n ∈ inherited := by
  rw [extendScope, firstBindings_append, List.mem_append, mem_firstBindings_of_bindOnce ho,
    List.mem_filter, mem_firstBindings_of_bindOnce hi, and_comm, List.all_eq_true]
  simp only [bne_iff_ne]

theorem exists_mem_extendScope_of_inherited (own : List Namespace) (h : n ∈ inherited) :
    ∃ m ∈ extendScope inherited own, m.pfx = n.pfx :=
  exists_mem_firstBindings (List.mem_append_right _ h)

namespace Forest

variable {f : Forest} {id p : NodeId} {e : ElementData}

/-! ## Scopes of elements -/

theorem elementChain_of_element (h : f.isElement id = true) :
    f.elementChain id = id :: (f.elementChain id).tail := by
  rw [elementChain, List.takeWhile_cons_of_pos h]
  rfl

theorem WellFormed.elementChain_of_parent (hf : f.WellFormed) (h : f.isElement id = true)
    (hp : f.parent? id = some p) : (f.elementChain id).tail = f.elementChain p := by
  rw [elementChain, List.takeWhile_cons_of_pos h, hf.ancestors_of_parent hp]
  rfl

theorem elementChain_of_not_element (h : f.isElement id = false) : f.elementChain id = [] := by
  rw [elementChain, List.takeWhile_cons_of_neg (by rw [h]; exact Bool.false_ne_true)]

theorem WellFormed.inheritedScope_of_parent (hf : f.WellFormed) (h : f.isElement id = true)
    (hp : f.parent? id = some p) : f.inheritedScope id = f.scope p := by
  rw [inheritedScope, hf.elementChain_of_parent h hp]
  rfl

theorem inheritedScope_of_top (hp : f.parent? id = none) : f.inheritedScope id = outerScope := by
  rw [inheritedScope, elementChain, ancestors_of_top hp, List.takeWhile_cons]
  split <;> rfl

theorem scope_of_not_element (h : f.isElement id = false) : f.scope id = outerScope := by
  rw [scope, elementChain_of_not_element h]
  rfl

theorem scope_eq (he : f.content? id = some (.element e)) :
    f.scope id = extendScope (f.inheritedScope id) (f.bindings e) := by
  have hdata : f.element? id = some e := by rw [element?, he]
  rw [scope, inheritedScope, elementChain_of_element (isElement_of_content? he), scopeOfChain,
    List.filterMap_cons_some hdata]
  rfl

theorem nodup_scopeOfChain (f : Forest) (chain : List NodeId) :
    ((f.scopeOfChain chain).map (·.pfx)).Nodup := by
  rw [scopeOfChain]
  cases chain.filterMap f.element? with
  | nil => exact List.nodup_cons.2 ⟨by decide, List.nodup_singleton _⟩
  | cons e es => exact nodup_firstBindings _

theorem bindOnce_scopeOfChain (f : Forest) (chain : List NodeId) :
    BindOnce (f.scopeOfChain chain) :=
  fun hn hm hp => List.inj_on_of_nodup_map (f.nodup_scopeOfChain chain) hn hm hp

theorem nodup_scope (f : Forest) (id : NodeId) : ((f.scope id).map (·.pfx)).Nodup :=
  f.nodup_scopeOfChain (f.elementChain id)

theorem bindOnce_scope (f : Forest) (id : NodeId) : BindOnce (f.scope id) :=
  f.bindOnce_scopeOfChain (f.elementChain id)

theorem WellFormed.bindOnce_bindings (hf : f.WellFormed)
    (he : f.content? id = some (.element e)) : BindOnce (f.bindings e) := fun hn hm hp => by
  rw [← bindingsAt_of_element he] at hn hm
  exact hf.one_meaning hn hm hp

theorem WellFormed.mem_scope_of_own {n : Namespace} (hf : f.WellFormed)
    (he : f.content? id = some (.element e)) (hn : n ∈ f.bindings e) : n ∈ f.scope id := by
  rw [scope_eq he]
  exact mem_extendScope_of_own (hf.bindOnce_bindings he) hn

/-- Whatever is bound around all elements is bound in every scope. -/
theorem exists_mem_scopeOfChain {n : Namespace} (chain : List NodeId) (hn : n ∈ outerScope) :
    ∃ m ∈ f.scopeOfChain chain, m.pfx = n.pfx := by
  rw [scopeOfChain]
  induction chain.filterMap f.element? with
  | nil => exact ⟨n, hn, rfl⟩
  | cons e es ih =>
    obtain ⟨m, hm, hp⟩ := ih
    rw [← hp]
    exact exists_mem_extendScope_of_inherited _ hm

/-- What an element inherits is in the scope of its parent; around the elements at the top nothing
but the outer scope is. -/
theorem WellFormed.inherited_cases (hf : f.WellFormed) (h : f.isElement id = true) :
    (f.elementChain id).tail = [] ∧ f.inheritedScope id = outerScope ∨
      ∃ p, f.parent? id = some p ∧ (f.elementChain id).tail = f.elementChain p ∧
        f.inheritedScope id = f.scope p := by
  cases hp : f.parent? id with
  | none =>
    have htail : (f.elementChain id).tail = [] := by
      rw [elementChain, List.takeWhile_cons_of_pos h, ancestors_of_top hp]
      rfl
    exact .inl ⟨htail, inheritedScope_of_top hp⟩
  | some p =>
    exact .inr ⟨p, rfl, hf.elementChain_of_parent h hp, hf.inheritedScope_of_parent h hp⟩

theorem WellFormed.inheritedScope_eq (hf : f.WellFormed) (h : f.isElement id = true) :
    f.inheritedScope id = match f.parent? id with
      | some p => if f.isElement p then f.scope p else outerScope
      | none => outerScope := by
  cases hp : f.parent? id with
  | none => exact inheritedScope_of_top hp
  | some p =>
    rw [hf.inheritedScope_of_parent h hp]
    cases hparent : f.isElement p with
    | true => simp [hparent]
    | false => simp [hparent, scope_of_not_element hparent]

theorem nodup_introduced (f : Forest) (id : NodeId) : ((f.introduced id).map (·.pfx)).Nodup :=
  (f.nodup_scope id).sublist (List.filter_sublist.map _)

theorem xml_mem_scope (f : Forest) (id : NodeId) : Namespace.xml ∈ f.scope id := by
  obtain ⟨m, hm, hp⟩ := exists_mem_scopeOfChain (n := Namespace.xml) (f := f) (f.elementChain id)
    List.mem_cons_self
  obtain rfl : m = Namespace.xml := Namespace.ext' hp (m.valid.xml.1 hp)
  exact hm

/-! ## Prefixes bound to URIs -/

/-- The URI that a prefix is bound to at an element. The default namespace is none if it is not
bound. -/
def uriOf? (f : Forest) (p : String) (id : NodeId) : Option String :=
  ((f.namespaceOf? id p).map (·.uri)).filter (· != "")

/-- The URI that a prefix is bound to at the nearest of some elements that bind it to one. -/
def nearestUri? (f : Forest) (p : String) (chain : List NodeId) : Option String :=
  chain.findSome? (f.uriOf? p)

theorem namespaceOf?_eq_some {p : String} {n : Namespace} :
    f.namespaceOf? id p = some n ↔ n ∈ f.scope id ∧ n.pfx = p := by
  constructor
  · exact mem_of_find?_pfx
  · rintro ⟨hn, rfl⟩
    obtain ⟨m, hm, hmem, hp⟩ := exists_find?_pfx hn
    rw [namespaceOf?, hm, f.bindOnce_scope id hmem hn hp]

theorem uriOf?_eq_some {p uri : String} :
    f.uriOf? p id = some uri ↔ ∃ n ∈ f.scope id, n.pfx = p ∧ n.uri = uri ∧ uri ≠ "" := by
  rw [uriOf?, Option.filter_eq_some_iff, Option.map_eq_some_iff, bne_iff_ne]
  simp only [namespaceOf?_eq_some]
  constructor
  · rintro ⟨⟨n, ⟨hn, hp⟩, rfl⟩, hne⟩
    exact ⟨n, hn, hp, rfl, hne⟩
  · rintro ⟨n, hn, hp, rfl, hne⟩
    exact ⟨⟨n, ⟨hn, hp⟩, rfl⟩, hne⟩

theorem uri_of_mem_outerScope {n : Namespace} (hn : n ∈ outerScope) (hx : n ≠ Namespace.xml) :
    n.uri = "" := by
  rw [List.mem_singleton.1 ((List.mem_cons.1 hn).resolve_left hx)]
  rfl

theorem nearestUri?_cons (f : Forest) (p : String) (id : NodeId) (chain : List NodeId) :
    f.nearestUri? p (id :: chain) = (f.uriOf? p id).or (f.nearestUri? p chain) := by
  rw [nearestUri?, List.findSome?_cons]
  cases f.uriOf? p id <;> rfl

theorem nearestUri?_elementChain (p : String) (h : f.isElement id = true) :
    f.nearestUri? p (f.elementChain id) =
      (f.uriOf? p id).or (f.nearestUri? p (f.elementChain id).tail) := by
  rw [← nearestUri?_cons, ← elementChain_of_element h]

theorem nearestUri?_of_mem_scope {n : Namespace} (hn : n ∈ f.scope id) (hu : n.uri ≠ "")
    (hx : n ≠ Namespace.xml) : f.nearestUri? n.pfx (f.elementChain id) = some n.uri := by
  cases h : f.isElement id with
  | true =>
    rw [nearestUri?_elementChain _ h, uriOf?_eq_some.2 ⟨n, hn, rfl, rfl, hu⟩]
    rfl
  | false =>
    rw [scope_of_not_element h] at hn
    exact absurd (uri_of_mem_outerScope hn hx) hu

theorem WellFormed.nearestUri?_of_inherited {n : Namespace} (hf : f.WellFormed)
    (h : f.isElement id = true) (hn : n ∈ f.inheritedScope id) (hu : n.uri ≠ "")
    (hx : n ≠ Namespace.xml) : f.nearestUri? n.pfx (f.elementChain id).tail = some n.uri := by
  rcases hf.inherited_cases h with ⟨-, hscope⟩ | ⟨p, -, htail, hscope⟩
  · rw [hscope] at hn
    exact absurd (uri_of_mem_outerScope hn hx) hu
  · rw [hscope] at hn
    rw [htail]
    exact nearestUri?_of_mem_scope hn hu hx

/-- A prefix that is bound above an element is bound at the element. -/
theorem WellFormed.mem_scope_of_nearestUri? {p uri : String} (hf : f.WellFormed)
    (h : f.nearestUri? p (f.elementChain id) = some uri) : ∃ n ∈ f.scope id, n.pfx = p := by
  induction id using hf.induction_down with
  | top id hp =>
    rw [elementChain, ancestors_of_top hp, nearestUri?] at h
    obtain ⟨a, ha, huri⟩ := List.exists_of_findSome?_eq_some h
    obtain rfl : a = id := List.mem_singleton.1 ((List.takeWhile_subset _) ha)
    obtain ⟨n, hn, hp, -⟩ := uriOf?_eq_some.1 huri
    exact ⟨n, hn, hp⟩
  | below id q hq ih =>
    cases helement : f.isElement id with
    | false =>
      rw [elementChain_of_not_element helement] at h
      cases h
    | true =>
      rw [nearestUri?_elementChain _ helement, Option.or_eq_some_iff,
        hf.elementChain_of_parent helement hq] at h
      rcases h with huri | ⟨-, h⟩
      · obtain ⟨n, hn, hp, -⟩ := uriOf?_eq_some.1 huri
        exact ⟨n, hn, hp⟩
      · obtain ⟨n, hn, rfl⟩ := ih h
        obtain ⟨e, he⟩ := exists_element (beq_iff_eq.1 helement)
        rw [scope_eq he, hf.inheritedScope_of_parent helement hq]
        exact exists_mem_extendScope_of_inherited _ hn

/-- Of the nearest bindings of prefixes to URIs those are in scope that no lack of a default
namespace hides. -/
theorem WellFormed.nearestUri?_eq_some {p uri : String} (hf : f.WellFormed)
    (h : f.isElement id = true) : f.nearestUri? p (f.elementChain id) = some uri ↔
      (∃ n ∈ f.scope id, n.pfx = p ∧ n.uri = uri ∧ uri ≠ "") ∨
        p = "" ∧ Namespace.none ∈ f.scope id ∧ f.nearestUri? "" (f.elementChain id) = some uri := by
  rw [← uriOf?_eq_some]
  have hchain := nearestUri?_elementChain p h
  constructor
  · intro hnearest
    cases huri : f.uriOf? p id with
    | some u =>
      rw [hchain, huri] at hnearest
      exact .inl hnearest
    | none =>
      obtain ⟨n, hn, hp⟩ := hf.mem_scope_of_nearestUri? hnearest
      have hu : n.uri = "" := by
        by_contra hu
        rw [uriOf?_eq_some.2 ⟨n, hn, hp, rfl, hu⟩] at huri
        cases huri
      have hpfx := Namespace.pfx_of_uri_empty hu
      obtain rfl : n = Namespace.none := Namespace.ext' hpfx hu
      obtain rfl : "" = p := hp
      exact .inr ⟨rfl, hn, hnearest⟩
  · rintro (huri | ⟨rfl, -, hnearest⟩)
    · rw [hchain, huri]
      rfl
    · exact hnearest

end Forest

end TreeQuery
