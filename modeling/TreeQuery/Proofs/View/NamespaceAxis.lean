import Mathlib.Data.List.Perm.Basic
import TreeQuery.Proofs.View.Levels
import TreeQuery.Proofs.View.Mirror

/-!
# The namespace axis

What the levels of a view bind at an element is what the elements of the tree bind around it
(`Navigator.binds_of_element`), but that there is no level on which the default namespace is none:
where an element has no default namespace, the view shows that of the nearest element around it that
has one. All other bindings are those in scope in the tree (`Navigator.namespaces_shown`).
-/

namespace TreeQuery

open XPath

/-- What a namespace node binds. -/
def XPath.XNode.binding? (x : XNode) : Option (String × String) :=
  match x.item with
  | .ns p uri => some (p, uri)
  | _ => none

/-- The levels of a node of a view, its own first. -/
def XPath.XNode.levels (ds : Documents) (x : XNode) : List ViewLevel :=
  (x :: x.ancestors ds).map fun a => ⟨a.declared, none⟩

/-- The namespaces of an element are `xml` and what is bound on the way down to it. -/
theorem XPath.XNode.binding?_namespaces {ds : Documents} {x : XNode} {v : ViewId}
    {data : ViewElement} {cs : List Branch} (hx : x.item = .branch (.element v data cs)) :
    (x.namespaces ds).filterMap XNode.binding? =
      ("xml", xmlUri) :: (bindingsOf (x.levels ds)).reverse := by
  rw [XNode.namespaces, hx]
  dsimp only
  rw [List.filterMap_map]
  exact List.filterMap_some

namespace Navigator

variable {f : Forest} {n n' m : Navigator} {around : Surroundings} {id top : NodeId}
  {e : ElementData}

/-! ## One level -/

/-- What is declared around an element of a view is what is bound to URIs around the element of the
tree. `xml` needs no declaration. -/
def Binds (f : Forest) (declared : List (String × String)) (chain : List NodeId) : Prop :=
  ∀ p, declared.lookup p = if p = "xml" then none else f.nearestUri? p chain

theorem Binds.writes {levels : List ViewLevel} {ns : Namespace}
    (h : Binds f (declaredBy levels) (f.elementChain id)) (hns : ns ∈ f.scope id)
    (hu : ns.uri ≠ "") : Writes levels ns := by
  refine Classical.or_iff_not_imp_left.2 fun hx => ?_
  have hp : ns.pfx ≠ "xml" := fun hp => hx (Namespace.ext' hp (ns.valid.xml.1 hp))
  rw [lookupPrefix_eq, h, if_neg hp, Forest.nearestUri?_of_mem_scope hns hu hx]

/-- The surroundings of an element that is to be built. -/
structure Fits (f : Forest) (id : NodeId) (around : Surroundings) : Prop where
  scope : around.scope = f.inheritedScope id
  binds : Binds f (declaredBy around.levels) (f.elementChain id).tail

theorem nodup_introduced (f : Forest) (id : NodeId) :
    ((declarations (f.introduced id)).map (·.1)).Nodup := by
  have hbound := (List.filter_sublist (l := f.introduced id)
    (p := fun n => n != Namespace.xml && n.uri != "")).map (·.pfx)
  have hpairs : ((((f.introduced id).filter fun n => n != Namespace.xml && n.uri != "").map
      fun n => (n.pfx, n.uri)).map (·.1)).Nodup := by
    rw [List.map_map]
    exact (f.nodup_introduced id).sublist hbound
  have hsplit (l : List (String × String)) :
      (l.filter (·.1 != "") ++ l.filter (·.1 == "")).Perm l := by
    have hno : (fun b : String × String => b.1 == "") = fun b => !(b.1 != "") :=
      funext fun b => by rw [bne, Bool.not_not]
    rw [hno]
    exact List.filter_append_perm _ l
  exact (((hsplit _).map _).nodup_iff).2 hpairs

theorem ownBindings_eq (f : Forest) (e : ElementData) :
    ownBindings e.ns e.declared (e.attributes.filterMap f.attr?) = f.bindings e := by
  have hattributes : (e.attributes.filterMap f.attr?).map (·.ns) =
      e.attributes.filterMap f.attributeNamespace? := by
    rw [List.map_filterMap]
    exact List.filterMap_congr fun a _ => (f.attributeNamespace?_eq a).symm
  rw [ownBindings, Forest.bindings, hattributes]

/-- What an element introduces goes before what is bound around it. -/
theorem lookup_introduced {p : String} (hf : f.WellFormed)
    (he : f.content? id = some (.element e)) :
    ((declarations (f.introduced id)).lookup p).or
        (if p = "xml" then none else f.nearestUri? p (f.elementChain id).tail) =
      if p = "xml" then none else f.nearestUri? p (f.elementChain id) := by
  have helement := Forest.isElement_of_content? he
  have hlookup {u : String} : (declarations (f.introduced id)).lookup p = some u ↔
      ∃ n ∈ f.introduced id, n ≠ Namespace.xml ∧ n.uri ≠ "" ∧ (p, u) = (n.pfx, n.uri) :=
    (lookup_eq_some_iff_mem (nodup_introduced f id)).trans mem_declarations
  by_cases hp : p = "xml"
  · rw [if_pos hp, if_pos hp, Option.or_none]
    refine Option.eq_none_iff_forall_ne_some.2 fun u hu => ?_
    obtain ⟨n, -, hx, -, he⟩ := hlookup.1 hu
    have hpfx : n.pfx = "xml" := (congrArg Prod.fst he).symm.trans hp
    exact hx (Namespace.ext' hpfx (n.valid.xml.1 hpfx))
  · rw [if_neg hp, if_neg hp, Forest.nearestUri?_elementChain p helement]
    cases huri : f.uriOf? p id with
    | none =>
      cases hl : (declarations (f.introduced id)).lookup p with
      | none => rfl
      | some u =>
        obtain ⟨n, hn, -, hu, he⟩ := hlookup.1 hl
        cases he
        rw [Forest.uriOf?_eq_some.2 ⟨n, List.mem_of_mem_filter hn, rfl, rfl, hu⟩] at huri
        cases huri
    | some u =>
      obtain ⟨n, hn, rfl, rfl, hu⟩ := Forest.uriOf?_eq_some.1 huri
      have hx : n ≠ Namespace.xml := fun he => hp (he ▸ rfl)
      by_cases hi : n ∈ f.inheritedScope id
      · -- what is inherited unchanged is not declared again
        rw [hf.nearestUri?_of_inherited helement hi hu hx]
        cases hl : (declarations (f.introduced id)).lookup n.pfx with
        | none => rfl
        | some u =>
          obtain ⟨k, hk, -, -, he⟩ := hlookup.1 hl
          obtain ⟨hk, hnew⟩ := List.mem_filter.1 hk
          obtain rfl : n = k := f.bindOnce_scope id hn hk (congrArg Prod.fst he)
          simp [hi] at hnew
      · rw [hlookup.2 ⟨n, List.mem_filter.2 ⟨hn, by simp [hi]⟩, hx, hu, rfl⟩]

/-- The level of an element and of its attributes binds what the element of the tree binds. -/
theorem binds_of_element {k k' : Navigator} {level level' : ViewLevel} {vas : List ViewAttribute}
    (hf : f.WellFormed) (he : f.content? id = some (.element e)) (hn : f.hasNames id = true)
    (hfit : Fits f id around)
    (hlevel : (elementLevel around.levels ⟨e.ns.uri, e.name⟩ (f.introduced id)).run n =
      (.ok level, n'))
    (hattr : (buildAttributes around.levels level (e.attributes.filterMap f.attr?)).run k =
      (.ok (level', vas), k')) :
    Binds f (declaredBy (level' :: around.levels)) (f.elementChain id) := by
  have hbound (p : String) : ((declarations (f.introduced id)).lookup p).or
      (lookupPrefix around.levels p) =
        if p = "xml" then none else f.nearestUri? p (f.elementChain id) := by
    rw [lookupPrefix_eq, hfit.binds p]
    exact lookup_introduced hf he
  have hns (hu : e.ns.uri ≠ "") : e.ns = Namespace.xml ∨
      ((declarations (f.introduced id)).lookup e.ns.pfx).or (lookupPrefix around.levels e.ns.pfx) =
        some e.ns.uri := by
    refine Classical.or_iff_not_imp_left.2 fun hx => ?_
    have hp : e.ns.pfx ≠ "xml" := fun hp => hx (Namespace.ext' hp (e.ns.valid.xml.1 hp))
    have hown : e.ns ∈ f.scope id := hf.mem_scope_of_own he (Forest.mem_bindings.2 (.inl rfl))
    rw [hbound, if_neg hp, Forest.nearestUri?_of_mem_scope hown hu hx]
  have hbinds : Binds f (declaredBy (level :: around.levels)) (f.elementChain id) := fun p => by
    rw [← lookupPrefix_eq, elementLevel_eq_ok (nodup_introduced f id) hns hlevel, hbound]
  have hnames : ∀ a ∈ e.attributes.filterMap f.attr?, Text.isName a.name.toList = true := by
    rw [Forest.hasNames, he, Bool.and_eq_true, List.all_eq_true] at hn
    exact hn.2
  have hattributes (a : Attr) (ha : a ∈ e.attributes.filterMap f.attr?) (hu : a.ns.uri ≠ "") :
      Writes (level :: around.levels) a.ns ∧ a.ns.pfx ≠ "" := by
    obtain ⟨i, hi, ha⟩ := List.mem_filterMap.1 ha
    obtain ⟨x, hx, hbare⟩ := hf.attribute_data (Forest.mem_attributes he hi)
    obtain rfl : a = x := Option.some.inj (ha.symm.trans hx)
    have hp : a.ns.pfx ≠ "" := fun hp => hu (hbare hp)
    have hown : a.ns ∈ f.scope id :=
      hf.mem_scope_of_own he (Forest.mem_bindings.2 (.inr (.inr ⟨i, hi, a, ha, rfl, hp⟩)))
    exact ⟨hbinds.writes hown hu, hp⟩
  rwa [buildAttributes_eq_level hnames hattributes hattr]

/-! ## All levels -/

/-- All elements of a part of a view bind what the elements of the tree that they show bind. -/
inductive Scoped (f : Forest) (n : Navigator) : List (String × String) → Branch → Prop where
  | element {outer : List (String × String)} {v : ViewId} {data : ViewElement} {cs : List Branch}
      {id : NodeId} (hview : n.nodes.lookup v = some id) (helement : f.isElement id = true)
      (hbinds : Binds f (data.declared ++ outer) (f.elementChain id))
      (hcs : ∀ c ∈ cs, Scoped f n (data.declared ++ outer) c) :
      Scoped f n outer (.element v data cs)
  | other {outer : List (String × String)} {b : Branch} (h : ∀ v data cs, b ≠ .element v data cs) :
      Scoped f n outer b

theorem fits_outer (hf : f.WellFormed) (h : f.isElement id = true)
    (hp : ∀ p, f.parent? id = some p → f.isElement p = false) : Fits f id outerSurroundings := by
  have htail : (f.elementChain id).tail = [] := by
    rcases hf.inherited_cases h with ⟨htail, -⟩ | ⟨p, hparent, htail, -⟩
    · exact htail
    · rw [htail, Forest.elementChain_of_not_element (hp p hparent)]
  refine ⟨?_, fun p => ?_⟩
  · rw [Forest.inheritedScope, htail]
    rfl
  · rw [htail]
    exact (ite_self _).symm

theorem Made.scoped {b : Branch} (hf : f.WellFormed)
    (hn : ∀ x ∈ (f.tree id).ids, f.hasNames x = true)
    (hfit : f.isElement id = true → Fits f id around) (h : Made f around id m b) :
    Scoped f m (declaredBy around.levels) b := by
  induction id using hf.induction_up generalizing around b with
  | _ id ih =>
    obtain ⟨n, n', v, ht, hnew, hbuild, hknows, rfl⟩ := h
    have hmirrors (c) (hc : c ∈ f.children id) : Mirrors f c := hf.mirrors fun x hx =>
      hn x (hf.ids_subset_of_child hc hx)
    have hviewed := isViewed_of_build hf hbuild
    rcases hviewed.content? with ⟨e, hx⟩ | ⟨value, hx⟩ | ⟨target, data, hx⟩
    · have helement := Forest.isElement_of_content? hx
      have hself := hn id (hf.self_mem_ids hviewed.class?_ne_attr)
      obtain ⟨level, level', vas, text, views, hlevel, hattr, hshow, hview, rfl⟩ :=
        element_eq_ok hf hx hself hmirrors ht hnew hbuild
      have hfit := hfit helement
      have hscope : extendScope around.scope (ownBindings e.ns e.declared
          (e.attributes.filterMap f.attr?)) = f.scope id := by
        rw [hfit.scope, ownBindings_eq, Forest.scope_eq hx]
      rw [hscope, hfit.scope] at hlevel
      have hbinds := binds_of_element hf hx hself hfit hlevel hattr
      refine .element (hknows.nodes hview) helement hbinds fun c hc => ?_
      rcases hshow.made c hc with htext | ⟨d, hd, hmade⟩
      · obtain ⟨slot, s, rfl⟩ := isText_shape_iff.1 htext
        exact .other (by rintro _ _ _ ⟨⟩)
      · have hd : d ∈ f.children id := Forest.children_of_content? hx ▸ hd
        refine ih d hd (fun x hx => hn x (hf.ids_subset_of_child hd hx)) (fun hdelement => ?_)
          (hmade.mono hknows)
        have hparent := hf.parent_of_child hd
        refine ⟨hscope.trans (hf.inheritedScope_of_parent hdelement hparent).symm, ?_⟩
        rw [hf.elementChain_of_parent hdelement hparent]
        exact hbinds
    · rw [hf.tree_comment hx] at hbuild
      obtain ⟨rfl, -⟩ := build_comment_eq_ok hbuild
      exact .other (by rintro _ _ _ ⟨⟩)
    · rw [hf.tree_instruction hx] at hbuild
      obtain ⟨rfl, -⟩ := build_instruction_eq_ok hbuild
      exact .other (by rintro _ _ _ ⟨⟩)

/-- In the view of a tree every node is scoped by what is declared around it. -/
theorem scoped_of_nodeAt? {bs : List Branch} (h : ∀ b ∈ bs, Scoped f n [] b) {path : List Nat}
    {x : XNode} (hx : nodeAt? [bs] 0 path = some x) :
    (∀ b ∈ x.branches, Scoped f n (declaredBy (x.levels [bs])) b) ∧
      ∀ v data cs, x.item = .branch (.element v data cs) → ∃ id, n.nodes.lookup v = some id ∧
        f.isElement id = true ∧ Binds f (declaredBy (x.levels [bs])) (f.elementChain id) := by
  have htop : declaredBy ((documentNode [bs] 0).levels [bs]) = [] := rfl
  refine node_induction (motive := fun _ x =>
    (∀ b ∈ x.branches, Scoped f n (declaredBy (x.levels [bs])) b) ∧
      ∀ v data cs, x.item = .branch (.element v data cs) → ∃ id, n.nodes.lookup v = some id ∧
        f.isElement id = true ∧ Binds f (declaredBy (x.levels [bs])) (f.elementChain id))
    ⟨htop ▸ h, nofun⟩ (fun path p i c hp ⟨hbelow, _⟩ hc => ?_) path x hx
  have haround : declaredBy (c.levels [bs]) = c.declared ++ declaredBy (p.levels [bs]) := by
    rw [XNode.levels, XNode.ancestors_of_child hp hc]
    rfl
  rw [XNode.getElem?_children] at hc
  obtain ⟨b, hb, rfl⟩ := Option.map_eq_some_iff.1 hc
  have hscoped := hbelow b (List.mem_of_getElem? hb)
  rw [haround]
  cases hscoped with
  | element hview helement hbinds hcs =>
    refine ⟨hcs, fun v data cs hitem => ?_⟩
    cases hitem
    exact ⟨_, hview, helement, hbinds⟩
  | other h =>
    refine ⟨fun d hd => ?_, fun v data cs hitem => ?_⟩
    · cases b with
      | element v data cs => exact absurd rfl (h v data cs)
      | _ => cases hd
    · cases hitem
      exact absurd rfl (h v data cs)

/-! ## Bindings of a view -/

theorem mem_scopeOf {b : String × String} :
    b ∈ scopeOf f id ↔ ∃ n ∈ f.scope id, n ≠ Namespace.none ∧ n.pfx = b.1 ∧ n.uri = b.2 := by
  rw [scopeOf, List.mem_map]
  simp only [List.mem_filter, bne_iff_ne, and_assoc, Prod.ext_iff]

/-- The namespaces of an element of a view, given what the view binds there. -/
theorem mem_namespaces {ds : Documents} {x : XNode} {v : ViewId} {data : ViewElement}
    {cs : List Branch} (hf : f.WellFormed) (helement : f.isElement id = true)
    (hx : x.item = .branch (.element v data cs))
    (hbinds : Binds f (declaredBy (x.levels ds)) (f.elementChain id)) :
    (((x.namespaces ds).filterMap XNode.binding?).map (·.1)).Nodup ∧
      ∀ b, b ∈ (x.namespaces ds).filterMap XNode.binding? ↔ b ∈ scopeOf f id ∨
        b.1 = "" ∧ Namespace.none ∈ f.scope id ∧
          f.nearestUri? "" (f.elementChain id) = some b.2 := by
  obtain ⟨hnodup, hmem⟩ := bindingsOf_spec (x.levels ds)
  have hmem (b : String × String) : b ∈ bindingsOf (x.levels ds) ↔
      b.1 ≠ "xml" ∧ f.nearestUri? b.1 (f.elementChain id) = some b.2 := by
    rw [hmem, lookupPrefix_eq, hbinds]
    by_cases hp : b.1 = "xml"
    · rw [if_pos hp]
      exact ⟨nofun, fun h => absurd hp h.1⟩
    · rw [if_neg hp]
      exact (and_iff_right hp).symm
  rw [XNode.binding?_namespaces hx]
  refine ⟨?_, fun b => ?_⟩
  · rw [List.map_cons, List.map_reverse, List.nodup_cons, List.nodup_reverse, List.mem_reverse]
    refine ⟨fun h => ?_, hnodup⟩
    obtain ⟨b, hb, hp⟩ := List.mem_map.1 h
    exact ((hmem b).1 hb).1 hp
  · rw [List.mem_cons, List.mem_reverse, hmem, mem_scopeOf, hf.nearestUri?_eq_some helement]
    constructor
    · rintro (rfl | ⟨-, ⟨n, hn, hp, hu, hne⟩ | hdefault⟩)
      · exact .inl ⟨_, f.xml_mem_scope id, by decide, rfl, rfl⟩
      · refine .inl ⟨n, hn, ?_, hp, hu⟩
        rintro rfl
        exact hne hu.symm
      · exact .inr hdefault
    · rintro (⟨n, hn, hne, hp, hu⟩ | hdefault)
      · by_cases hx : n.pfx = "xml"
        · exact .inl (Prod.ext (hp.symm.trans hx) (hu.symm.trans (n.valid.xml.1 hx)))
        · refine .inr ⟨hp ▸ hx, .inl ⟨n, hn, hp, hu, fun hempty => hne ?_⟩⟩
          have huri : n.uri = "" := hu.trans hempty
          exact Namespace.ext' (Namespace.pfx_of_uri_empty huri) huri
      · refine .inr ⟨?_, .inr hdefault⟩
        rw [hdefault.1]
        decide

/-- The namespaces of an element in the view of its tree are the bindings in scope at the element of
the tree. Where the default namespace is none although an element around has one, the view has that
one in addition. -/
theorem namespaces_shown (hb : f.Built) {context : Value} {r : NodeId}
    (hc : contextNode f context = .ok id) (htop : contextNode f (.node (f.root id)) = .ok r)
    (hn : ∀ x ∈ (f.tree (f.root id)).ids, f.hasNames x = true)
    (hbind : (Navigator.bind f context).run n = (.ok (), n')) :
    (∀ e, f.root e = f.root id → f.isElement e = true → ∃ path x v data cs,
      nodeAt? (documentsOf n'.documents) 0 path = some x ∧ x.item = .branch (.element v data cs) ∧
        n'.toTree f (.view v) = .ok (.node e)) ∧
      ∀ path x v data cs, nodeAt? (documentsOf n'.documents) 0 path = some x →
        x.item = .branch (.element v data cs) → ∃ e, n'.toTree f (.view v) = .ok (.node e) ∧
          (((x.namespaces (documentsOf n'.documents)).filterMap XNode.binding?).map (·.1)).Nodup ∧
          ∀ b, b ∈ (x.namespaces (documentsOf n'.documents)).filterMap XNode.binding? ↔
            b ∈ scopeOf f e ∨ b.1 = "" ∧ Namespace.none ∈ f.scope e ∧
              f.nearestUri? "" (f.elementChain e) = some b.2 := by
  have hf := hb.wellFormed
  obtain ⟨⟨bs, hshow⟩, -⟩ := showsTree_of_bind hf hc hn hbind
  rw [hshow.documents]
  refine ⟨fun e he helement => ?_, fun path x v data cs hx hitem => ?_⟩
  · obtain ⟨path, x, b, hx, hitem, hshown⟩ :=
      hshow.exists_node hf htop he (.inl (beq_iff_eq.1 helement))
    obtain ⟨data, hdata⟩ := Forest.exists_element (beq_iff_eq.1 helement)
    obtain ⟨v, data, cs, rfl, hview, -⟩ := shown_element hf hdata hshown
    exact ⟨path, x, v, data, cs, hx, hitem, hview⟩
  · have hscoped (b) (hb : b ∈ bs) : Scoped f n' [] b := by
      obtain ⟨c, hc, hmade⟩ := hshow.made b hb
      refine hmade.scoped hf (fun x hx => hn x ?_) fun helement => fits_outer hf helement ?_
      · rcases hc with rfl | ⟨hc, -⟩
        · exact hx
        · exact hf.ids_subset_of_child hc hx
      · intro p hp
        rcases hc with rfl | ⟨hc, hd⟩
        · rw [hf.parent?_root] at hp
          cases hp
        · obtain rfl : f.root id = p :=
            Option.some.inj ((hf.parent_of_child hc).symm.trans hp)
          rw [Forest.isElement, hd]
          rfl
    obtain ⟨e, hview, helement, hbinds⟩ := (scoped_of_nodeAt? hscoped hx).2 v data cs hitem
    exact ⟨e, toTree_view hview, mem_namespaces hf helement hitem hbinds⟩

/-- An element in no namespace within one whose namespace is the default. -/
def nestedDefault : Forest :=
  let u : Namespace := ⟨"", "u", by decide, by decide, by decide⟩
  ⟨#[⟨none, .element ⟨"r", u, [], [], [1]⟩⟩, ⟨some 0, .element ⟨"c", Namespace.none, [], [], []⟩⟩]⟩

theorem built_nestedDefault : nestedDefault.Built := by
  have h := Forest.Built.element .empty
    (rfl : Forest.newElement _ (some "r") ⟨"", "u", by decide, by decide, by decide⟩ = .ok (_, 0))
  have h := h.element (rfl : Forest.newElement _ (some "c") Namespace.none = .ok (_, 1))
  have h := h.extend 0 [.node 1]
  cbv at h
  exact h

theorem namespaces_shown_default :
    ∃ n path x, (Navigator.bind nestedDefault (.node 1)).run {} = (.ok (), n) ∧
      nodeAt? (documentsOf n.documents) 0 path = some x ∧
      ∀ b, b ∈ (x.namespaces (documentsOf n.documents)).filterMap XNode.binding? ↔
        b = ("xml", xmlUri) ∨ b = ("", "u") := by
  have hc : contextNode nestedDefault (.node 1) = .ok 1 := rfl
  have htop : contextNode nestedDefault (.node (nestedDefault.root 1)) = .ok 0 := rfl
  obtain ⟨n, hbind⟩ := bind_succeeds built_nestedDefault.wellFormed hc htop (by decide) {}
  obtain ⟨hfound, hnamespaces⟩ := namespaces_shown built_nestedDefault hc htop (by decide) hbind
  obtain ⟨path, x, v, data, cs, hx, hitem, hview⟩ := hfound 1 rfl rfl
  obtain ⟨e, he, -, hb⟩ := hnamespaces path x v data cs hx hitem
  obtain rfl : 1 = e := by simpa using hview.symm.trans he
  refine ⟨n, path, x, hbind, hx, fun b => (hb b).trans (or_congr List.mem_singleton ?_)⟩
  have hnearest : nestedDefault.nearestUri? "" (nestedDefault.elementChain 1) = some "u" := rfl
  have hnone : Namespace.none ∈ nestedDefault.scope 1 := by decide
  rw [hnearest, and_iff_right hnone, Option.some.injEq, Prod.ext_iff, eq_comm (a := "u")]

/-- The default namespace around an element in no namespace is in the view of the element, but not
in scope at it. -/
theorem default_not_hidden :
    nestedDefault.Built ∧ ∃ n x v data cs,
      (Navigator.bind nestedDefault (.node 1)).run {} = (.ok (), n) ∧
      nodeAt? (documentsOf n.documents) 0 [0, 0] = some x ∧
      x.item = .branch (.element v data cs) ∧ n.toTree nestedDefault (.view v) = .ok (.node 1) ∧
      ("", "u") ∈ (x.namespaces (documentsOf n.documents)).filterMap XNode.binding? ∧
      ("", "u") ∉ scopeOf nestedDefault 1 := by
  let n : Navigator := {
    context := some 1
    scope := [("xml", xmlUri)]
    views := [(1, 1), (0, 0)]
    nodes := [(1, 1), (0, 0)]
    documents := [[.element 0 ⟨⟨"u", "r"⟩, "", [("", "u")], []⟩ none
      [.element 1 ⟨⟨"", "c"⟩, "", [], []⟩ none [] none] none]]
    next := 2 }
  have hbind : (Navigator.bind nestedDefault (.node 1)).run {} = (.ok (), n) := rfl
  let x : XNode := ⟨⟨0, [0, 0], .whole⟩, .branch (.element 1 ⟨⟨"", "c"⟩, "", [], []⟩ [])⟩
  exact ⟨built_nestedDefault, n, x, 1, _, _, hbind, rfl, rfl, rfl, by decide, by decide⟩

end Navigator

end TreeQuery
