import TreeQuery.Proofs.Forest.Prefixes

/-!
# Conflicts of declarations

A declaration is refused where the element binds the prefix to another URI. It is also refused where
it is that of a default namespace and the element has an attribute in no namespace, although such an
attribute binds nothing (`bare_attribute_refuses_default`). All other declarations are made, and a
declaration and an attribute that do not conflict can come in either order
(`declaration_refused_iff`).
-/

namespace TreeQuery.Forest

variable {f g : Forest} {id a : NodeId} {e : ElementData} {n ns : Namespace}

/-! ## What refuses a declaration -/

/-- An element binds a prefix to another URI. -/
def Clashes (f : Forest) (id : NodeId) (n : Namespace) : Prop :=
  ∃ m, f.Binds id m ∧ m.pfx = n.pfx ∧ m.uri ≠ n.uri

/-- An element has an attribute in no namespace. -/
def HasBareAttribute (f : Forest) (id : NodeId) : Prop :=
  ∃ a ∈ f.attributes id, ∃ x, f.attr? a = some x ∧ x.ns = Namespace.none

/-- The conflicts that keep an element from declaring a namespace. -/
def Refuses (f : Forest) (id : NodeId) (n : Namespace) : Prop :=
  n ≠ Namespace.none ∧ n ≠ Namespace.xml ∧
    (f.Clashes id n ∨ n.pfx = "" ∧ f.HasBareAttribute id)

theorem clashes_iff (he : f.content? id = some (.element e)) :
    f.Clashes id n ↔ ∃ m ∈ f.bindings e, m.pfx = n.pfx ∧ m.uri ≠ n.uri := by
  simp only [Clashes, binds_iff he]

theorem eq_iff_uri_eq {m : Namespace} (hp : m.pfx = n.pfx) : m = n ↔ m.uri = n.uri :=
  ⟨congrArg Namespace.uri, Namespace.ext' hp⟩

/-- The prefix of a namespace is taken by what the element binds, or by an attribute without a
prefix. -/
theorem WellFormed.checkPrefix_refuses_iff (hf : f.WellFormed)
    (he : f.content? id = some (.element e)) (hn : n ≠ Namespace.none) :
    f.checkPrefix e n ≠ .ok () ↔ f.Clashes id n ∨ n.pfx = "" ∧ f.HasBareAttribute id := by
  have hattributes : f.attributes id = e.attributes := attributes_of_content? he
  rw [ne_eq, checkPrefix_eq_ok_iff]
  simp only [mem_usedNamespaces, ← binds_iff he, not_forall, exists_prop]
  constructor
  · rintro ⟨m, hm | ⟨hbare, a, ha, x, hx, rfl⟩, hp, hne⟩
    · exact .inl ⟨m, hm, hp, mt (eq_iff_uri_eq hp).2 hne⟩
    · refine .inr ⟨hp.symm.trans hbare, a, hattributes ▸ ha, x, hx, ?_⟩
      obtain ⟨y, hy, huri⟩ := hf.attribute_data (mem_attributes he ha)
      cases hx.symm.trans hy
      exact Namespace.ext' hbare (huri hbare)
  · rintro (⟨m, hm, hp, hu⟩ | ⟨hp, a, ha, x, hx, hbare⟩)
    · exact ⟨m, .inl hm, hp, mt (eq_iff_uri_eq hp).1 hu⟩
    · exact ⟨Namespace.none, .inr ⟨rfl, a, hattributes ▸ ha, x, hx, hbare⟩, hp.symm, hn.symm⟩

theorem WellFormed.checkDeclaration_iff (hf : f.WellFormed)
    (he : f.content? id = some (.element e)) :
    f.checkDeclaration e n = .ok () ↔ ¬ f.Refuses id n := by
  unfold checkDeclaration Refuses
  split
  · next hfree =>
    simp only [true_iff]
    rintro ⟨hnone, hxml, -⟩
    exact hfree.elim hnone hxml
  · next hbound =>
    obtain ⟨hnone, hxml⟩ := not_or.1 hbound
    rw [← hf.checkPrefix_refuses_iff he hnone, not_and, not_and, not_not]
    exact ⟨fun h _ _ => h, fun h => h hnone hxml⟩

theorem WellFormed.checkAttributeNamespace_iff (hf : f.WellFormed)
    (he : f.content? id = some (.element e)) : f.checkAttributeNamespace e n = .ok () ↔
      (n.pfx = "" → n = Namespace.none) ∧ (n.pfx ≠ "" → ¬ f.Clashes id n) := by
  rw [Forest.checkAttributeNamespace_eq_ok_iff]
  refine and_congr (forall_congr' fun hp => (eq_iff_uri_eq (n := Namespace.none) hp).symm)
    (forall_congr' fun hp => ?_)
  have hrefuses := hf.checkPrefix_refuses_iff he (n := n) fun h => hp (congrArg Namespace.pfx h)
  rw [or_iff_left fun h => hp h.1] at hrefuses
  exact not_not.symm.trans (not_congr hrefuses)

theorem WellFormed.declare_eq_error_iff (hf : f.WellFormed)
    (he : f.content? id = some (.element e)) :
    (∃ fault, f.declare id n = .error fault) ↔ f.Refuses id n := by
  rw [← not_iff_not, ← hf.checkDeclaration_iff he, declare_of_element he]
  cases f.checkDeclaration e n with
  | error fault => simp [Except.map]
  | ok => simp [Except.map]

/-- An attribute can be set on an element if it has a name and its value a text, if its namespace has
a prefix or is none, and if the element does not bind the prefix to another URI. -/
theorem WellFormed.setAttribute_isOk_iff {name : Option String} {value : Value} (hf : f.WellFormed) :
    (∃ r, f.setAttribute id name value ns = .ok r) ↔ f.isElement id = true ∧
      (∃ nm, name = some nm ∧ nm ≠ "" ∧ ':' ∉ nm.toList) ∧ (∃ text, f.textOf value = .ok text) ∧
        (ns.pfx = "" → ns = Namespace.none) ∧ (ns.pfx ≠ "" → ¬ f.Clashes id ns) := by
  constructor
  · rintro ⟨r, hr⟩
    obtain ⟨e, nm, text, he, hname, hcheck, htext, -⟩ := setAttribute_eq_ok_iff.1 hr
    exact ⟨isElement_of_content? he, ⟨nm, hname⟩, ⟨text, htext⟩,
      (hf.checkAttributeNamespace_iff he).1 hcheck⟩
  · rintro ⟨helement, ⟨nm, hname⟩, ⟨text, htext⟩, hns⟩
    obtain ⟨e, he⟩ := exists_element (eq_of_beq helement)
    exact ⟨_, setAttribute_eq_ok_iff.2
      ⟨e, nm, text, he, hname, (hf.checkAttributeNamespace_iff he).2 hns, htext, rfl⟩⟩

/-- A refusal names the prefix, a URI that it is taken for, and the element. -/
theorem declare_eq_error {fault : Failure} (he : f.content? id = some (.element e))
    (h : f.declare id n = .error fault) :
    ∃ uri, uri ≠ n.uri ∧ fault = .prefixTaken n.pfx uri (e.ns.qualified e.name) := by
  rw [declare_of_element he] at h
  unfold checkDeclaration checkPrefix at h
  split at h
  · cases h
  · split at h
    · next m hm =>
      cases h
      have htaken := List.find?_some hm
      rw [Bool.and_eq_true, beq_iff_eq, bne_iff_ne] at htaken
      exact ⟨m.uri, htaken.2, by rw [htaken.1]⟩
    · cases h

/-! ## A declaration beside an attribute -/

section Declared

variable (ds : List Namespace)

theorem map_content?_redeclared {α : Type} (look : Content → α)
    (he : f.content? id = some (.element e))
    (hl : look (.element { e with declared := ds }) = look (.element e)) (i : NodeId) :
    ((f.setContent id (.element { e with declared := ds })).content? i).map look =
      (f.content? i).map look := by
  rw [content?_setContent he]
  split
  · next hi => rw [hi, he, Option.map_some, Option.map_some, hl]
  · rfl

theorem isElement_redeclared (he : f.content? id = some (.element e)) (i : NodeId) :
    (f.setContent id (.element { e with declared := ds })).isElement i = f.isElement i :=
  congrArg (· == some NodeClass.element) (map_content?_redeclared ds Content.nodeClass he rfl i)

theorem attributes_redeclared (he : f.content? id = some (.element e)) (i : NodeId) :
    (f.setContent id (.element { e with declared := ds })).attributes i = f.attributes i :=
  congrArg (·.getD []) (map_content?_redeclared ds Content.attributes he rfl i)

theorem children_redeclared (he : f.content? id = some (.element e)) (i : NodeId) :
    (f.setContent id (.element { e with declared := ds })).children i = f.children i :=
  congrArg (·.getD []) (map_content?_redeclared ds Content.children he rfl i)

theorem attribute?_redeclared (he : f.content? id = some (.element e)) (name uri : String) :
    (f.setContent id (.element { e with declared := ds })).attribute? id name uri =
      f.attribute? id name uri := by
  rw [attribute?, attribute?, attributes_redeclared ds he]
  congr 1
  funext a
  rw [isAttributeOf_eq, isAttributeOf_eq, attr?_setContent_element he]

theorem shownUpTo_redeclared (he : f.content? id = some (.element e)) (depth : Nat) :
    (f.setContent id (.element { e with declared := ds })).shownUpTo depth =
      f.shownUpTo depth := by
  induction depth with
  | zero => rfl
  | succ depth ih =>
    funext i
    rw [shownUpTo, shownUpTo, ih, rootElement?, rootElement?, children_redeclared ds he,
      funext (isElement_redeclared ds he), content?_setContent he]
    by_cases hi : i = id
    · rw [if_pos hi, hi, he]
    · rw [if_neg hi]

theorem textOf_redeclared (he : f.content? id = some (.element e)) :
    (f.setContent id (.element { e with declared := ds })).textOf = f.textOf := by
  have hnode : (f.setContent id (.element { e with declared := ds })).shownNode = f.shownNode := by
    funext i
    rw [shownNode, shownNode, shownUpTo_redeclared ds he, setContent, modify, Array.size_modify]
  funext value
  rw [textOf, textOf, hnode]

variable {ds} {x : Attr}

/-- An attribute that is set on an element with other declarations is set in the same place. -/
theorem eq_setContent_of_attributeSet {h : Forest} (hs : AttributeSet f g id e x)
    (hs' : AttributeSet (f.setContent id (.element { e with declared := ds })) h id
      { e with declared := ds } x) :
    h = g.setContent id (.element { e with
      declared := ds
      attributes := replaced (f.attribute? id x.name x.ns.uri) x.id e.attributes }) := by
  have hold := attribute?_redeclared ds hs.element x.name x.ns.uri
  refine eq_of_content? (fun i => ?_) (fun i => ?_)
  · rw [content?_setContent hs.content?_element, hs.content, hs'.content, hold,
      content?_setContent hs.element]
    by_cases hi : i = id
    · rw [if_pos hi, if_pos hi]
    · rw [if_neg hi, if_neg hi, if_neg hi, if_neg hi]
  · rw [parent?_setContent, hs.parent, hs'.parent, hold, parent?_setContent]

end Declared

theorem mem_declaredWith {declared : List Namespace} {m : Namespace}
    (hm : m ∈ declaredWith n declared) : m ∈ declared ∨ m = n := by
  unfold declaredWith at hm
  split at hm
  · exact .inl hm
  · exact (List.mem_append.1 hm).imp_right List.mem_singleton.1

theorem usedNamespaces_declared (he : f.content? id = some (.element e)) {m : Namespace}
    (hm : m ∈ (f.setContent id (.element { e with
      declared := declaredWith n e.declared })).usedNamespaces
        { e with declared := declaredWith n e.declared }) :
    m ∈ f.usedNamespaces e ∨ m = n := by
  have hnamespaces : (f.setContent id (.element { e with
      declared := declaredWith n e.declared })).attributeNamespace? = f.attributeNamespace? := by
    funext a
    rw [attributeNamespace?_eq, attributeNamespace?_eq, attr?_setContent_element he]
  rw [usedNamespaces, hnamespaces] at hm
  rcases List.mem_append.1 hm with hm | hm
  · rcases List.mem_cons.1 hm with rfl | hm
    · exact .inl (List.mem_append_left _ List.mem_cons_self)
    · exact (mem_declaredWith hm).imp_left fun hm =>
        List.mem_append_left _ (List.mem_cons_of_mem _ hm)
  · exact .inl (List.mem_append_right _ hm)

theorem WellFormed.usedNamespaces_attributeSet {x : Attr} (hf : f.WellFormed)
    (hs : AttributeSet f g id e x) {m : Namespace}
    (hm : m ∈ g.usedNamespaces { e with
      attributes := replaced (f.attribute? id x.name x.ns.uri) x.id e.attributes }) :
    m ∈ f.usedNamespaces e ∨ m = x.ns := by
  rcases List.mem_append.1 hm with hm | hm
  · exact .inl (List.mem_append_left _ hm)
  obtain ⟨a, ha, hns⟩ := List.mem_filterMap.1 hm
  rw [attributeNamespace?_eq] at hns
  have hattribute := mem_attributes hs.content?_element ha
  rw [hs.mem_attributes, if_pos rfl] at hattribute
  rcases hattribute with rfl | ⟨ha, -⟩
  · rw [hs.attr?_new] at hns
    cases hns
    exact .inr rfl
  · obtain ⟨y, hy, -⟩ := hf.attribute_data ha
    rw [hs.attr?_old hy] at hns
    rw [attributes_of_content? hs.element] at ha
    refine .inl (List.mem_append_right _ (List.mem_filterMap.2 ⟨a, ha, ?_⟩))
    rw [attributeNamespace?_eq, hy, hns]

theorem checkPrefix_of_added {e' : ElementData} {m : Namespace}
    (hcheck : f.checkPrefix e ns = .ok ()) (hm : m.pfx = ns.pfx → m = ns)
    (hused : ∀ k ∈ g.usedNamespaces e', k ∈ f.usedNamespaces e ∨ k = m) :
    g.checkPrefix e' ns = .ok () := by
  rw [checkPrefix_eq_ok_iff] at hcheck ⊢
  intro k hk hp
  rcases hused k hk with hk | rfl
  · exact hcheck k hk hp
  · exact hm hp

/-- Two calls succeed in either order, and leave behind the same forest. -/
def InEitherOrder (f : Forest) (call call' : Call) : Prop :=
  ∃ g, Succeeding f [call, call'] g ∧ Succeeding f [call', call] g

/-- A declaration and an attribute that are both in order do not get in each other's way if they do
not bind one prefix in two ways. -/
theorem WellFormed.declare_setAttribute_inEitherOrder (hf : f.WellFormed)
    (he : f.content? id = some (.element e)) {name : String} (hname : name ≠ "" ∧ ':' ∉ name.toList)
    {value : Value} {text : String} (htext : f.textOf value = .ok text)
    (hdeclare : f.checkDeclaration e n = .ok ()) (hset : f.checkAttributeNamespace e ns = .ok ())
    (hn : n.pfx = ns.pfx → n = ns) :
    f.InEitherOrder (.declare id n) (.setAttribute id (some name) value ns) := by
  let x : Attr := ⟨f.nodes.size, name, text, ns⟩
  let e₁ : ElementData := { e with declared := declaredWith n e.declared }
  let e₂ : ElementData := { e with
    attributes := replaced (f.attribute? id name ns.uri) x.id e.attributes }
  let f₁ := f.setContent id (.element e₁)
  let f₂ := f.withAttribute id e x
  obtain ⟨hbare, hfree⟩ := checkAttributeNamespace_eq_ok_iff.1 hset
  have hs : AttributeSet f f₂ id e x := attributeSet_withAttribute he rfl hbare hfree
  have he₁ : f₁.content? id = some (.element e₁) :=
    (content?_setContent he _ id).trans (if_pos rfl)
  have he₂ : f₂.content? id = some (.element e₂) := hs.content?_element
  -- the attribute is in order after the declaration
  have hset₁ : f₁.checkAttributeNamespace e₁ ns = .ok () :=
    checkAttributeNamespace_eq_ok_iff.2 ⟨hbare, fun hp =>
      checkPrefix_of_added (hfree hp) hn fun _ => usedNamespaces_declared he⟩
  -- the declaration is in order after the attribute
  have hdeclare₂ : f₂.checkDeclaration e₂ n = .ok () := by
    unfold checkDeclaration at hdeclare ⊢
    split
    · rfl
    · next hbound =>
      rw [if_neg hbound] at hdeclare
      exact checkPrefix_of_added hdeclare (fun hp => (hn hp.symm).symm) fun _ =>
        hf.usedNamespaces_attributeSet hs
  have hsize : f₁.nodes.size = f.nodes.size := Array.size_modify
  have hs₁ : AttributeSet f₁ (f₁.withAttribute id e₁ x) id e₁ x := by
    obtain ⟨-, hfree₁⟩ := checkAttributeNamespace_eq_ok_iff.1 hset₁
    exact attributeSet_withAttribute he₁ hsize.symm hbare hfree₁
  refine ⟨f₁.withAttribute id e₁ x, .cons (g := f₁) ?_ (.cons ?_ .nil),
    .cons (g := f₂) ?_ (.cons ?_ .nil)⟩
  · rw [perform, declare_eq_ok_iff.2 ⟨e, he, hdeclare, rfl⟩]
    rfl
  · have htext₁ : f₁.textOf value = .ok text := by
      rw [textOf_redeclared _ he, htext]
    rw [perform, setAttribute_eq_ok_iff.2 ⟨e₁, name, text, he₁, ⟨rfl, hname⟩, hset₁, htext₁, rfl⟩,
      hsize]
    rfl
  · rw [perform, setAttribute_eq_ok_iff.2 ⟨e, name, text, he, ⟨rfl, hname⟩, hset, htext, rfl⟩]
    rfl
  · rw [perform, declare_eq_ok_iff.2 ⟨e₂, he₂, hdeclare₂, rfl⟩,
      eq_setContent_of_attributeSet hs hs₁]
    rfl

/-! ## After any edits -/

/-- Whatever has been declared and set on an element, it refuses the declarations that conflict with
what it has, and no others; a declaration and an attribute that do not conflict with it or with each
other can be made in either order. -/
theorem declaration_refused_iff (hf : f.Built) (he : f.content? id = some (.element e))
    (edits : List Edit) :
    let g := f.edited id edits
    (∀ n, (∃ fault, g.declare id n = .error fault) ↔ g.Refuses id n) ∧
      (∀ n fault, g.declare id n = .error fault →
        ∃ uri, uri ≠ n.uri ∧ fault = .prefixTaken n.pfx uri (e.ns.qualified e.name)) ∧
      ∀ (n ns : Namespace) (name : String) (value : Value) (text : String), ¬ g.Refuses id n →
        (ns.pfx = "" → ns = Namespace.none) → (ns.pfx ≠ "" → ¬ g.Clashes id ns) →
        name ≠ "" ∧ ':' ∉ name.toList → g.textOf value = .ok text → (n.pfx = ns.pfx → n = ns) →
          g.InEitherOrder (.declare id n) (.setAttribute id (some name) value ns) := by
  intro g
  obtain ⟨_, _, he'⟩ := content?_edited he edits
  have hg : g.WellFormed := (hf.edited id edits).wellFormed
  refine ⟨fun n => hg.declare_eq_error_iff he', fun n fault h => ?_, ?_⟩
  · have htaken := declare_eq_error he' h
    exact htaken
  · intro n ns name value text hn hbare hclash hname htext hsame
    exact hg.declare_setAttribute_inEitherOrder he' hname htext
      ((hg.checkDeclaration_iff he').2 hn)
      ((hg.checkAttributeNamespace_iff he').2 ⟨hbare, hclash⟩) hsame

/-- An element in a default namespace, without attributes. -/
def defaultElement : Forest :=
  ⟨#[⟨none, .element ⟨"r", ⟨"", "urn:d", by decide, by decide, by decide⟩, [], [], []⟩⟩]⟩

theorem defaultElement_built : defaultElement.Built :=
  Built.element .empty (rfl : Forest.newElement _ (some "r") _ = .ok (_, 0))

/-- A prefix that is declared can not be declared for another URI. A namespace can be declared
before or after an attribute in it. -/
theorem declaration_refused_iff_prefixed :
    let d : Namespace := ⟨"", "urn:d", by decide, by decide, by decide⟩
    let p : Namespace := ⟨"p", "urn:p", by decide, by decide, by decide⟩
    let q : Namespace := ⟨"q", "urn:q", by decide, by decide, by decide⟩
    let q' : Namespace := ⟨"q", "urn:other", by decide, by decide, by decide⟩
    let g := defaultElement.edited 0 [.declare q]
    defaultElement.Built ∧ defaultElement.content? 0 = some (.element ⟨"r", d, [], [], []⟩) ∧
      g.Refuses 0 q' ∧
      g.InEitherOrder (.declare 0 p) (.setAttribute 0 (some "x") (.text "v") p) := by
  intro d p q q' g
  have helement : defaultElement.content? 0 = some (.element ⟨"r", d, [], [], []⟩) := rfl
  obtain ⟨hrefused, -, horder⟩ :=
    declaration_refused_iff defaultElement_built helement [.declare q]
  have hedited : g.content? 0 = some (.element ⟨"r", d, [q], [], []⟩) := rfl
  have hdeclare : ¬ g.Refuses 0 p := by
    rw [← hrefused]
    rintro ⟨fault, h⟩
    cases h
  have hset : ¬ g.Clashes 0 p := by
    rw [clashes_iff hedited]
    decide
  exact ⟨defaultElement_built, helement, (hrefused q').1 ⟨_, rfl⟩,
    horder p p "x" (.text "v") "v" hdeclare (by decide) (fun _ => hset) (by decide) rfl
      (fun _ => rfl)⟩

/-- An attribute in no namespace binds no prefix. Still, once an element has one, it refuses even
the default namespace that it is in, which it lets be declared before. -/
theorem bare_attribute_refuses_default :
    let d : Namespace := ⟨"", "urn:d", by decide, by decide, by decide⟩
    let g := defaultElement.edited 0 [.setAttribute (some "x") (.text "v") Namespace.none]
    defaultElement.Built ∧ d ≠ Namespace.none ∧ d ≠ Namespace.xml ∧ g.Binds 0 d ∧
      ¬ g.Clashes 0 d ∧ g.declare 0 d = .error (.prefixTaken "" "" "r") ∧
      ∃ h, Succeeding defaultElement
        [.declare 0 d, .setAttribute 0 (some "x") (.text "v") Namespace.none] h := by
  intro d g
  have hedited : g.content? 0 = some (.element ⟨"r", d, [], [1], []⟩) := rfl
  refine ⟨defaultElement_built, by decide, by decide, .own hedited rfl, ?_, rfl, _,
    .cons rfl (.cons rfl .nil)⟩
  rw [clashes_iff hedited]
  decide

end TreeQuery.Forest
