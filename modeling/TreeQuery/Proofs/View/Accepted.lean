import TreeQuery.Proofs.Forest.Scope
import TreeQuery.Proofs.View.Top

/-!
# Accepted nodes

A node is accepted (`Forest.isAccepted`) if its names are names of XML, its values are texts that
its kind of node can hold, and its namespaces are bound to URIs. If all nodes of a tree are, a
navigator can be bound to them (`Navigator.bind_succeeds`).
-/

namespace TreeQuery

open Text

/-- A binding that a view can show. The URI stands in braces before names. -/
def Namespace.isAccepted (n : Namespace) : Bool :=
  (n.pfx == "" || isName n.pfx.toList) &&
    (n.uri == "" || Uri.isReference n.uri && isXmlText n.uri && !n.uri.toList.contains '\x7d')

namespace Forest

/-- Whether a view can show the names, values and namespaces of a node. -/
def isAccepted (f : Forest) (id : NodeId) : Bool :=
  match f.content? id with
  | some (.document _) => true
  | some (.element e) =>
    isName e.name.toList && (e.ns :: e.declared).all Namespace.isAccepted &&
      (e.attributes.filterMap f.attr?).all fun a =>
        isName a.name.toList && a.ns.isAccepted && isXmlText a.value
  | some (.text (.text s)) => isXmlText s
  | some (.comment (.text s)) =>
    isXmlText s && !Navigator.adjacent '-' '-' s.toList && s.toList.getLast? != some '-'
  | some (.instruction target data) =>
    isName target.toList && isXmlText data && !Navigator.adjacent '?' '>' data.toList
  | _ => false

variable {f : Forest} {id : NodeId}

theorem isAccepted_element {e : ElementData} (hx : f.content? id = some (.element e))
    (h : f.isAccepted id = true) :
    isName e.name.toList = true ∧ (∀ n ∈ e.ns :: e.declared, n.isAccepted = true) ∧
      ∀ a ∈ e.attributes.filterMap f.attr?,
        isName a.name.toList = true ∧ a.ns.isAccepted = true ∧ isXmlText a.value = true := by
  rw [isAccepted, hx] at h
  simp only [Bool.and_eq_true, and_assoc] at h
  exact ⟨h.1, List.all_eq_true.1 h.2.1, fun a ha => by
    have := List.all_eq_true.1 h.2.2 a ha
    rwa [Bool.and_eq_true, Bool.and_eq_true, and_assoc] at this⟩

theorem hasNames_of_isAccepted (h : f.isAccepted id = true) : f.hasNames id = true := by
  cases hx : f.content? id with
  | none => rw [hasNames, hx]
  | some x =>
    cases x with
    | element e =>
      obtain ⟨hname, -, hattributes⟩ := isAccepted_element hx h
      rw [hasNames, hx, Bool.and_eq_true, List.all_eq_true]
      exact ⟨hname, fun a ha => (hattributes a ha).1⟩
    | instruction target data =>
      rw [isAccepted, hx, Bool.and_eq_true, Bool.and_eq_true] at h
      rw [hasNames, hx]
      exact h.1.1
    | _ => rw [hasNames, hx]

theorem text_of_isAccepted {v : Value} (hx : f.content? id = some (.text v))
    (h : f.isAccepted id = true) :
    ∃ s, f.content? id = some (.text (.text s)) ∧ isXmlText s = true := by
  rw [isAccepted, hx] at h
  cases v with
  | text s => exact ⟨s, hx, h⟩
  | _ => cases h

end Forest

/-! ## Names and URIs -/

theorem isXmlChar_of_isNameChar {c : Char} (h : isNameChar c = true) : isXmlChar c = true := by
  have hranges : ∀ r ∈ nameStartRanges ++ nameExtraRanges,
      0x20 ≤ r.1 ∧ (r.2 < 0xFFFE ∨ 0xFFFF < r.1) := by decide
  rw [isNameChar, Bool.or_eq_true, Ranges.has_iff, Ranges.has_iff] at h
  have hc : ∃ r ∈ nameStartRanges ++ nameExtraRanges, r.1 ≤ c.toNat ∧ c.toNat ≤ r.2 := by
    simpa [or_and_right, exists_or] using h
  obtain ⟨r, hr, hle, hge⟩ := hc
  have := hranges r hr
  have hbounds : 0x20 ≤ c.toNat ∧ c.toNat ≠ 0xFFFE ∧ c.toNat ≠ 0xFFFF := by omega
  simp [isXmlChar, hbounds]

theorem isXmlText_append (s t : String) :
    isXmlText (s ++ t) = (isXmlText s && isXmlText t) := by
  rw [isXmlText, String.toList_append, List.all_append]
  rfl

theorem isXmlText_of_isName {s : String} (h : isName s.toList = true) : isXmlText s = true := by
  rw [isXmlText, List.all_eq_true]
  exact fun c hc => isXmlChar_of_isNameChar (isNameChar_of_mem h hc)

namespace Namespace

variable {ns : Namespace}

theorem isName_of_isAccepted (h : ns.isAccepted = true) (hp : ns.pfx ≠ "") :
    isName ns.pfx.toList = true := by
  rw [isAccepted, Bool.and_eq_true, Bool.or_eq_true, beq_iff_eq] at h
  exact h.1.resolve_left hp

theorem uri_of_isAccepted (h : ns.isAccepted = true) (hu : ns.uri ≠ "") :
    Uri.isReference ns.uri = true ∧ isXmlText ns.uri = true ∧ '\x7d' ∉ ns.uri.toList := by
  rw [isAccepted, Bool.and_eq_true, Bool.or_eq_true (_ == _) (_ && _), beq_iff_eq] at h
  have := h.2.resolve_left hu
  rw [Bool.and_eq_true, Bool.and_eq_true, Bool.not_eq_true', and_assoc] at this
  simpa using this

theorem isXmlText_clark (h : ns.isAccepted = true) {name : String}
    (hn : isName name.toList = true) : isXmlText (clark ns.uri name) = true := by
  unfold clark
  split
  · exact isXmlText_of_isName hn
  · next hu =>
    rw [isXmlText_append, isXmlText_append, isXmlText_append, (uri_of_isAccepted h hu).2.1,
      isXmlText_of_isName hn]
    decide

end Namespace

/-! ## Steps that succeed -/

namespace Navigator

variable {α β : Type} {n n' : Navigator} {f : Forest} {id : NodeId} {outer : List ViewLevel}

/-- A step that succeeds whatever is remembered. -/
def Succeeds (x : M α) : Prop := ∀ n, ∃ a n', x.run n = (.ok a, n')

theorem succeeds_pure (a : α) : Succeeds (pure a : M α) := fun n => ⟨a, n, rfl⟩

theorem Succeeds.bind {x : M α} {g : α → M β} (hx : Succeeds x) (hg : ∀ a, Succeeds (g a)) :
    Succeeds (x >>= g) := by
  intro n
  obtain ⟨a, m, h⟩ := hx n
  rw [run_bind_ok h]
  exact hg a m

/-- What follows may count on what a step has answered. -/
theorem Succeeds.bind_ok {x : M α} {g : α → M β} (hx : Succeeds x)
    (hg : ∀ {n a n'}, x.run n = (.ok a, n') → Succeeds (g a)) : Succeeds (x >>= g) := by
  intro n
  obtain ⟨a, m, h⟩ := hx n
  rw [run_bind_ok h]
  exact hg h m

theorem succeeds_remember (id : NodeId) : Succeeds (remember id) := fun _ => ⟨_, _, rfl⟩

theorem succeeds_checkText {s : String} (h : isXmlText s = true) : Succeeds (checkText s) := by
  rw [checkText, if_pos h]
  exact succeeds_pure ()

theorem succeeds_checkName {s : String} (h : isName s.toList = true) :
    Succeeds (checkName s) := by
  rw [checkName, if_pos h]
  exact succeeds_pure ()

theorem succeeds_readName {ns : Namespace} {name : String} (h : ns.isAccepted = true)
    (hn : isName name.toList = true) : Succeeds (readName (Namespace.clark ns.uri name)) := by
  have hclark : ExpandedName.ofClark? (Namespace.clark ns.uri name) = some ⟨ns.uri, name⟩ := by
    refine ExpandedName.ofClark?_clark hn ?_
    by_cases hu : ns.uri = ""
    · simp [hu]
    · exact (Namespace.uri_of_isAccepted h hu).2.2
  unfold readName
  rw [hclark]
  exact (succeeds_checkText (Namespace.isXmlText_clark h hn)).bind fun _ =>
    (succeeds_checkName hn).bind fun _ => succeeds_pure _

theorem succeeds_declareAll {uri : String} {bs : List (String × String)}
    (h : ∀ b ∈ bs, Uri.isReference b.2 = true ∧ isXmlText b.2 = true ∧
      (b.1 ≠ "" → isName b.1.toList = true)) (level : ViewLevel) :
    Succeeds (declareAll outer uri level bs) := by
  induction bs generalizing level with
  | nil => exact succeeds_pure level
  | cons b bs ih =>
    obtain ⟨href, htext, hname⟩ := h b List.mem_cons_self
    rw [declareAll_cons]
    refine Succeeds.bind ?_ fun _ => Succeeds.bind ?_ fun _ =>
      (succeeds_checkText htext).bind fun _ => ih (fun c hc => h c (List.mem_cons_of_mem _ hc)) _
    · rw [href]
      exact succeeds_pure ()
    · split
      · next hp => exact succeeds_checkName (hname (bne_iff_ne.1 hp))
      · exact succeeds_pure ()

theorem succeeds_elementLevel {ns : Namespace} {name : String} {introduced : List Namespace}
    (h : ns.isAccepted = true) (hi : ∀ n ∈ introduced, n.isAccepted = true) :
    Succeeds (elementLevel outer ⟨ns.uri, name⟩ introduced) := by
  have hdeclare : Succeeds (declareAll outer ns.uri ⟨[], none⟩ (declarations introduced)) := by
    refine succeeds_declareAll (fun b hb => ?_) _
    obtain ⟨n, hn, -, hu, rfl⟩ := mem_declarations.1 hb
    obtain ⟨href, htext, -⟩ := Namespace.uri_of_isAccepted (hi n hn) hu
    exact ⟨href, htext, Namespace.isName_of_isAccepted (hi n hn)⟩
  refine hdeclare.bind fun level => ?_
  split
  · exact succeeds_pure level
  · next hu =>
    rw [Bool.or_eq_true, not_or, decide_eq_true_iff] at hu
    simp only [(Namespace.uri_of_isAccepted h hu.1).1, Bool.not_true, Bool.false_eq_true, if_false]
    exact succeeds_pure _

theorem succeeds_buildAttributes {as : List Attr} (h : ∀ a ∈ as,
    isName a.name.toList = true ∧ a.ns.isAccepted = true ∧ isXmlText a.value = true)
    (level : ViewLevel) : Succeeds (buildAttributes outer level as) := by
  induction as generalizing level with
  | nil => exact succeeds_pure _
  | cons a as ih =>
    obtain ⟨hname, hns, hvalue⟩ := h a List.mem_cons_self
    exact (succeeds_readName hns hname).bind fun name => (succeeds_checkText hvalue).bind fun _ =>
      (ih (fun b hb => h b (List.mem_cons_of_mem _ hb)) _).bind fun _ => succeeds_pure _

theorem succeeds_addText {typeName : Value → String} {slot : Slot} {run : List (NodeId × Value)}
    (h : ∀ p ∈ run, ∃ s, p.2 = .text s ∧ isXmlText s = true) :
    Succeeds (addText typeName slot run) := by
  have hjoin (k : Nat) :
      ∃ s, Tree.join k typeName (run.map (·.2)) = .ok s ∧ isXmlText s = true := by
    induction run generalizing k with
    | nil => exact ⟨"", rfl, rfl⟩
    | cons p run ih =>
      obtain ⟨i, v⟩ := p
      obtain ⟨t, rfl, ht⟩ := h _ List.mem_cons_self
      obtain ⟨s, hs, hxml⟩ := ih (fun q hq => h q (List.mem_cons_of_mem _ hq)) (k + 1)
      refine ⟨t ++ s, ?_, by rw [isXmlText_append, ht, hxml]; rfl⟩
      rw [List.map_cons, Tree.join, hs]
      rfl
  obtain ⟨s, hs, hxml⟩ := hjoin 0
  unfold addText
  rw [hs]
  dsimp only
  rw [pure_bind]
  split
  · exact succeeds_pure none
  · refine (succeeds_checkText hxml).bind fun _ => ?_
    split
    · exact Succeeds.bind (fun n => ⟨(), _, rfl⟩) fun _ => succeeds_pure _
    · exact succeeds_pure _

/-! ## Building succeeds -/

theorem succeeds_buildContent {cs : List NodeId} (hf : f.WellFormed)
    (hc : ∀ c ∈ cs, (∃ s, f.content? c = some (.text (.text s)) ∧ isXmlText s = true) ∨
      (∀ i v, f.tree c ≠ .text i v) ∧ ∀ around, Succeeds (build f.typeName around (f.tree c)))
    {around : Surroundings} {slot : Slot} {run : List (NodeId × Value)}
    (hr : ∀ p ∈ run, ∃ s, p.2 = .text s ∧ isXmlText s = true) :
    Succeeds (buildContent f.typeName around slot run (cs.map f.tree)) := by
  induction cs generalizing slot run with
  | nil => exact (succeeds_addText hr).bind fun _ => succeeds_pure _
  | cons c cs ih =>
    have hrest := fun d hd => hc d (List.mem_cons_of_mem c hd)
    rw [List.map_cons]
    rcases hc c List.mem_cons_self with ⟨s, hx, hs⟩ | ⟨hno, hbuild⟩
    · rw [hf.tree_text hx, buildContent]
      refine ih hrest fun p hp => ?_
      rcases List.mem_append.1 hp with hp | hp
      · exact hr p hp
      · exact ⟨s, by rw [List.mem_singleton.1 hp], hs⟩
    · rw [buildContent_cons hno]
      exact (succeeds_addText hr).bind fun _ => (hbuild around).bind fun _ =>
        (ih hrest fun p hp => absurd hp List.not_mem_nil).bind fun _ => succeeds_pure _

theorem isAccepted_introduced {scope : List Namespace} {e : ElementData}
    (hns : ∀ n ∈ e.ns :: e.declared, n.isAccepted = true)
    (ha : ∀ a ∈ e.attributes.filterMap f.attr?, a.ns.isAccepted = true) {n : Namespace}
    (hn : n ∈ (extendScope scope (ownBindings e.ns e.declared
      (e.attributes.filterMap f.attr?))).filter fun b => !scope.contains b) :
    n.isAccepted = true := by
  rw [List.mem_filter, Bool.not_eq_true', List.contains_eq_mem, decide_eq_false_iff_not] at hn
  have hown := mem_own_of_introduced hn.1 hn.2
  rw [ownBindings, List.cons_append, ← List.cons_append, List.mem_append] at hown
  rcases hown with hown | hown
  · exact hns n hown
  · obtain ⟨a, hm, rfl⟩ := List.mem_map.1 (List.mem_of_mem_filter hown)
    exact ha a hm

theorem succeeds_build_element {e : ElementData} (hf : f.WellFormed)
    (hx : f.content? id = some (.element e)) (ha : ∀ x ∈ (f.tree id).ids, f.isAccepted x = true)
    (ih : ∀ c ∈ f.children id, f.IsViewed c → (∀ x ∈ (f.tree c).ids, f.isAccepted x = true) →
      ∀ around, Succeeds (build f.typeName around (f.tree c))) (around : Surroundings) :
    Succeeds (build f.typeName around (f.tree id)) := by
  have hk := Forest.class?_of_content? hx
  have hself := ha id (hf.self_mem_ids fun hattr => nomatch hk.symm.trans hattr)
  have hchildren (c) (hc : c ∈ e.children) :
      (∃ s, f.content? c = some (.text (.text s)) ∧ isXmlText s = true) ∨
        (∀ i v, f.tree c ≠ .text i v) ∧
          ∀ around, Succeeds (build f.typeName around (f.tree c)) := by
    have hc : c ∈ f.children id := Forest.children_of_content? hx ▸ hc
    have hbelow (x) (hx : x ∈ (f.tree c).ids) : f.isAccepted x = true :=
      ha x (hf.ids_subset_of_child hc hx)
    rcases hf.isViewed_or_text hk hc with hviewed | ⟨v, hv⟩
    · refine .inr ⟨fun i v ht => ?_, ih c hc hviewed hbelow⟩
      exact hviewed.content?_ne_text v (hf.content?_of_tree_text ht).2
    · refine .inl (Forest.text_of_isAccepted hv (hbelow c ?_))
      rw [hf.tree_text hv]
      exact List.mem_cons_self
  obtain ⟨hname, hns, hattributes⟩ := Forest.isAccepted_element hx hself
  rw [hf.tree_element hx, build]
  refine (succeeds_readName (hns _ List.mem_cons_self) hname).bind_ok fun hread => ?_
  rw [readName_eq_ok hname hread]
  exact (succeeds_elementLevel (hns _ List.mem_cons_self) fun n hn =>
      isAccepted_introduced hns (fun a ha => (hattributes a ha).2.1) hn).bind fun level =>
    (succeeds_remember id).bind fun view =>
      (succeeds_buildAttributes hattributes level).bind fun _ =>
        (succeeds_buildContent hf hchildren fun p hp => absurd hp List.not_mem_nil).bind
          fun _ => succeeds_pure _

theorem succeeds_build_comment {value : Value} (hf : f.WellFormed)
    (hx : f.content? id = some (.comment value)) (ha : f.isAccepted id = true)
    (around : Surroundings) : Succeeds (build f.typeName around (f.tree id)) := by
  rw [Forest.isAccepted, hx] at ha
  rw [hf.tree_comment hx, build]
  cases value with
  | text s =>
    simp only [Bool.and_eq_true, Bool.not_eq_true', bne_iff_ne, ne_eq] at ha
    refine ((succeeds_checkText ha.1.1).bind fun _ => succeeds_pure s).bind_ok fun hs => ?_
    rw [asText_eq_ok (v := .text s) hs, Value.characters, ha.1.2, beq_false_of_ne ha.2]
    exact (succeeds_remember id).bind fun _ => succeeds_pure _
  | _ => cases ha

theorem succeeds_build_instruction {target data : String} (hf : f.WellFormed)
    (hx : f.content? id = some (.instruction target data)) (ha : f.isAccepted id = true)
    (around : Surroundings) : Succeeds (build f.typeName around (f.tree id)) := by
  rw [Forest.isAccepted, hx] at ha
  rw [hf.tree_instruction hx, build]
  simp only [Bool.and_eq_true, Bool.not_eq_true'] at ha
  rw [ha.2]
  exact (succeeds_checkName ha.1.1).bind fun _ => (succeeds_checkText ha.1.2).bind
    fun _ => (succeeds_remember id).bind fun _ => succeeds_pure _

/-- The view of every node that is no text, attribute or document can be built if all below it is
accepted. -/
theorem succeeds_build (hf : f.WellFormed) (hid : f.IsViewed id)
    (ha : ∀ x ∈ (f.tree id).ids, f.isAccepted x = true) (around : Surroundings) :
    Succeeds (build f.typeName around (f.tree id)) := by
  induction id using hf.induction_up generalizing around with
  | _ id ih =>
    have hself := ha id (hf.self_mem_ids hid.class?_ne_attr)
    rcases hid.content? with ⟨e, hx⟩ | ⟨value, hx⟩ | ⟨target, data, hx⟩
    · exact succeeds_build_element hf hx ha ih around
    · exact succeeds_build_comment hf hx hself around
    · exact succeeds_build_instruction hf hx hself around

theorem succeeds_buildAll {ts : List Tree}
    (h : ∀ t ∈ ts, ∀ around, Succeeds (build f.typeName around t)) :
    Succeeds (buildAll f.typeName ts) := by
  induction ts with
  | nil => exact succeeds_pure []
  | cons t ts ih =>
    exact (h t List.mem_cons_self _).bind fun _ =>
      (ih fun u hu => h u (List.mem_cons_of_mem _ hu)).bind fun _ => succeeds_pure _

theorem succeeds_modify (change : Navigator → Navigator) : Succeeds (modify change : M Unit) :=
  fun _ => ⟨_, _, rfl⟩

theorem succeeds_buildTop {top : NodeId} (hf : f.WellFormed)
    (htop : f.class? top = some .document ∨ f.IsViewed top)
    (ha : ∀ x ∈ (f.tree top).ids, f.isAccepted x = true) :
    Succeeds (buildTop f.typeName (f.tree top)) := by
  rcases htop with hd | hviewed
  · have hchildren (t) (ht : t ∈ (f.children top).map f.tree) (around) :
        Succeeds (build f.typeName around t) := by
      obtain ⟨c, hc, rfl⟩ := List.mem_map.1 ht
      exact succeeds_build hf (hf.isViewed_of_document hd hc)
        (fun x hx => ha x (hf.ids_subset_of_child hc hx)) around
    obtain ⟨cs, hx⟩ := Forest.exists_document hd
    rw [Forest.children_of_content? hx] at hchildren
    rw [hf.tree_document hx, buildTop]
    split
    · exact succeeds_pure ()
    · next root after hdrop =>
      have hmem : root :: after ⊆ cs.map f.tree := hdrop ▸ List.dropWhile_subset _
      refine (hchildren root (hmem List.mem_cons_self) _).bind fun _ => ?_
      refine (succeeds_buildAll fun t ht => hchildren t ?_).bind fun _ => ?_
      · exact List.takeWhile_subset _ ht
      refine (succeeds_buildAll fun t ht => hchildren t ?_).bind fun _ => succeeds_modify _
      exact hmem (List.mem_cons_of_mem _ (List.mem_reverse.1 ht))
  · unfold buildTop
    split
    · next ht => exact absurd ht (hf.tree_ne_document hviewed)
    · exact (succeeds_build hf hviewed ha _).bind fun _ => succeeds_modify _

/-- A navigator can be bound to every node of a tree of accepted nodes that has a view. -/
theorem bind_succeeds {context : Value} {r : NodeId} (hf : f.WellFormed)
    (hc : contextNode f context = .ok id) (htop : contextNode f (.node (f.root id)) = .ok r)
    (ha : ∀ x ∈ (f.tree (f.root id)).ids, f.isAccepted x = true) (n : Navigator) :
    ∃ n', (Navigator.bind f context).run n = (.ok (), n') := by
  obtain ⟨u, m, hbuild⟩ :=
    succeeds_buildTop hf ((contextNode_eq_ok.1 htop).imp And.left And.left) ha n.reset
  have hviewed := isViewed_of_contextNode hc
  have hmem : id ∈ (f.tree (f.root id)).ids := hf.mem_ids_root hviewed.class?_ne_attr
  have htraces := (buildTop_eq_ok hf (tidy_reset n) (fun _ _ => rfl) hbuild).resolve_left
    fun h => h.2 r htop
  obtain ⟨v, hv⟩ := (htraces.accounts hf hmem).viewed hviewed
  have hview : (viewOf f id).run n.reset = (.ok v, m) :=
    run_viewOf_of_buildTop hviewed.class?_ne_document rfl hbuild (htraces.tidy.inverse.1 hv)
  have hreset : (modify reset : M Unit).run n = (.ok (), n.reset) := rfl
  have hnode : (ExceptT.mk (pure (contextNode f context)) : M NodeId).run n.reset =
      (.ok id, n.reset) := by
    rw [hc]
    rfl
  obtain ⟨_, n', hlast⟩ := succeeds_modify (fun n => { n with
    context := some v
    scope := ((scopeElement? f id).map (scopeOf f)).getD [] }) m
  refine ⟨n', ?_⟩
  unfold Navigator.bind
  rw [run_bind_ok hreset, run_bind_ok hnode, run_bind_ok hview]
  exact hlast

end Navigator

end TreeQuery
