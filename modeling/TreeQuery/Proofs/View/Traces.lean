import TreeQuery.Proofs.Forest.Reading
import TreeQuery.Proofs.View.Memory

/-!
# Traces of building

Building the view of a tree leaves a view of every node that has one and nothing else, and every
part of the view can be taken back to the tree (`Forest.WellFormed.traces`). None of this depends on
the names of the nodes; what names do to attributes is kept in `Navigator.Resolves`.
-/

namespace TreeQuery

namespace Forest

variable {f : Forest} {id p c : NodeId}

/-- A node that has a view of its own. -/
def IsViewed (f : Forest) (id : NodeId) : Prop :=
  f.class? id = some .element ∨ f.class? id = some .comment ∨ f.class? id = some .instruction

theorem IsViewed.content? (h : f.IsViewed id) :
    (∃ e, f.content? id = some (.element e)) ∨ (∃ v, f.content? id = some (.comment v)) ∨
      ∃ target data, f.content? id = some (.instruction target data) := by
  rw [IsViewed, class?] at h
  cases hx : f.content? id with
  | none => simp [hx] at h
  | some x =>
    cases x with
    | element e => exact .inl ⟨e, rfl⟩
    | comment v => exact .inr (.inl ⟨v, rfl⟩)
    | instruction target data => exact .inr (.inr ⟨target, data, rfl⟩)
    | document | attr | text => simp [hx, Content.nodeClass] at h

theorem IsViewed.class?_ne_document (h : f.IsViewed id) : f.class? id ≠ some .document := by
  intro hd
  rcases h with h | h | h <;> cases h.symm.trans hd

theorem IsViewed.class?_ne_attr (h : f.IsViewed id) : f.class? id ≠ some .attr := by
  intro ha
  rcases h with h | h | h <;> cases h.symm.trans ha

theorem IsViewed.content?_ne_text (h : f.IsViewed id) (value : Value) :
    f.content? id ≠ some (.text value) := by
  intro ht
  have hc := class?_of_content? ht
  rcases h with h | h | h <;> cases hc.symm.trans h

theorem WellFormed.isViewed_or_text (h : WellFormed f) (hp : f.class? p = some .element)
    (hc : c ∈ f.children p) : f.IsViewed c ∨ ∃ v, f.content? c = some (.text v) := by
  obtain ⟨k, hk, -, hin⟩ := h.class_of_child hc
  have hin := hin hp
  obtain ⟨x, hx, rfl⟩ := Option.map_eq_some_iff.1 hk
  rw [IsViewed, hk]
  cases x with
  | element | comment | instruction => simp [Content.nodeClass]
  | text v => exact .inr ⟨v, hx⟩
  | document | attr => cases hin

theorem WellFormed.isViewed_of_document (h : WellFormed f) (hp : f.class? p = some .document)
    (hc : c ∈ f.children p) : f.IsViewed c := by
  obtain ⟨k, hk, hin, -⟩ := h.class_of_child hc
  have hin := hin hp
  rw [IsViewed, hk]
  cases k with
  | element | comment | instruction => simp
  | _ => cases hin

theorem WellFormed.nodeClass_of_tree_document {i : NodeId} {ts : List Tree} {x : Content}
    (h : WellFormed f) (ht : f.tree id = .document i ts) (hx : f.content? id = some x) :
    x.nodeClass = .document := by
  rw [h.tree_eq, layer, hx] at ht
  cases x with
  | document => rfl
  | _ => cases ht

theorem WellFormed.tree_ne_document {i : NodeId} {ts : List Tree} (h : WellFormed f)
    (hv : f.IsViewed id) : f.tree id ≠ .document i ts := by
  intro ht
  rw [IsViewed, class?] at hv
  cases hx : f.content? id with
  | none => simp [hx] at hv
  | some x => simp [hx, h.nodeClass_of_tree_document ht hx] at hv

end Forest

namespace XPath.Branch

mutual

/-- The results that stand for the parts of a view: its nodes, attributes and texts. -/
def items : Branch → List RawItem
  | .element v data cs =>
    .view v :: data.attributes.map (fun a => .attr v a.name.clark a.value) ++ itemsAll cs
  | .text slot s => [.text slot s]
  | .comment v _ | .instruction v _ _ => [.view v]

def itemsAll : List Branch → List RawItem
  | [] => []
  | b :: bs => b.items ++ itemsAll bs

end

theorem mem_itemsAll {bs : List Branch} {i : RawItem} :
    i ∈ itemsAll bs ↔ ∃ b ∈ bs, i ∈ b.items := by
  induction bs with
  | nil => simp [itemsAll]
  | cons b bs ih => simp [itemsAll, ih]

theorem ofView_withTail (v : View) (tail : Option String) :
    ofView (v.withTail tail) = ofView v := by
  cases v <;> rfl

end XPath.Branch

namespace Navigator

open XPath (Branch)

variable {f : Forest} {n n' m : Navigator} {around : Surroundings} {slot : Slot} {id c : NodeId}
  {typeName : Value → String} {run : List (NodeId × Value)} {v : View} {i : RawItem}

theorem id_withTail (v : View) (tail : Option String) : (v.withTail tail).id = v.id := by
  cases v <;> rfl

theorem tail_withTail (v : View) (tail : Option String) : (v.withTail tail).tail = tail := by
  cases v <;> rfl

/-! ## Inversions -/

/-- What building the view of an element does, step by step. -/
theorem build_element_eq_ok {name : String} {ns : Namespace} {declared : List Namespace}
    {as : List Attr} {cs : List Tree}
    (h : (build typeName around (.element id name ns declared as cs)).run n = (.ok v, n')) :
    ∃ expanded level level' vas text views,
      (readName (Namespace.clark ns.uri name)).run n = (.ok expanded, n) ∧
      (elementLevel around.levels expanded
        ((extendScope around.scope (ownBindings ns declared as)).filter fun b =>
          !around.scope.contains b)).run n = (.ok level, n) ∧
      (buildAttributes around.levels level as).run (n.remembered id) =
        (.ok (level', vas), n.remembered id) ∧
      (buildContent typeName
        ⟨extendScope around.scope (ownBindings ns declared as), level' :: around.levels⟩
        ⟨n.next, false⟩ [] cs).run (n.remembered id) = (.ok (text, views), n') ∧
      v = .element n.next
        ⟨expanded, (level'.own.map (·.1)).getD "", level'.declared, vas⟩ text views none := by
  unfold build at h
  obtain ⟨expanded, m₁, hname, h₁⟩ := run_bind_eq_ok h
  obtain rfl := (checks_readName _).eq hname
  obtain ⟨level, m₂, hlevel, h₂⟩ := run_bind_eq_ok h₁
  obtain rfl := (checks_elementLevel _ _ _).eq hlevel
  rw [run_bind_ok (run_remember m₂ id)] at h₂
  obtain ⟨⟨level', vas⟩, m₃, hattr, h₃⟩ := run_bind_eq_ok h₂
  obtain rfl := (checks_buildAttributes _ _ _).eq hattr
  obtain ⟨⟨text, views⟩, m₄, hcontent, h₄⟩ := run_bind_eq_ok h₃
  cases h₄
  exact ⟨expanded, level, level', vas, text, views, hname, hlevel, hattr, hcontent, rfl⟩

theorem build_comment_eq_ok {value : Value}
    (h : (build typeName around (.comment id value)).run n = (.ok v, n')) :
    v = .comment n.next value.characters none ∧ n' = n.remembered id := by
  unfold build at h
  obtain ⟨s, m₁, hs, h₁⟩ := run_bind_eq_ok h
  obtain rfl := (checks_asText _).eq hs
  obtain rfl := asText_eq_ok hs
  split at h₁
  · cases h₁
  · cases h₁
    exact ⟨rfl, rfl⟩

theorem build_instruction_eq_ok {target data : String}
    (h : (build typeName around (.instruction id target data)).run n = (.ok v, n')) :
    v = .instruction n.next target data none ∧ n' = n.remembered id := by
  unfold build at h
  obtain ⟨_, m₁, hname, h₁⟩ := run_bind_eq_ok h
  obtain rfl := (checks_checkName _).eq hname
  obtain ⟨_, m₂, htext, h₂⟩ := run_bind_eq_ok h₁
  obtain rfl := (checks_checkText _).eq htext
  split at h₂
  · cases h₂
  · cases h₂
    exact ⟨rfl, rfl⟩

theorem isViewed_of_build (hf : f.WellFormed)
    (h : (build typeName around (f.tree id)).run n = (.ok v, n')) : f.IsViewed id := by
  cases hx : f.content? id with
  | none =>
    rw [hf.tree_eq, Forest.WellFormed.layer, hx] at h
    cases h
  | some x =>
    have hclass := Forest.class?_of_content? hx
    cases x with
    | element e => exact .inl hclass
    | comment value => exact .inr (.inl hclass)
    | instruction target data => exact .inr (.inr hclass)
    | document cs =>
      rw [hf.tree_document hx] at h
      cases h
    | attr name value ns =>
      rw [hf.tree_eq, Forest.WellFormed.layer, hx] at h
      cases h
    | text value =>
      rw [hf.tree_text hx] at h
      cases h

theorem buildContent_cons {t : Tree} (ht : ∀ i v, t ≠ .text i v) (ts : List Tree) :
    buildContent typeName around slot run (t :: ts) = (do
      let text ← addText typeName slot run
      let view ← build typeName around t
      let (tail, views) ← buildContent typeName around ⟨view.id, true⟩ [] ts
      return (text, view.withTail tail :: views)) := by
  rw [buildContent]
  exact ht

/-! ## What can be taken back -/

/-- What of a view can be taken back to the tree. The attribute of a view has the name that is read
off the Clark name of an attribute of its element. -/
inductive Resolves (n : Navigator) (f : Forest) : RawItem → Prop where
  | view {v : ViewId} {id : NodeId} : n.nodes.lookup v = some id → Resolves n f (.view v)
  | text {slot : Slot} {s : String} {id : NodeId} : n.texts.lookup slot = some id →
      Resolves n f (.text slot s)
  | attr {v : ViewId} {id a : NodeId} {x : Attr} {name : ExpandedName} {s : String} :
      n.nodes.lookup v = some id → a ∈ f.attributes id → f.attr? a = some x →
      ExpandedName.ofClark? (Namespace.clark x.ns.uri x.name) = some name →
      Text.isName name.localName.toList = true → Resolves n f (.attr v name.clark s)

theorem Resolves.mono (h : Resolves n f i) (hk : Knows n m) : Resolves m f i := by
  cases h with
  | view hv => exact .view (hk.nodes hv)
  | text hs => exact .text (hk.texts hs)
  | attr hv ha hx hread hn => exact .attr (hk.nodes hv) ha hx hread hn

/-- What is known of a node of a tree that has a view: a text is text, and what has a view of its
own can be taken back from it. -/
structure Accounts (f : Forest) (n : Navigator) (x : NodeId) : Prop where
  legible : ∀ {value}, f.content? x = some (.text value) → ∃ s, value = .text s
  viewed : f.IsViewed x → ∃ v, n.nodes.lookup v = some x

theorem Accounts.mono {x : NodeId} (h : Accounts f n x) (hk : Knows n n') : Accounts f n' x :=
  ⟨h.legible, fun hx => (h.viewed hx).imp fun _ => hk.nodes⟩

/-- The only views that are added are views of nodes that have one of their own. -/
def AddsViewed (f : Forest) (n n' : Navigator) : Prop :=
  ∀ v x, n'.nodes.lookup v = some x → n.nodes.lookup v = some x ∨ f.IsViewed x

theorem AddsViewed.refl (f : Forest) (n : Navigator) : AddsViewed f n n := fun _ _ => .inl

theorem AddsViewed.trans (h : AddsViewed f n n') (h' : AddsViewed f n' m) : AddsViewed f n m :=
  fun v x hv => (h' v x hv).elim (h v x) .inr

theorem addsViewed_remembered (h : f.IsViewed id) : AddsViewed f n (n.remembered id) := by
  intro v x hv
  rw [nodes_remembered] at hv
  split at hv
  · cases hv
    exact .inr h
  · exact .inl hv

theorem grows_addText {text : Option String} (ht : Tidy n) (hs : slot.view < n.next)
    (hb : n.texts.lookup slot = none) (h : (addText typeName slot run).run n = (.ok text, n')) :
    Tidy n' ∧ n'.next = n.next ∧ n'.nodes = n.nodes ∧ Grows (some slot) [] n n' := by
  obtain ⟨-, ⟨-, rfl, -⟩ | ⟨i, s, -, -, rfl, -⟩⟩ := addText_eq_ok h
  · exact ⟨ht, rfl, rfl, .refl _ _ _⟩
  · exact ⟨ht.withText hs i, rfl, rfl, grows_withText hb i⟩

/-- The text of a view, if it has any, can be taken back. -/
theorem resolves_textNodes {text : Option String}
    (h : (addText typeName slot run).run n = (.ok text, n')) {b : Branch}
    (hb : b ∈ Branch.textNodes slot text) : ∀ i ∈ b.items, Resolves n' f i := by
  obtain ⟨-, ⟨rfl, -, -⟩ | ⟨x, s, rfl, hs, rfl, -⟩⟩ := addText_eq_ok h
  · cases hb
  · rw [Branch.textNodes, if_neg hs, List.mem_singleton] at hb
    subst hb
    intro i hi
    obtain rfl := List.mem_singleton.1 hi
    have hx : (n.withText slot x).texts.lookup slot = some x :=
      (texts_withText n slot slot x).trans (if_pos rfl)
    exact .text hx

theorem name_of_mem_buildAttributes {outer : List ViewLevel} {level level' : ViewLevel}
    {as : List Attr} {vas : List ViewAttribute}
    (h : (buildAttributes outer level as).run n = (.ok (level', vas), n')) {a : ViewAttribute}
    (ha : a ∈ vas) :
    ∃ x ∈ as, ExpandedName.ofClark? (Namespace.clark x.ns.uri x.name) = some a.name ∧
      Text.isName a.name.localName.toList = true := by
  induction as generalizing level vas n with
  | nil =>
    cases h
    cases ha
  | cons x as ih =>
    obtain ⟨name, m, hname, h⟩ := run_bind_eq_ok h
    obtain ⟨-, m', -, h⟩ := run_bind_eq_ok h
    obtain ⟨⟨level₁, rest⟩, m₁, hrest, h⟩ := run_bind_eq_ok h
    cases h
    rcases List.mem_cons.1 ha with rfl | ha
    · refine ⟨x, List.mem_cons_self, ?_⟩
      obtain ⟨-, m₂, -, hname⟩ := run_bind_eq_ok hname
      split at hname
      · next y hy =>
        obtain ⟨_, m₃, hcheck, hname⟩ := run_bind_eq_ok hname
        cases hname
        exact ⟨hy, isName_of_checkName hcheck⟩
      · cases hname
    · obtain ⟨y, hy, hread⟩ := ih hrest (List.mem_of_mem_filter ha)
      exact ⟨y, List.mem_cons_of_mem _ hy, hread⟩

/-! ## Traces -/

/-- What building a view of a node leaves behind. -/
structure Traces (f : Forest) (id : NodeId) (n n' : Navigator) (v : View) : Prop where
  tidy : Tidy n'
  grows : Grows none (f.tree id).ids n n'
  ge : n.next ≤ v.id
  lt : v.id < n'.next
  shows : n'.nodes.lookup v.id = some id
  blank : n'.texts.lookup ⟨v.id, true⟩ = none
  accounts : ∀ x ∈ (f.tree id).ids, Accounts f n' x
  adds : AddsViewed f n n'
  items : ∀ i ∈ (Branch.ofView v).items, Resolves n' f i

/-- Whenever a view of a node is built while nothing below it has one, this is what it leaves. -/
def LeavesTraces (f : Forest) (id : NodeId) : Prop :=
  ∀ {around : Surroundings} {n n' : Navigator} {v : View}, Tidy n →
    (∀ x ∈ (f.tree id).ids, n.views.lookup x = none) →
    (build f.typeName around (f.tree id)).run n = (.ok v, n') → Traces f id n n' v

/-- A part of a view that was built of a node while nothing in the node's tree had a view. -/
def Made (f : Forest) (around : Surroundings) (id : NodeId) (m : Navigator) (b : Branch) : Prop :=
  ∃ n n' v, Tidy n ∧ (∀ x ∈ (f.tree id).ids, n.views.lookup x = none) ∧
    (build f.typeName around (f.tree id)).run n = (.ok v, n') ∧ Knows n' m ∧ b = .ofView v

theorem Made.mono {b : Branch} (h : Made f around id n b) (hk : Knows n m) :
    Made f around id m b := by
  obtain ⟨n₁, n₂, v, ht, hnew, hbuild, hknows, hb⟩ := h
  exact ⟨n₁, n₂, v, ht, hnew, hbuild, hknows.trans hk, hb⟩

/-- All that is made of a node can be taken back to it. -/
theorem Made.items {b : Branch} (h : Made f around id m b) (hl : LeavesTraces f id) :
    ∀ i ∈ b.items, Resolves m f i := by
  obtain ⟨n₁, n₂, v, ht, hnew, hbuild, hknows, rfl⟩ := h
  exact fun i hi => ((hl ht hnew hbuild).items i hi).mono hknows

/-- The view that is made of a node shows it. -/
theorem Made.shows (h : Made f around id m (.ofView v)) (hl : LeavesTraces f id) :
    m.nodes.lookup v.id = some id := by
  obtain ⟨n₁, n₂, w, ht, hnew, hbuild, hknows, hw⟩ := h
  have hid : v.id = w.id := by cases v <;> cases w <;> simp_all [Branch.ofView, View.id]
  exact hid ▸ hknows.nodes (hl ht hnew hbuild).shows

theorem Made.accounts {b : Branch} (h : Made f around id m b) (hl : LeavesTraces f id) :
    ∀ x ∈ (f.tree id).ids, Accounts f m x := by
  obtain ⟨n₁, n₂, v, ht, hnew, hbuild, hknows, -⟩ := h
  exact fun x hx => ((hl ht hnew hbuild).accounts x hx).mono hknows

/-- How the content of an element's view is built of the children `cs`, which have no views before:
texts are collected, and what is no text ends the run of those before it. -/
inductive Fills (f : Forest) (around : Surroundings) : Slot → List (NodeId × Value) → List NodeId →
    Navigator → Navigator → Option String → List View → Prop where
  | last {slot : Slot} {run : List (NodeId × Value)} {n n' : Navigator} {text : Option String} :
      (addText f.typeName slot run).run n = (.ok text, n') →
      Fills f around slot run [] n n' text []
  | text {slot : Slot} {run : List (NodeId × Value)} {c : NodeId} {value : Value}
      {cs : List NodeId} {n n' : Navigator} {text : Option String} {views : List View} :
      f.content? c = some (.text value) →
      Fills f around slot (run ++ [(c, value)]) cs n n' text views →
      Fills f around slot run (c :: cs) n n' text views
  | node {slot : Slot} {run : List (NodeId × Value)} {c : NodeId} {cs : List NodeId}
      {n m m' n' : Navigator} {text tail : Option String} {view : View} {views : List View} :
      (addText f.typeName slot run).run n = (.ok text, m) → Tidy m →
      (∀ x ∈ (f.tree c).ids, m.views.lookup x = none) →
      (build f.typeName around (f.tree c)).run m = (.ok view, m') → Knows m' n' →
      Fills f around ⟨view.id, true⟩ [] cs m' n' tail views →
      Fills f around slot run (c :: cs) n n' text (view.withTail tail :: views)

/-- What building the content of an element's view leaves behind. -/
structure TracesContent (f : Forest) (around : Surroundings) (slot : Slot)
    (run : List (NodeId × Value)) (cs : List NodeId) (n n' : Navigator) (text : Option String)
    (views : List View) : Prop where
  fills : Fills f around slot run cs n n' text views
  tidy : Tidy n'
  grows : Grows (some slot) (Tree.idsAll (cs.map f.tree)) n n'
  legible : ∀ p ∈ run, ∃ s, p.2 = .text s
  accounts : ∀ x ∈ Tree.idsAll (cs.map f.tree), Accounts f n' x
  adds : AddsViewed f n n'
  items : ∀ i ∈ Branch.itemsAll (Branch.textNodes slot text ++ Branch.ofViews views),
    Resolves n' f i

/-- A text joins the run before it. -/
theorem TracesContent.text {value : Value} {cs : List NodeId} {text : Option String}
    {views : List View} (hf : f.WellFormed) (hx : f.content? c = some (.text value))
    (h : TracesContent f around slot (run ++ [(c, value)]) cs n n' text views) :
    TracesContent f around slot run (c :: cs) n n' text views where
  fills := .text hx h.fills
  tidy := h.tidy
  grows := h.grows.mono (List.subset_append_right _ _)
  legible p hp := h.legible p (List.mem_append_left _ hp)
  accounts x hm := by
    rw [List.map_cons, Tree.idsAll, List.mem_append] at hm
    rcases hm with hm | hm
    · rw [hf.tree_text hx, Tree.ids, List.mem_singleton] at hm
      subst hm
      refine ⟨fun hvalue => ?_, fun hviewed => ?_⟩
      · cases hx.symm.trans hvalue
        exact h.legible (x, value) (List.mem_append_right _ List.mem_cons_self)
      · exact absurd hx (hviewed.content?_ne_text value)
    · exact h.accounts x hm
  adds := h.adds
  items := h.items

/-- What is no text ends the run, and its own tail begins the next. -/
theorem TracesContent.node {cs : List NodeId} {m₁ m₂ : Navigator} {text tail : Option String}
    {views : List View} (ht : Tidy n) (hs : slot.view < n.next)
    (hb : n.texts.lookup slot = none) (htext : (addText f.typeName slot run).run n = (.ok text, m₁))
    (hnew : ∀ x ∈ (f.tree c).ids, m₁.views.lookup x = none)
    (hview : (build f.typeName around (f.tree c)).run m₁ = (.ok v, m₂))
    (htraces : Traces f c m₁ m₂ v)
    (hrest : TracesContent f around ⟨v.id, true⟩ [] cs m₂ n' tail views) :
    TracesContent f around slot run (c :: cs) n n' text (v.withTail tail :: views) := by
  obtain ⟨htidy, hnext, hnodes, hgrows⟩ := grows_addText ht hs hb htext
  have hknows := hrest.grows.knows
  refine ⟨.node htext htidy hnew hview hknows hrest.fills, hrest.tidy, ?_,
    (addText_eq_ok htext).1, fun x hm => ?_, ?_, fun i hi => ?_⟩
  · refine (hgrows.trans htraces.grows (by rintro _ ⟨⟩)).trans hrest.grows fun s he => .inl ?_
    cases he
    exact hnext ▸ htraces.ge
  · rw [List.map_cons, Tree.idsAll, List.mem_append] at hm
    rcases hm with hm | hm
    · exact (htraces.accounts x hm).mono hknows
    · exact hrest.accounts x hm
  · have hadds : AddsViewed f n m₁ := fun _ _ hv => .inl (hnodes ▸ hv)
    exact (hadds.trans htraces.adds).trans hrest.adds
  · rw [Branch.ofViews, Branch.ofView_withTail, id_withTail, tail_withTail,
      Branch.mem_itemsAll] at hi
    obtain ⟨b, hb, hi⟩ := hi
    rw [List.mem_append, List.mem_cons] at hb
    rcases hb with hb | rfl | hb
    · exact (resolves_textNodes htext hb i hi).mono (htraces.grows.knows.trans hknows)
    · exact (htraces.items i hi).mono hknows
    · exact hrest.items i (Branch.mem_itemsAll.2 ⟨b, hb, hi⟩)

theorem traces_content (hf : f.WellFormed) {cs : List NodeId}
    (hc : ∀ c ∈ cs, LeavesTraces f c) {text : Option String} {views : List View} (ht : Tidy n)
    (hs : slot.view < n.next) (hb : n.texts.lookup slot = none)
    (hnew : ∀ x ∈ Tree.idsAll (cs.map f.tree), n.views.lookup x = none)
    (hnodup : (Tree.idsAll (cs.map f.tree)).Nodup)
    (h : (buildContent f.typeName around slot run (cs.map f.tree)).run n =
      (.ok (text, views), n')) :
    TracesContent f around slot run cs n n' text views := by
  induction cs generalizing slot run n text views with
  | nil =>
    obtain ⟨text', m, htext, h⟩ := run_bind_eq_ok h
    cases h
    obtain ⟨htidy, -, hnodes, hgrows⟩ := grows_addText ht hs hb htext
    refine ⟨.last htext, htidy, hgrows, (addText_eq_ok htext).1, List.forall_mem_nil _,
      fun _ _ hv => .inl (hnodes ▸ hv), fun i hi => ?_⟩
    rw [Branch.ofViews, List.append_nil, Branch.mem_itemsAll] at hi
    obtain ⟨b, hb, hi⟩ := hi
    exact resolves_textNodes htext hb i hi
  | cons c cs ih =>
    obtain ⟨hc, hrest⟩ := List.forall_mem_cons.1 hc
    rw [List.map_cons, Tree.idsAll] at hnew hnodup
    obtain ⟨-, hnodup', hdisjoint⟩ := List.nodup_append.1 hnodup
    rw [List.map_cons] at h
    by_cases hx : ∃ value, f.content? c = some (.text value)
    · obtain ⟨value, hx⟩ := hx
      rw [hf.tree_text hx] at h
      exact .text hf hx
        (ih hrest ht hs hb (fun x hx => hnew x (List.mem_append_right _ hx)) hnodup' h)
    · have hno : ∀ i value, f.tree c ≠ .text i value := fun i value he =>
        hx ⟨value, (hf.content?_of_tree_text he).2⟩
      rw [buildContent_cons hno] at h
      obtain ⟨first, m₁, hfirst, h₁⟩ := run_bind_eq_ok h
      obtain ⟨view, m₂, hview, h₂⟩ := run_bind_eq_ok h₁
      obtain ⟨⟨tail, others⟩, m₃, hothers, h₃⟩ := run_bind_eq_ok h₂
      cases h₃
      obtain ⟨htidy, -, -, hgrows⟩ := grows_addText ht hs hb hfirst
      have hnew₁ (x) (hx : x ∈ (f.tree c).ids ++ Tree.idsAll (cs.map f.tree)) :
          m₁.views.lookup x = none := by
        rw [hgrows.others x List.not_mem_nil, hnew x hx]
      have hnewc (x) (hx : x ∈ (f.tree c).ids) : m₁.views.lookup x = none :=
        hnew₁ x (List.mem_append_left _ hx)
      have htraces := hc htidy hnewc hview
      -- building the view of a child leaves the children after it without views
      have hnew₂ (x) (hx : x ∈ Tree.idsAll (cs.map f.tree)) : m₂.views.lookup x = none := by
        rw [htraces.grows.others x fun hx' => hdisjoint x hx' x hx rfl]
        exact hnew₁ x (List.mem_append_right _ hx)
      exact .node ht hs hb hfirst hnewc hview htraces
        (ih hrest htraces.tidy htraces.lt htraces.blank hnew₂ hnodup' hothers)

theorem Tidy.traces_leaf (ht : Tidy n) (hnew : n.views.lookup id = none)
    (hids : (f.tree id).ids = [id]) (hviewed : f.IsViewed id) (hv : v.id = n.next)
    (hitems : (Branch.ofView v).items = [.view n.next]) :
    Traces f id n (n.remembered id) v where
  tidy := ht.remembered hnew
  grows := hids ▸ ht.grows_remembered id
  ge := hv.ge
  lt := hv ▸ Nat.lt_succ_self _
  shows := hv ▸ n.lookup_remembered id
  blank := hv ▸ ht.blank_remembered id true
  accounts := fun x hx => by
    rw [hids, List.mem_singleton] at hx
    subst hx
    exact ⟨fun hx => absurd hx (hviewed.content?_ne_text _),
      fun _ => ⟨n.next, n.lookup_remembered _⟩⟩
  adds := addsViewed_remembered hviewed
  items := fun i hi => by
    rw [hitems, List.mem_singleton] at hi
    subst hi
    exact .view (n.lookup_remembered id)

theorem exists_content_of_build {e : ElementData} (hf : f.WellFormed)
    (he : f.content? id = some (.element e)) (hc : ∀ c ∈ f.children id, LeavesTraces f c)
    (ht : Tidy n) (hnew : ∀ x ∈ (f.tree id).ids, n.views.lookup x = none)
    (h : (build f.typeName around (f.tree id)).run n = (.ok v, n')) :
    let scope := extendScope around.scope
      (ownBindings e.ns e.declared (e.attributes.filterMap f.attr?))
    ∃ expanded level level' vas text views,
      (readName (Namespace.clark e.ns.uri e.name)).run n = (.ok expanded, n) ∧
      (elementLevel around.levels expanded
        (scope.filter fun b => !around.scope.contains b)).run n = (.ok level, n) ∧
      (buildAttributes around.levels level (e.attributes.filterMap f.attr?)).run (n.remembered id) =
        (.ok (level', vas), n.remembered id) ∧
      TracesContent f ⟨scope, level' :: around.levels⟩ ⟨n.next, false⟩ [] e.children
        (n.remembered id) n' text views ∧
      n'.nodes.lookup n.next = some id ∧
      v = .element n.next
        ⟨expanded, (level'.own.map (·.1)).getD "", level'.declared, vas⟩ text views none := by
  have htree := hf.tree_element he
  have hnodup := hf.nodup_ids id
  rw [Forest.children_of_content? he] at hc
  rw [htree, Tree.ids] at hnodup hnew
  obtain ⟨hid, hnodup⟩ := List.nodup_cons.1 hnodup
  rw [htree] at h
  obtain ⟨expanded, level, level', vas, text, views, hname, hlevel, hattr, hcontent, hv⟩ :=
    build_element_eq_ok h
  have hnew' (x) (hx : x ∈ Tree.idsAll (e.children.map f.tree)) :
      (n.remembered id).views.lookup x = none := by
    rw [views_remembered, if_neg (ne_of_mem_of_not_mem hx hid),
      hnew x (List.mem_cons_of_mem _ hx)]
  have hrec := traces_content hf hc (ht.remembered (hnew id List.mem_cons_self))
    (Nat.lt_succ_self _) (ht.blank_remembered id false) hnew' hnodup hcontent
  have hview : n'.nodes.lookup n.next = some id :=
    hrec.grows.knows.nodes (n.lookup_remembered id)
  exact ⟨expanded, level, level', vas, text, views, hname, hlevel, hattr, hrec, hview, hv⟩

/-- The view of an element leaves what its content leaves, and the element itself. -/
theorem traces_element {e : ElementData} (hf : f.WellFormed)
    (he : f.content? id = some (.element e)) (hc : ∀ c ∈ f.children id, LeavesTraces f c)
    (ht : Tidy n) (hnew : ∀ x ∈ (f.tree id).ids, n.views.lookup x = none)
    (h : (build f.typeName around (f.tree id)).run n = (.ok v, n')) : Traces f id n n' v := by
  have htree := hf.tree_element he
  obtain ⟨expanded, level, level', vas, text, views, -, -, hattr, hrec, hview, rfl⟩ :=
    exists_content_of_build hf he hc ht hnew h
  refine {
    tidy := hrec.tidy
    grows := ?_
    ge := Nat.le_refl _
    lt := hrec.grows.next_le
    shows := hview
    blank := ?_
    accounts := fun x hx => ?_
    adds := ?_
    items := fun i hi => ?_ }
  · rw [htree, Tree.ids, ← List.singleton_append]
    exact (ht.grows_remembered id).trans hrec.grows fun s hs =>
      .inl (congrArg Slot.view (Option.some.inj hs)).le
  · exact hrec.grows.blank ⟨n.next, true⟩ (Nat.lt_succ_self _) (by simp)
      (ht.blank_remembered id true)
  · rw [htree, Tree.ids, List.mem_cons] at hx
    rcases hx with rfl | hx
    · refine ⟨fun hx => ?_, fun _ => ⟨n.next, hview⟩⟩
      cases he.symm.trans hx
    · exact hrec.accounts x hx
  · have hadds : AddsViewed f n (n.remembered id) :=
      addsViewed_remembered (.inl (Forest.class?_of_content? he))
    exact hadds.trans hrec.adds
  · simp only [Branch.ofView, Branch.items, List.cons_append, List.mem_cons, List.mem_append,
      List.mem_map] at hi
    rcases hi with rfl | ⟨a, ha, rfl⟩ | hi
    · exact .view hview
    · obtain ⟨x, hx, hread, hname⟩ := name_of_mem_buildAttributes hattr ha
      obtain ⟨b, hb, hbx⟩ := List.mem_filterMap.1 hx
      exact .attr hview (Forest.mem_attributes he hb) hbx hread hname
    · exact hrec.items i hi

end Navigator

open Navigator in
/-- Building the view of a node whose tree has no views yet leaves a view of everything in the tree
that has one. -/
theorem Forest.WellFormed.traces {f : Forest} (h : f.WellFormed) (id : NodeId) :
    LeavesTraces f id := by
  induction id using h.induction_up with
  | _ id ih =>
    intro around n n' v ht hnew hb
    have hviewed := isViewed_of_build h hb
    rcases hviewed.content? with ⟨e, hx⟩ | ⟨value, hx⟩ | ⟨target, data, hx⟩
    · exact traces_element h hx ih ht hnew hb
    · have htree := h.tree_comment hx
      rw [htree] at hb hnew
      obtain ⟨rfl, rfl⟩ := build_comment_eq_ok hb
      exact ht.traces_leaf (hnew id List.mem_cons_self) (by rw [htree]; rfl) hviewed rfl rfl
    · have htree := h.tree_instruction hx
      rw [htree] at hb hnew
      obtain ⟨rfl, rfl⟩ := build_instruction_eq_ok hb
      exact ht.traces_leaf (hnew id List.mem_cons_self) (by rw [htree]; rfl) hviewed rfl rfl

end TreeQuery
