import TreeQuery.Forest.Navigate
import TreeQuery.Proofs.Forest.Scope

/-!
# Calls on the nodes of a forest

Nodes are made, appended, declared on and given attributes by calls, in any order and with any
arguments, and some of the calls fail. Whatever is called, parents and children know each other
(`Linked`), documents have one root element (`Rooted`), and all that is read up or down a tree comes
to an end (`Readable`). A call that fails changes nothing, and appending changes two nodes only
(`calls_keep_forest`).
-/

namespace TreeQuery

namespace Tree

variable {typeName : Value → String}

/-- Whether the string value of a node counts in that of the element around it. -/
def holdsText : Tree → Bool
  | element .. | text .. => true
  | _ => false

theorem rootValue_eq (ts : List Tree) : rootValue typeName ts =
    match ts.find? isElement with
    | some t => t.stringValue typeName
    | none => .ok (.text "") := by
  induction ts with
  | nil => simp [rootValue]
  | cons t ts ih => cases t <;> simp [rootValue, List.find?_cons, isElement, ih]

theorem childValues_eq (ts : List Tree) :
    childValues typeName ts = (ts.filter holdsText).mapM (stringValue typeName) := by
  induction ts with
  | nil => simp [childValues, pure, Except.pure]
  | cons t ts ih =>
    have hcounted (t : Tree) : (t :: ts.filter holdsText).mapM (stringValue typeName) =
        t.stringValue typeName >>= fun v => (childValues typeName ts).map (v :: ·) := by
      rw [List.mapM_cons, ← ih]
      cases t.stringValue typeName with
      | error fault => rfl
      | ok v => cases childValues typeName ts <;> rfl
    cases t with
    | element id name ns declared attributes cs =>
      rw [childValues, List.filter_cons_of_pos rfl, hcounted]
      cases (element id name ns declared attributes cs).stringValue typeName <;> rfl
    | text id v =>
      rw [childValues, List.filter_cons_of_pos rfl, hcounted]
      rfl
    | _ => simp [childValues, holdsText, ih]

end Tree

namespace Forest

variable {f g : Forest} {id p q c a d : NodeId} {e : ElementData}

/-! ## Calls -/

/-- A call. Its arguments may be anything: nodes that do not exist, values that are no nodes, names
that are none. -/
inductive Call where
  | document (root : Value)
  | element (name : Option String) (ns : Namespace)
  | attr (name : Option String) (value : Value) (ns : Namespace)
  | text (value : Value)
  | comment (value : Value)
  | instruction (target : Option String) (data : String)
  | append (parent : NodeId) (child : Value)
  | extend (parent : NodeId) (children : List Value)
  | declare (element : NodeId) (ns : Namespace)
  | setAttribute (element : NodeId) (name : Option String) (value : Value) (ns : Namespace)

/-- The forest that an operation leaves behind. -/
def settle (f : Forest) : Except Failure (Forest × NodeId) → Forest × Option Failure
  | .ok (g, _) => (g, none)
  | .error fault => (f, some fault)

/-- The forest after a call, and why the call failed if it did. -/
def perform (f : Forest) : Call → Forest × Option Failure
  | .document root => f.settle (f.newDocument root)
  | .element name ns => f.settle (f.newElement name ns)
  | .attr name value ns => f.settle (f.newAttribute name value ns)
  | .text value => ((f.newText value).1, none)
  | .comment value => ((f.newComment value).1, none)
  | .instruction target data => f.settle (f.newInstruction target data)
  | .append parent child => f.settle (f.appendValue parent child)
  | .extend parent children => f.extend parent children
  | .declare element ns => f.settle ((f.declare element ns).map (·, element))
  | .setAttribute element name value ns => f.settle (f.setAttribute element name value ns)

/-- The forest after several calls, those that failed included. -/
def performAll (f : Forest) (calls : List Call) : Forest :=
  calls.foldl (fun g call => (g.perform call).1) f

/-- Calls that succeed one after the other. -/
inductive Succeeding : Forest → List Call → Forest → Prop where
  | nil {f : Forest} : Succeeding f [] f
  | cons {f g h : Forest} {call : Call} {calls : List Call} : f.perform call = (g, none) →
      Succeeding g calls h → Succeeding f (call :: calls) h

theorem Built.settle (h : Built f) {r : Except Failure (Forest × NodeId)}
    (hr : ∀ {g id}, r = .ok (g, id) → Built g) : Built (f.settle r).1 := by
  cases r with
  | ok r => exact hr rfl
  | error => exact h

theorem Built.perform (h : Built f) (call : Call) : Built (f.perform call).1 := by
  cases call with
  | document => exact h.settle h.document
  | element => exact h.settle h.element
  | attr => exact h.settle h.attr
  | text => exact h.text _
  | comment => exact h.comment _
  | instruction => exact h.settle h.instruction
  | append => exact h.settle h.append
  | extend => exact h.extend _ _
  | declare element ns =>
    refine h.settle fun hr => ?_
    obtain ⟨g, hd, hr⟩ := map_eq_ok hr
    cases hr
    exact h.declare hd
  | setAttribute => exact h.settle h.setAttribute

theorem Built.performAll (h : Built f) (calls : List Call) : Built (f.performAll calls) := by
  induction calls generalizing f with
  | nil => exact h
  | cons call calls ih => exact ih (h.perform call)

theorem Grown.settle {r : Except Failure (Forest × NodeId)}
    (hr : ∀ {g id}, r = .ok (g, id) → Grown f g) : Grown f (f.settle r).1 := by
  cases r with
  | ok r => exact hr rfl
  | error => exact .refl

theorem grown_perform {call : Call}
    (hne : ∀ id name value ns, call ≠ .setAttribute id name value ns) :
    Grown f (f.perform call).1 := by
  cases call with
  | document => exact .settle grown_newDocument
  | element => exact .settle grown_newElement
  | attr => exact .settle grown_newAttribute
  | text => exact .add .refl (x := .text _) trivial
  | comment => exact .add .refl (x := .comment _) trivial
  | instruction => exact .settle grown_newInstruction
  | append => exact .settle Grown.refl.appendValue
  | extend => exact Grown.refl.extend _ _
  | declare element ns =>
    refine .settle fun hr => ?_
    obtain ⟨g, hd, hr⟩ := map_eq_ok hr
    cases hr
    exact .declare .refl hd
  | setAttribute => exact absurd rfl (hne _ _ _ _)

theorem settle_of_fault {r : Except Failure (Forest × NodeId)} {fault : Failure}
    (h : (f.settle r).2 = some fault) : (f.settle r).1 = f := by
  cases r with
  | ok => cases h
  | error => rfl

theorem perform_of_fault {call : Call} {fault : Failure} (hne : ∀ p vs, call ≠ .extend p vs)
    (h : (f.perform call).2 = some fault) : (f.perform call).1 = f := by
  cases call with
  | text => cases h
  | comment => cases h
  | extend => exact absurd rfl (hne _ _)
  | _ => exact settle_of_fault h

/-- Values are appended one after the other, up to the first that is refused. -/
theorem extend_eq (f : Forest) (p : NodeId) (vs : List Value) : ∃ done rest, vs = done ++ rest ∧
    Succeeding f (done.map (.append p)) (f.extend p vs).1 ∧
    ((f.extend p vs).2 = none ∧ rest = [] ∨ ∃ v rest' fault, rest = v :: rest' ∧
      (f.extend p vs).2 = some fault ∧
      (f.extend p vs).1.perform (.append p v) = ((f.extend p vs).1, some fault)) := by
  induction vs generalizing f with
  | nil => exact ⟨[], [], rfl, .nil, .inl ⟨rfl, rfl⟩⟩
  | cons v vs ih =>
    cases hv : f.appendValue p v with
    | error fault =>
      have hstop : f.extend p (v :: vs) = (f, some fault) := by simp [extend, hv]
      rw [hstop]
      refine ⟨[], v :: vs, rfl, .nil, .inr ⟨v, vs, fault, rfl, rfl, ?_⟩⟩
      simp [perform, settle, hv]
    | ok r =>
      have hgo : f.extend p (v :: vs) = r.1.extend p vs := by simp [extend, hv]
      rw [hgo]
      obtain ⟨done, rest, rfl, hdone, hrest⟩ := ih r.1
      refine ⟨v :: done, rest, rfl, .cons ?_ hdone, hrest⟩
      simp [perform, settle, hv]

/-! ## Links -/

/-- Parents and children know each other, as elements and their attributes do, and the way up from
a node ends. -/
structure Linked (f : Forest) : Prop where
  child_iff : ∀ {c p}, f.class? c ≠ some .attr → (f.parent? c = some p ↔ c ∈ f.children p)
  attribute_iff : ∀ {a e}, f.class? a = some .attr → (f.parent? a = some e ↔ a ∈ f.attributes e)
  no_attribute : ∀ {c p}, c ∈ f.children p → f.class? c ≠ some .attr
  only_attributes : ∀ {a e}, a ∈ f.attributes e → f.class? a = some .attr
  once : ∀ {c p}, c ∈ f.children p → (f.children p).count c = 1
  nowhere_else : ∀ {c p q}, c ∈ f.children p → c ∈ f.children q → q = p
  ends : ∀ id, Chain f id (f.ancestors id)

/-- A document has comments, instructions and at most one element. -/
structure Rooted (f : Forest) : Prop where
  kinds : ∀ {d c}, f.class? d = some .document → c ∈ f.children d →
    ∃ k, f.class? c = some k ∧ k.inDocument = true
  one : ∀ {d}, f.class? d = some .document → ((f.children d).filter f.isElement).length ≤ 1

namespace WellFormed

theorem parent_eq_iff (h : WellFormed f) (hc : f.class? c ≠ some .attr) :
    f.parent? c = some p ↔ c ∈ f.children p :=
  ⟨fun hp => h.mem_children hp hc, h.parent_of_child⟩

theorem owner_eq_iff (h : WellFormed f) (ha : f.class? a = some .attr) :
    f.parent? a = some p ↔ a ∈ f.attributes p :=
  ⟨fun hp => (h.listed hp).resolve_left fun hc => h.class?_ne_attr_of_child hc ha,
    h.parent_of_attribute⟩

theorem linked (h : WellFormed f) : Linked f where
  child_iff := h.parent_eq_iff
  attribute_iff := h.owner_eq_iff
  no_attribute := h.class?_ne_attr_of_child
  only_attributes := h.class?_of_attribute
  once := fun hc => List.count_eq_one_of_mem (h.nodup_children _) hc
  nowhere_else := fun hc hc' => by
    have := (h.parent_of_child hc).symm.trans (h.parent_of_child hc')
    exact (Option.some.inj this).symm
  ends := h.chain

theorem rooted (h : WellFormed f) : Rooted f where
  kinds := fun hd hc => by
    obtain ⟨k, hk, hin, -⟩ := h.class_of_child hc
    exact ⟨k, hk, hin hd⟩
  one := fun {d} hd => by
    have hnodup := (h.nodup_children d).filter f.isElement
    have hsame : ∀ a ∈ (f.children d).filter f.isElement,
        ∀ b ∈ (f.children d).filter f.isElement, a = b := by
      intro a ha b hb
      rw [List.mem_filter, isElement, beq_iff_eq] at ha hb
      exact h.one_root hd ha.1 hb.1 ha.2 hb.2
    cases hl : (f.children d).filter f.isElement with
    | nil => simp
    | cons a as =>
      cases as with
      | nil => simp
      | cons b bs =>
        rw [hl] at hnodup hsame
        have := hsame a (by simp) b (by simp)
        simp [this] at hnodup

end WellFormed

/-! ## Reading -/

/-- What is read up or down a tree comes to an end: each reader gives what its own recursion
says. -/
structure Readable (f : Forest) : Prop where
  below : WellFounded fun c p => c ∈ f.children p
  root : ∀ id, f.root id = match f.parent? id with
    | some p => f.root p
    | none => id
  document : ∀ id, f.document? id = match f.parent? id with
    | some p => f.document? p
    | none => if f.class? id = some .document then some id else none
  document_value : ∀ {d}, f.class? d = some .document →
    f.stringValueOf (.node d) = match f.rootElement? d with
      | some e => f.stringValueOf (.node e)
      | none => .ok (.text "")
  element_value : ∀ {id}, f.class? id = some .element →
    f.stringValueOf (.node id) = (do
      let counted := (f.children id).filter fun c => f.isElement c || f.class? c == some .text
      let values ← counted.mapM fun c => f.stringValueOf (.node c)
      (Tree.join 0 f.typeName values).map .text)
  scope : ∀ {id e}, f.content? id = some (.element e) →
    f.scope id = extendScope (match f.parent? id with
      | some p => if f.isElement p then f.scope p else outerScope
      | none => outerScope) (f.bindings e)

namespace WellFormed

theorem wellFounded_children (h : WellFormed f) : WellFounded fun c p => c ∈ f.children p :=
  ⟨fun id => h.induction_up (fun id ih => .intro id ih) id⟩

theorem root_eq (h : WellFormed f) (id : NodeId) : f.root id = match f.parent? id with
    | some p => f.root p
    | none => id := by
  cases hp : f.parent? id with
  | some p => exact h.root_of_parent hp
  | none => exact root_of_top hp

theorem document?_eq (h : WellFormed f) (id : NodeId) : f.document? id =
    match f.parent? id with
    | some p => f.document? p
    | none => if f.class? id = some .document then some id else none := by
  cases hp : f.parent? id with
  | some p => simp only [document?, h.root_of_parent hp]
  | none => simp only [document?, root_of_top hp]

theorem holdsText_tree (h : WellFormed f) (c : NodeId) :
    (f.tree c).holdsText = (f.isElement c || f.class? c == some .text) := by
  rw [h.tree_eq, layer, isElement, class?]
  cases f.content? c with
  | none => rfl
  | some x => cases x <;> rfl

theorem stringValueOf_document (h : WellFormed f) (hd : f.class? d = some .document) :
    f.stringValueOf (.node d) = match f.rootElement? d with
      | some e => f.stringValueOf (.node e)
      | none => .ok (.text "") := by
  obtain ⟨cs, hx⟩ := exists_document hd
  have hfind : (cs.map f.tree).find? Tree.isElement = (cs.find? f.isElement).map f.tree := by
    rw [List.find?_map]
    simp only [Function.comp_def, h.isElement_tree]
  rw [stringValueOf, h.tree_document hx, Tree.stringValue, Tree.rootValue_eq, hfind, rootElement?,
    children_of_content? hx, Content.children]
  cases cs.find? f.isElement with
  | some e => rfl
  | none => rfl

theorem stringValueOf_element (h : WellFormed f) (he : f.class? id = some .element) :
    f.stringValueOf (.node id) = (do
      let counted := (f.children id).filter fun c => f.isElement c || f.class? c == some .text
      let values ← counted.mapM fun c => f.stringValueOf (.node c)
      (Tree.join 0 f.typeName values).map .text) := by
  obtain ⟨e, hx⟩ := exists_element he
  have hvalues : Tree.childValues f.typeName (e.children.map f.tree) =
      (e.children.filter fun c => f.isElement c || f.class? c == some .text).mapM
        fun c => f.stringValueOf (.node c) := by
    rw [Tree.childValues_eq, List.filter_map, List.mapM_map]
    simp only [Function.comp_def, h.holdsText_tree, stringValueOf]
  rw [stringValueOf, h.tree_element hx, Tree.stringValue, hvalues, children_of_content? hx]
  dsimp only [Content.children, bind, Except.bind]
  split <;> simp_all

theorem scope_of_element (h : WellFormed f) (he : f.content? id = some (.element e)) :
    f.scope id = extendScope (match f.parent? id with
      | some p => if f.isElement p then f.scope p else outerScope
      | none => outerScope) (f.bindings e) :=
  (scope_eq he).trans
    (congrArg (extendScope · _) (h.inheritedScope_eq (isElement_of_content? he)))

theorem readable (h : WellFormed f) : Readable f where
  below := h.wellFounded_children
  root := h.root_eq
  document := h.document?_eq
  document_value := h.stringValueOf_document
  element_value := h.stringValueOf_element
  scope := h.scope_of_element

end WellFormed

/-! ## Appending -/

/-- What appending a node does: a node without a parent gets one, which gets a last child. -/
structure Appended (f g : Forest) (p c : NodeId) : Prop where
  detached : f.parent? c = none
  attached : g.parent? c = some p
  last : g.children p = f.children p ++ [c]
  node : ∀ id, g.node? id = (f.node? id).map fun n =>
    ⟨if id = c then some p else n.parent, if id = p then n.content.push c else n.content⟩

theorem node?_attach (f : Forest) (p c id : NodeId) :
    (f.attach p c).node? id = (f.node? id).map fun n =>
      ⟨if id = c then some p else n.parent, if id = p then n.content.push c else n.content⟩ := by
  simp only [attach, setParent, node?_modify]
  cases f.node? id with
  | none => simp
  | some n => split <;> split <;> simp_all [eq_comm]

theorem appended_of_append (h : f.append p c = .ok g) : Appended f g p c := by
  obtain ⟨rfl, happ⟩ := append_eq_ok h
  refine ⟨happ.detached, ?_, ?_, node?_attach f p c⟩
  · rw [parent?_attach happ.isSome, if_pos rfl]
  · rw [happ.children_attach, if_pos rfl]

theorem appendValue_eq_ok {v : Value} (h : f.appendValue p v = .ok (g, c)) :
    v = .node c ∧ Appended f g p c ∨
      ∃ s, v = .text s ∧ c = f.nodes.size ∧ Appended (f.newText v).1 g p c := by
  have hnode {f : Forest} {i : NodeId} (ha : (f.append p i).map (·, i) = .ok (g, c)) :
      c = i ∧ Appended f g p c := by
    obtain ⟨g', hg, ha⟩ := map_eq_ok ha
    cases ha
    exact ⟨rfl, appended_of_append hg⟩
  unfold appendValue at h
  split at h
  · obtain ⟨rfl, happ⟩ := hnode h
    exact .inl ⟨rfl, happ⟩
  · obtain ⟨rfl, happ⟩ := hnode h
    exact .inl ⟨rfl, happ⟩
  · obtain ⟨hc, happ⟩ := hnode h
    exact .inr ⟨_, rfl, hc, happ⟩
  · obtain ⟨hc, happ⟩ := hnode h
    exact .inr ⟨_, rfl, hc, happ⟩
  · cases h
  · cases h
  · cases h

/-- Whatever is called, the nodes form a forest. A call that fails changes nothing, but that values
which are appended together stay up to the one that is refused; appending a node changes only its
parent and the children of that parent. -/
theorem calls_keep_forest (calls : List Call) :
    let f := Forest.empty.performAll calls
    Linked f ∧ Rooted f ∧ Readable f ∧
    (∀ call fault, (∀ p vs, call ≠ .extend p vs) → (f.perform call).2 = some fault →
      (f.perform call).1 = f) ∧
    (∀ p vs g fault, f.perform (.extend p vs) = (g, fault) → ∃ done rest, vs = done ++ rest ∧
      Succeeding f (done.map (.append p)) g ∧ (fault = none ∧ rest = [] ∨
        ∃ v rest' e, rest = v :: rest' ∧ fault = some e ∧
          g.perform (.append p v) = (g, some e))) ∧
    ∀ p v g c, f.appendValue p v = .ok (g, c) →
      v = .node c ∧ Appended f g p c ∨
        ∃ s, v = .text s ∧ c = f.nodes.size ∧ Appended (f.newText v).1 g p c := by
  intro f
  have hwf : WellFormed f := (Built.empty.performAll calls).wellFormed
  refine ⟨hwf.linked, hwf.rooted, hwf.readable, fun call fault => perform_of_fault, ?_,
    fun p v g c => appendValue_eq_ok⟩
  intro p vs g fault h
  obtain ⟨done, rest, hvs, hdone, hrest⟩ := f.extend_eq p vs
  rw [show f.extend p vs = (g, fault) from h] at hdone hrest
  exact ⟨done, rest, hvs, hdone, hrest⟩

end Forest

end TreeQuery
