import TreeQuery.Proofs.Forest.AttributeSet

/-!
# Built forests

Forests are built from the empty one by the operations of `Forest.Build` and `Forest.Element`. But
for the setting of attributes, all that these do is done in a few kinds of steps (`Grown`). So what
every step keeps holds of whatever is built: all forests are well-formed (`Built.wellFormed`).
-/

namespace TreeQuery.Forest

variable {f g : Forest} {p c : NodeId}

/-- A forest that is built by the operations on nodes, whatever they are asked to do. -/
inductive Built : Forest → Prop where
  | empty : Built .empty
  | document {f g : Forest} {root : Value} {id : NodeId} : Built f →
      f.newDocument root = .ok (g, id) → Built g
  | element {f g : Forest} {name : Option String} {ns : Namespace} {id : NodeId} : Built f →
      f.newElement name ns = .ok (g, id) → Built g
  | attr {f g : Forest} {name : Option String} {value : Value} {ns : Namespace} {id : NodeId} :
      Built f → f.newAttribute name value ns = .ok (g, id) → Built g
  | text {f : Forest} (value : Value) : Built f → Built (f.newText value).1
  | comment {f : Forest} (value : Value) : Built f → Built (f.newComment value).1
  | instruction {f g : Forest} {target : Option String} {data : String} {id : NodeId} : Built f →
      f.newInstruction target data = .ok (g, id) → Built g
  | append {f g : Forest} {parent : NodeId} {child : Value} {id : NodeId} : Built f →
      f.appendValue parent child = .ok (g, id) → Built g
  | extend {f : Forest} (parent : NodeId) (children : List Value) : Built f →
      Built (f.extend parent children).1
  | declare {f g : Forest} {id : NodeId} {ns : Namespace} : Built f →
      f.declare id ns = .ok g → Built g
  | setAttribute {f g : Forest} {id a : NodeId} {name : Option String} {value : Value}
      {ns : Namespace} : Built f → f.setAttribute id name value ns = .ok (g, a) → Built g

theorem wellFormed_empty : WellFormed .empty := by
  have hnone (id : NodeId) : Forest.empty.content? id = none := rfl
  exact {
    chains := fun id => ⟨[], .top rfl⟩
    parent_of_child := nofun
    parent_of_attribute := nofun
    listed := nofun
    nodup_children := fun _ => List.nodup_nil
    nodup_attributes := fun _ => List.nodup_nil
    class_of_child := nofun
    one_root := nofun
    attribute_data := nofun
    attribute_name := nofun
    one_meaning := nofun }

/-! ## Steps of operations -/

/-- What operations that set no attribute do, step by step. -/
inductive Grown (f : Forest) : Forest → Prop where
  | refl : Grown f f
  | add {g : Forest} {x : Content} : Grown f g → IsNew x → Grown f (g.add x).1
  | attach {g : Forest} {p c : NodeId} : Grown f g → Appendable g p c → Grown f (g.attach p c)
  | declare {g h : Forest} {id : NodeId} {ns : Namespace} : Grown f g → g.declare id ns = .ok h →
      Grown f h

theorem WellFormed.grown (h : WellFormed f) (hg : Grown f g) : WellFormed g := by
  induction hg with
  | refl => exact h
  | add _ hx ih => exact ih.add hx
  | attach _ ha ih => exact ih.attach ha
  | declare _ hd ih => exact ih.declare hd

theorem Grown.appendValue {h : Forest} (hg : Grown f g) {child : Value}
    (ha : g.appendValue p child = .ok (h, c)) : Grown f h := by
  have hnode {g : Forest} (hg : Grown f g) {i : NodeId}
      (ha : (g.append p i).map (·, i) = .ok (h, c)) : Grown f h := by
    obtain ⟨g', hi, ha⟩ := map_eq_ok ha
    cases ha
    obtain ⟨rfl, happ⟩ := append_eq_ok hi
    exact hg.attach happ
  unfold Forest.appendValue at ha
  split at ha
  · exact hnode hg ha
  · exact hnode hg ha
  · exact hnode (hg.add (x := .text _) trivial) ha
  · exact hnode (hg.add (x := .text _) trivial) ha
  · cases ha
  · cases ha
  · cases ha

theorem Grown.extend (hg : Grown f g) (p : NodeId) (vs : List Value) :
    Grown f (g.extend p vs).1 := by
  induction vs generalizing g with
  | nil => exact hg
  | cons v vs ih =>
    rw [Forest.extend]
    cases ha : g.appendValue p v with
    | error fault => exact hg
    | ok r => exact ih (hg.appendValue ha)

theorem grown_newDocument {root : Value} {id : NodeId} (h : f.newDocument root = .ok (g, id)) :
    Grown f g := by
  have hnew : Grown f (f.add (.document [])).1 := .add .refl (x := .document []) rfl
  unfold newDocument at h
  dsimp only at h
  split at h
  · cases h
    exact hnew
  · obtain ⟨r, hr, h⟩ := map_eq_ok h
    cases h
    exact hnew.appendValue hr

theorem grown_newElement {name : Option String} {ns : Namespace} {id : NodeId}
    (h : f.newElement name ns = .ok (g, id)) : Grown f g := by
  obtain ⟨name, -, h⟩ := bind_eq_ok h
  cases h
  exact .add .refl (x := .element _) ⟨rfl, rfl, rfl⟩

theorem grown_newAttribute {name : Option String} {value : Value} {ns : Namespace} {id : NodeId}
    (h : f.newAttribute name value ns = .ok (g, id)) : Grown f g := by
  obtain ⟨nm, v, -, rfl, -⟩ := newAttribute_eq_ok h
  exact .add .refl (x := .attr ..) trivial

theorem grown_newInstruction {target : Option String} {data : String} {id : NodeId}
    (h : f.newInstruction target data = .ok (g, id)) : Grown f g := by
  unfold newInstruction at h
  split at h
  · split at h
    · cases h
    · cases h
      exact .add .refl (x := .instruction ..) trivial
  · cases h

/-- Whatever is built is well-formed. -/
theorem Built.wellFormed (h : Built f) : WellFormed f := by
  induction h with
  | empty => exact wellFormed_empty
  | document _ hg ih => exact ih.grown (grown_newDocument hg)
  | element _ hg ih => exact ih.grown (grown_newElement hg)
  | attr _ hg ih => exact ih.grown (grown_newAttribute hg)
  | text value _ ih => exact ih.add (x := .text _) trivial
  | comment value _ ih => exact ih.add (x := .comment _) trivial
  | instruction _ hg ih => exact ih.grown (grown_newInstruction hg)
  | append _ hg ih => exact ih.grown (Grown.refl.appendValue hg)
  | extend parent children _ ih => exact ih.grown (Grown.refl.extend parent children)
  | declare _ hg ih => exact ih.declare hg
  | setAttribute _ hg ih =>
    obtain ⟨e, x, -, -, -, -, hs⟩ := setAttribute_eq_ok hg
    exact ih.attributeSet hs

end TreeQuery.Forest
