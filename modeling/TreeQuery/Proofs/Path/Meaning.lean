import TreeQuery.AbsolutePath
import TreeQuery.Proofs.View.Mirror

/-!
# Meaning of absolute paths

An absolute path selects nodes of the documents that views show (`AbsolutePath.select`): each of its
steps goes along an axis, keeps the nodes that pass its test and, if it has a position, the one of
them at that position. Whether a child passes depends on nothing but its shape (`accepts_branch`),
so a step selects the same from a view as from the tree that it shows (`select_shown`).
-/

namespace TreeQuery

open XPath

/-- The node at a position, or all nodes if there is none. Positions begin at one. -/
def pick {α : Type} (position : Option Nat) (l : List α) : List α :=
  match position with
  | some (i + 1) => l[i]?.toList
  | some 0 => []
  | none => l

namespace NameTest

/-- Whether a node passes a test of its name. A plain name is in no namespace. -/
def accepts (axis : Axis) (test : NameTest) (n : XNode) : Bool :=
  match test with
  | plain name => passes axis (.name ⟨none, name⟩) none n
  | expanded name uri =>
    passes axis (.any none) none n && (n.localName == name && n.namespaceUri == uri)

/-- Whether a name passes a test. -/
def acceptsName (test : NameTest) (name : ExpandedName) : Bool :=
  match test with
  | plain s => name.localName == s && name.uri == ""
  | expanded s uri => name.localName == s && name.uri == uri

end NameTest

namespace PathStep

def axis : PathStep → Axis
  | attr _ => .attr
  | _ => .child

def position? : PathStep → Option Nat
  | element _ position | text position | comment position | instruction _ position => position
  | attr _ => none

/-- Whether a node passes the test of a step. -/
def accepts (s : PathStep) (n : XNode) : Bool :=
  match s with
  | element test _ => test.accepts .child n
  | attr test => test.accepts .attr n
  | text _ => passes .child .text none n
  | comment _ => passes .child .comment none n
  | instruction target _ => passes .child (.instruction (some target)) none n

/-- The nodes that a step leads to from a node. -/
def select (ds : Documents) (s : PathStep) (n : XNode) : List XNode :=
  pick s.position? ((n.along ds s.axis).filter s.accepts)

/-- Whether a shape passes the test of a step. -/
def acceptsShape {α : Type} (s : PathStep) (x : Shape α) : Bool :=
  match s, x with
  | element test _, .element _ name _ _ => test.acceptsName name
  | text _, .text .. | comment _, .comment .. => true
  | instruction target _, .instruction _ t _ => target == t
  | _, _ => false

end PathStep

/-- The nodes of the first document that a path leads to. -/
def AbsolutePath.select (ds : Documents) (path : AbsolutePath) : List XNode :=
  path.foldl (fun ns s => ns.flatMap (s.select ds)) [documentNode ds 0]

theorem AbsolutePath.select_append (ds : Documents) (path : AbsolutePath) (s : PathStep) :
    AbsolutePath.select ds (path ++ [s]) = (AbsolutePath.select ds path).flatMap (s.select ds) := by
  rw [AbsolutePath.select, List.foldl_append]
  rfl

/-! ## Positions -/

section Positions

variable {α β : Type} {l : List α} {a : α} {i : Nat}

theorem pick_map (g : α → β) (position : Option Nat) (l : List α) :
    pick position (l.map g) = (pick position l).map g := by
  match position with
  | none => rfl
  | some 0 => rfl
  | some (i + 1) =>
    rw [pick, pick, List.getElem?_map]
    cases l[i]? <;> rfl

theorem mem_of_mem_pick {position : Option Nat} (h : a ∈ pick position l) : a ∈ l := by
  match position with
  | none => exact h
  | some 0 => cases h
  | some (i + 1) =>
    rw [pick, Option.mem_toList] at h
    exact List.mem_of_getElem? h

/-- A position that is only given where there are others picks one alone. -/
theorem pick_position (h : l[i]? = some a) :
    pick (if l.length < 2 then none else some (i + 1)) l = [a] := by
  split
  · next hlt =>
    obtain ⟨hi, rfl⟩ := List.getElem?_eq_some_iff.1 h
    obtain ⟨b, rfl⟩ := List.length_eq_one_iff.1 (show l.length = 1 by omega)
    simp [pick]
  · rw [pick, h]
    rfl

/-- What is asked of entries can be asked of them with their positions. -/
theorem map_filter_zipIdx (p : α → Bool) (g : α → β) (l : List α) :
    (l.zipIdx.filter fun a => p a.1).map (fun a => g a.1) = (l.filter p).map g := by
  have hfst : l.zipIdx.map Prod.fst = l := List.zipIdx_map_fst ..
  conv_rhs => rw [← hfst, List.filter_map, List.map_map]
  rfl

end Positions

/-! ## Steps and shapes -/

namespace PathStep

variable {ds : Documents} {x y : XNode} {s : PathStep}

theorem acceptsShape_map {α β : Type} (g : α → β) (s : PathStep) (x : Shape α) :
    s.acceptsShape (x.map g) = s.acceptsShape x := by
  cases s <;> cases x <;> rfl

theorem isText_of_acceptsShape {α : Type} {x : Shape α} (hs : ∀ p, s ≠ .text p)
    (h : s.acceptsShape x = true) : x.isText = false := by
  cases x with
  | text =>
    cases s with
    | text p => exact absurd rfl (hs p)
    | _ => cases h
  | _ => rfl

/-- Whether a child passes the test of a step depends on nothing but its shape. -/
theorem accepts_branch {place : Place} {b : Branch} (hs : s.axis = .child) :
    s.accepts ⟨place, .branch b⟩ = s.acceptsShape b.shape := by
  cases s with
  | attr => cases hs
  | element test p =>
    cases test with
    | plain name =>
      cases b with
      | element => simp [accepts, NameTest.accepts, passes, isPrincipal, hasName, XNode.name?,
          acceptsShape, NameTest.acceptsName, Branch.shape]
      | _ => rfl
    | expanded name uri =>
      cases b with
      | element => simp [accepts, NameTest.accepts, passes, isPrincipal, inNamespace,
          XNode.localName, XNode.namespaceUri, XNode.name?, acceptsShape, NameTest.acceptsName,
          Branch.shape]
      | _ => rfl
  | _ => cases b <;> rfl

theorem accepts_attribute {place : Place} {v : ViewId} {a : ViewAttribute} (test : NameTest) :
    (PathStep.attr test).accepts ⟨place, .attr v a⟩ = test.acceptsName a.name := by
  cases test with
  | plain name => simp [accepts, NameTest.accepts, passes, isPrincipal, hasName, XNode.name?,
      NameTest.acceptsName]
  | expanded name uri => simp [accepts, NameTest.accepts, passes, isPrincipal, inNamespace,
      XNode.localName, XNode.namespaceUri, XNode.name?, NameTest.acceptsName]

/-- The shape that a node of a view is taken back to. -/
def shownItem (n : Navigator) (f : Forest) (x : XNode) : Option (Shape (Except Failure Value)) :=
  match x.item with
  | .branch b => some (n.shown f b)
  | _ => none

variable {n : Navigator} {f : Forest}

theorem filter_children (hs : s.axis = .child) :
    (x.children.filter s.accepts).map (shownItem n f) =
      ((x.branches.map (n.shown f)).filter s.acceptsShape).map some := by
  have hchildren : x.children = x.branches.zipIdx.map fun c =>
      ⟨⟨x.place.document, x.place.path ++ [c.2], .whole⟩, .branch c.1⟩ := rfl
  have haccepts (c : Branch × Nat) : s.accepts
      ⟨⟨x.place.document, x.place.path ++ [c.2], .whole⟩, .branch c.1⟩ =
        s.acceptsShape (n.shown f c.1) := by
    rw [accepts_branch hs, Navigator.shown, acceptsShape_map]
  rw [hchildren, List.filter_map, List.map_map, List.filter_map, List.map_map]
  refine (congrArg (List.map _) (List.filter_congr fun c _ => haccepts c)).trans ?_
  exact map_filter_zipIdx (fun b => s.acceptsShape (n.shown f b)) (fun b => some (n.shown f b))
    x.branches

/-- A step to children selects what it would select of the shapes that they are taken back to. -/
theorem select_shown (ds : Documents) {l : List (Shape NodeId)} (hs : s.axis = .child)
    (hx : x.branches.map (n.shown f) = l.map Navigator.expected) :
    (s.select ds x).map (shownItem n f) =
      (pick s.position? (l.filter s.acceptsShape)).map fun t => some (Navigator.expected t) := by
  have haccepts : s.acceptsShape ∘ Navigator.expected = s.acceptsShape (α := NodeId) :=
    funext fun t => acceptsShape_map _ s t
  rw [select, hs, ← pick_map]
  show pick _ ((x.children.filter s.accepts).map _) = _
  rw [filter_children hs, hx, List.filter_map, haccepts, List.map_map, pick_map]
  rfl

theorem document_of_select (hs : s.axis = .child) (hy : y ∈ s.select ds x) :
    y.place.document = x.place.document := by
  have hm := mem_of_mem_pick hy
  rw [hs, List.mem_filter] at hm
  obtain ⟨c, -, rfl⟩ := List.mem_map.1 hm.1
  rfl

/-- A step selects one node alone if one shape alone is picked. -/
theorem select_eq_singleton {l : List (Shape NodeId)} {t : Shape NodeId} (hs : s.axis = .child)
    (hx : x.branches.map (n.shown f) = l.map Navigator.expected)
    (ht : pick s.position? (l.filter s.acceptsShape) = [t]) :
    ∃ y b, s.select ds x = [y] ∧ y.place.document = x.place.document ∧ y.item = .branch b ∧
      n.shown f b = Navigator.expected t := by
  have hsel := select_shown ds hs hx
  rw [ht, List.map_singleton] at hsel
  obtain ⟨y, hy, hshown⟩ := List.map_eq_singleton_iff.1 hsel
  refine ⟨y, ?_⟩
  unfold shownItem at hshown
  split at hshown
  · next b hb =>
    exact ⟨b, hy, document_of_select hs (hy ▸ List.mem_cons_self), hb, Option.some.inj hshown⟩
  · cases hshown

end PathStep

end TreeQuery
