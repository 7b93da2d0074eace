import TreeQuery.Proofs.Path.Meaning
import TreeQuery.Proofs.Path.Runs

/-!
# Steps to nodes

The step to a node picks one shape alone among those of its siblings: the shape of the node, or of
the run of texts that it is in (`Forest.WellFormed.pick_step`). There is no step to a text whose run
holds nothing (`Forest.WellFormed.textPosition_eq_error`).
-/

namespace TreeQuery.Forest

variable {f : Forest} {id p c d : NodeId} {s : PathStep}

/-- The children of a node's parent, or the node alone if it has none. -/
def siblings (f : Forest) (id : NodeId) : List NodeId :=
  match f.parent? id with
  | some p => f.children p
  | none => [id]

/-- The run of adjacent text nodes that a text node is in. -/
def textRun (f : Forest) (id : NodeId) : List NodeId :=
  ((runs f.isText (f.siblings id)).find? (·.contains id)).getD []

/-- The node that a view is taken back to where it shows a node: of the texts of a run the first
that holds anything, of all others the node itself. -/
def shownAs (f : Forest) (id : NodeId) : NodeId :=
  if f.isText id then ((f.textRun id).find? f.hasText).getD id else id

theorem siblings_of_parent (h : f.parent? id = some p) : f.siblings id = f.children p := by
  rw [siblings, h]

theorem siblings_of_top (h : f.parent? id = none) : f.siblings id = [id] := by
  rw [siblings, h]

/-- What can be the child of an element. -/
def IsContent (f : Forest) (id : NodeId) : Prop :=
  f.IsViewed id ∨ ∃ s, f.content? id = some (.text (.text s))

theorem isText_of_content? {v : Value} (h : f.content? id = some (.text v)) :
    f.isText id = true := by
  rw [isText, class?_of_content? h]
  rfl

theorem isText_of_isViewed (h : f.IsViewed id) : f.isText id = false := by
  rw [isText]
  rcases h with h | h | h <;> rw [h] <;> rfl

/-! ## Tests -/

namespace WellFormed

/-- The shape of what can be the child of an element, together with what the node holds. -/
theorem content_shape (hf : f.WellFormed) (h : f.IsContent id) :
    (∃ e attributes children, f.content? id = some (.element e) ∧
      (f.tree id).shape = .element id ⟨e.ns.uri, e.name⟩ attributes children) ∨
    (∃ v, f.content? id = some (.comment v) ∧ (f.tree id).shape = .comment id v.characters) ∨
    (∃ target data, f.content? id = some (.instruction target data) ∧
      (f.tree id).shape = .instruction id target data) ∨
    ∃ s, f.content? id = some (.text (.text s)) ∧ (f.tree id).shape = .text id s := by
  rcases h with hv | ⟨s, hx⟩
  · rcases hv.content? with ⟨e, hx⟩ | ⟨v, hx⟩ | ⟨target, data, hx⟩
    · exact .inl ⟨e, _, _, hx, by rw [hf.tree_element hx]; rfl⟩
    · exact .inr (.inl ⟨v, hx, by rw [hf.tree_comment hx]; rfl⟩)
    · exact .inr (.inr (.inl ⟨target, data, hx, by rw [hf.tree_instruction hx]; rfl⟩))
  · exact .inr (.inr (.inr ⟨s, hx, by rw [hf.tree_text hx]; rfl⟩))

theorem isText_shape (hf : f.WellFormed) (h : f.IsContent id) :
    (f.tree id).shape.isText = f.isText id := by
  rw [isText, class?]
  rcases hf.content_shape h with ⟨_, _, _, hx, ht⟩ | ⟨_, hx, ht⟩ | ⟨_, _, hx, ht⟩ | ⟨_, hx, ht⟩ <;>
    rw [hx, ht] <;> rfl

theorem hasText_shape (hf : f.WellFormed) (h : f.IsContent id) :
    (f.tree id).shape.hasText = f.hasText id := by
  rw [hasText]
  rcases hf.content_shape h with ⟨_, _, _, hx, ht⟩ | ⟨_, hx, ht⟩ | ⟨_, _, hx, ht⟩ | ⟨_, hx, ht⟩ <;>
    rw [hx, ht] <;> rfl

theorem label_shape (hf : f.WellFormed) (h : f.IsContent id) : (f.tree id).shape.label = id := by
  rcases hf.content_shape h with ⟨_, _, _, -, ht⟩ | ⟨_, -, ht⟩ | ⟨_, _, -, ht⟩ | ⟨_, -, ht⟩ <;>
    rw [ht] <;> rfl

end WellFormed

theorem acceptsName_nameTest (name : String) (ns : Namespace) (n : ExpandedName) :
    (nameTest name ns).acceptsName n = (name == n.localName && ns.uri == n.uri) := by
  have hcomm (a b : String) : (a == b) = (b == a) := Bool.beq_comm
  unfold nameTest
  split
  · next h => rw [NameTest.acceptsName, hcomm, hcomm n.uri, h]
  · rw [NameTest.acceptsName, hcomm, hcomm n.uri]

/-- A sibling passes the test of the step to a node if it passes the same test as the node. -/
theorem WellFormed.acceptsShape_step (hf : f.WellFormed) (hc : f.IsViewed c) (hd : f.IsContent d)
    (hs : f.step c = .ok s) : s.acceptsShape (f.tree d).shape = f.sameTest c d := by
  unfold step at hs
  unfold sameTest
  rcases hc.content? with ⟨e, hx⟩ | ⟨v, hx⟩ | ⟨target, data, hx⟩ <;> rw [hx] at hs ⊢ <;>
    cases hs <;>
    rcases hf.content_shape hd with
      ⟨y, _, _, hy, ht⟩ | ⟨_, hy, ht⟩ | ⟨_, _, hy, ht⟩ | ⟨_, hy, ht⟩ <;>
    rw [hy, ht]
  · exact acceptsName_nameTest ..
  all_goals rfl

theorem sameTest_self (h : f.IsViewed c) : f.sameTest c c = true := by
  unfold sameTest
  rcases h.content? with ⟨e, hx⟩ | ⟨v, hx⟩ | ⟨target, data, hx⟩ <;> rw [hx] <;> simp

/-- Where a step to a viewed node goes, and which position it has. -/
theorem step_of_isViewed (hc : f.IsViewed c) (hs : f.step c = .ok s) :
    s.axis = .child ∧ s.position? = f.position? c ∧ ∀ p, s ≠ .text p := by
  unfold step at hs
  rcases hc.content? with ⟨e, hx⟩ | ⟨v, hx⟩ | ⟨target, data, hx⟩ <;> rw [hx] at hs <;> cases hs <;>
    exact ⟨rfl, rfl, nofun⟩

/-! ## Picking the step's node -/

theorem pick_position? (hc : f.IsViewed c) (hmem : c ∈ f.siblings c) :
    pick (f.position? c) ((f.siblings c).filter (f.sameTest c)) = [c] := by
  unfold position?
  cases hp : f.parent? c with
  | none =>
    rw [siblings_of_top hp, List.filter_singleton, sameTest_self hc]
    rfl
  | some p =>
    rw [siblings_of_parent hp] at hmem ⊢
    have hc' : c ∈ (f.children p).filter (f.sameTest c) :=
      List.mem_filter.2 ⟨hmem, sameTest_self hc⟩
    cases hi : ((f.children p).filter (f.sameTest c)).idxOf? c with
    | none => exact absurd hc' (List.idxOf?_eq_none_iff.1 hi)
    | some i =>
      obtain ⟨hlt, he, -⟩ := List.idxOf?_eq_some_iff.1 hi
      dsimp only
      rw [hi]
      exact pick_position (List.getElem?_eq_some_iff.2 ⟨hlt, he⟩)

/-! ## Texts -/

theorem textRun_mem (hp : f.parent? id = some p) (hid : id ∈ f.children p)
    (ht : f.isText id = true) :
    f.textRun id ∈ runs f.isText (f.children p) ∧ id ∈ f.textRun id := by
  rw [textRun, siblings_of_parent hp]
  cases hr : (runs f.isText (f.children p)).find? (·.contains id) with
  | some r =>
    have := List.find?_some hr
    exact ⟨List.mem_of_find?_eq_some hr, by simpa using this⟩
  | none =>
    have hflat : id ∈ (runs f.isText (f.children p)).flatten := by
      rw [flatten_runs]
      exact List.mem_filter.2 ⟨hid, ht⟩
    obtain ⟨r, hmem, hr'⟩ := List.mem_flatten.1 hflat
    have := List.find?_eq_none.1 hr r hmem
    exact absurd (List.contains_iff_mem.2 hr') this

theorem mem_textRuns {r : List NodeId} :
    r ∈ f.textRuns p ↔ r ∈ runs f.isText (f.children p) ∧ r.any f.hasText = true :=
  List.mem_filter

/-- There is a position for a text as soon as its run holds anything, and it picks the run. -/
theorem WellFormed.textPosition_eq_ok (hf : f.WellFormed) (hp : f.parent? id = some p)
    (hid : id ∈ f.children p) (ht : f.isText id = true)
    (hr : (f.textRun id).any f.hasText = true) :
    ∃ position, f.textPosition id = .ok position ∧
      pick position (f.textRuns p) = [f.textRun id] := by
  obtain ⟨hmem, hin⟩ := textRun_mem hp hid ht
  unfold textPosition
  rw [hp]
  dsimp only
  cases hi : (f.textRuns p).findIdx? (·.contains id) with
  | none =>
    have := List.findIdx?_eq_none_iff.1 hi _ (mem_textRuns.2 ⟨hmem, hr⟩)
    rw [List.contains_iff_mem.2 hin] at this
    cases this
  | some i =>
    obtain ⟨hlt, hcontains, -⟩ := List.findIdx?_eq_some_iff_getElem.1 hi
    have hget := (mem_textRuns.1 (List.getElem_mem hlt)).1
    have he : (f.textRuns p)[i] = f.textRun id := eq_of_mem_runs (hf.nodup_children p) hget hmem
      (List.contains_iff_mem.1 hcontains) hin
    exact ⟨_, rfl, pick_position (List.getElem?_eq_some_iff.2 ⟨hlt, he⟩)⟩

theorem textPosition_eq_error (hp : f.parent? id = some p) (hid : id ∈ f.children p)
    (ht : f.isText id = true) (hf : f.WellFormed) (hr : (f.textRun id).any f.hasText = false) :
    f.textPosition id = .error (f.failureOn (.node id) .noText) := by
  obtain ⟨hmem, hin⟩ := textRun_mem hp hid ht
  unfold textPosition
  rw [hp]
  dsimp only
  cases hi : (f.textRuns p).findIdx? (·.contains id) with
  | none => rfl
  | some i =>
    obtain ⟨hlt, hcontains, -⟩ := List.findIdx?_eq_some_iff_getElem.1 hi
    obtain ⟨hget, hany⟩ := mem_textRuns.1 (List.getElem_mem hlt)
    have he : (f.textRuns p)[i] = f.textRun id := eq_of_mem_runs (hf.nodup_children p) hget hmem
      (List.contains_iff_mem.1 hcontains) hin
    rw [he, hr] at hany
    cases hany

/-- The shape of a run of texts that holds anything. -/
def runShape (f : Forest) (r : List NodeId) : Shape NodeId :=
  .text ((r.find? f.hasText).getD 0) (Shape.textOf (r.map fun d => (f.tree d).shape))

theorem WellFormed.ofRun_eq (hf : f.WellFormed) {r : List NodeId} (hr : ∀ d ∈ r, f.IsContent d)
    (hany : r.any f.hasText = true) :
    Shape.ofRun (r.map fun d => (f.tree d).shape) = [f.runShape r] := by
  have hfind : (r.map fun d => (f.tree d).shape).find? Shape.hasText =
      (r.find? f.hasText).map fun d => (f.tree d).shape := by
    rw [List.find?_map]
    exact congrArg _ (List.find?_congr fun d hd => hf.hasText_shape (hr d hd))
  rw [Shape.ofRun, hfind, runShape]
  cases hd : r.find? f.hasText with
  | none =>
    obtain ⟨d, hm, hd'⟩ := List.any_eq_true.1 hany
    exact absurd hd' (List.find?_eq_none.1 hd d hm)
  | some d =>
    rw [Option.map_some, Option.getD_some]
    dsimp only
    rw [hf.label_shape (hr d (List.mem_of_find?_eq_some hd))]

/-! ## One node alone -/

/-- The shapes that a view shows where it shows the siblings of a node. -/
def siblingShapes (f : Forest) (id : NodeId) : List (Shape NodeId) :=
  Shape.mergeTexts ((f.siblings id).map fun d => (f.tree d).shape)

/-- The step to what has a view of its own picks its shape. -/
theorem WellFormed.pick_viewed (hf : f.WellFormed) (hv : f.IsViewed id) (hs : f.step id = .ok s)
    (hmem : id ∈ f.siblings id) (hcontent : ∀ d ∈ f.siblings id, f.IsContent d) :
    pick s.position? ((f.siblingShapes id).filter s.acceptsShape) = [(f.tree id).shape] := by
  obtain ⟨-, hposition, hno⟩ := step_of_isViewed hv hs
  have htest : (f.siblings id).filter (s.acceptsShape ∘ fun d => (f.tree d).shape) =
      (f.siblings id).filter (f.sameTest id) :=
    List.filter_congr fun d hd => hf.acceptsShape_step hv (hcontent d hd) hs
  rw [siblingShapes, Shape.filter_mergeTexts fun t => PathStep.isText_of_acceptsShape hno,
    List.filter_map, htest, hposition, pick_map, pick_position? hv hmem]
  rfl

/-- The step to a text picks the shape of its run. -/
theorem WellFormed.pick_text (hf : f.WellFormed) (ht : f.isText id = true)
    (hp : f.parent? id = some p) (hs : f.step id = .ok s) (hmem : id ∈ f.siblings id)
    (hcontent : ∀ d ∈ f.siblings id, f.IsContent d) :
    s.axis = .child ∧ (f.textRun id).any f.hasText = true ∧
      pick s.position? ((f.siblingShapes id).filter s.acceptsShape) =
        [f.runShape (f.textRun id)] := by
  rw [siblings_of_parent hp] at hmem hcontent
  obtain ⟨v, hx⟩ := exists_text (beq_iff_eq.1 ht)
  rw [step, hx] at hs
  dsimp only at hs
  cases hr : (f.textRun id).any f.hasText with
  | false =>
    rw [textPosition_eq_error hp hmem ht hf hr] at hs
    cases hs
  | true =>
    obtain ⟨position, hposition, hpick⟩ := hf.textPosition_eq_ok hp hmem ht hr
    rw [hposition] at hs
    cases hs
    have hfilter : PathStep.acceptsShape (α := NodeId) (.text position) = Shape.isText :=
      funext fun t => by cases t <;> rfl
    have hruns : ((f.textRuns p).flatMap fun r => Shape.ofRun (r.map fun d => (f.tree d).shape)) =
        (f.textRuns p).map f.runShape := by
      rw [← List.flatMap_singleton' (List.map f.runShape _), List.flatMap_map]
      refine List.flatMap_congr fun r hr => ?_
      obtain ⟨hm, hany⟩ := mem_textRuns.1 hr
      exact hf.ofRun_eq (fun d hd => hcontent d (mem_of_mem_runs hm hd).1) hany
    refine ⟨rfl, rfl, ?_⟩
    rw [siblingShapes, siblings_of_parent hp, hfilter, Shape.filter_isText_mergeTexts
      (fun d hd => hf.isText_shape (hcontent d hd)) (fun d hd => hf.hasText_shape (hcontent d hd))]
    show pick position ((f.textRuns p).flatMap _) = _
    rw [hruns, pick_map, hpick]
    rfl

end TreeQuery.Forest
