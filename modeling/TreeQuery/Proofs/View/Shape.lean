import Mathlib.Data.List.SplitBy
import TreeQuery.XPath.Node

/-!
# Shapes

A shape is what a tree and its view have in common: named elements with attributes, texts, comments
and instructions in their order, each with a label that says what it stands for. The shape of a tree
(`Tree.shapes`) is labelled with its nodes, that of a view (`XPath.Branch.shape`) with the results
that stand for its parts. In a shape adjacent texts are one (`Shape.mergeTexts`).
-/

namespace TreeQuery

/-- Every list is a run of what passes a test, or such a run, what does not, and the rest. -/
theorem run_induction {α : Type} {p : α → Bool} {motive : List α → Prop}
    (last : ∀ run, (∀ a ∈ run, p a = true) → motive run)
    (ended : ∀ run a rest, (∀ b ∈ run, p b = true) → p a = false → motive rest →
      motive (run ++ a :: rest)) (l : List α) : motive l := by
  have hrun : ∀ a ∈ l.takeWhile p, p a = true := fun a ha =>
    List.all_eq_true.1 List.all_takeWhile a ha
  rw [← List.takeWhile_append_dropWhile (p := p) (l := l)]
  cases hd : l.dropWhile p with
  | nil =>
    rw [List.append_nil]
    exact last _ hrun
  | cons a rest =>
    have ha : p a = false := by
      have := List.head?_dropWhile_not p l
      rw [hd] at this
      simpa using this
    have : rest.length < l.length := by
      have := (List.dropWhile_suffix p (l := l)).length_le
      rw [hd, List.length_cons] at this
      omega
    exact ended _ a rest hrun ha (run_induction last ended rest)
termination_by l.length

inductive Shape (α : Type) where
  | element (label : α) (name : ExpandedName) (attributes : List (α × ExpandedName × String))
      (children : List (Shape α))
  | text (label : α) (value : String)
  | comment (label : α) (value : String)
  | instruction (label : α) (target data : String)

namespace Shape

variable {α β : Type}

mutual

/-- The same shape with other labels. -/
def map (g : α → β) : Shape α → Shape β
  | element label name attributes children =>
    element (g label) name (attributes.map fun a => (g a.1, a.2)) (mapAll g children)
  | text label value => text (g label) value
  | comment label value => comment (g label) value
  | instruction label target data => instruction (g label) target data

def mapAll (g : α → β) : List (Shape α) → List (Shape β)
  | [] => []
  | s :: ss => s.map g :: mapAll g ss

end

mutual

/-- The text below a node. -/
def textBelow : Shape α → String
  | element _ _ _ cs => textOf cs
  | text _ s => s
  | _ => ""

def textOf : List (Shape α) → String
  | [] => ""
  | s :: ss => s.textBelow ++ textOf ss

end

def label : Shape α → α
  | element l .. | text l _ | comment l _ | instruction l .. => l

def isText : Shape α → Bool
  | text .. => true
  | _ => false

/-- Whether a node is a text that holds anything. -/
def hasText : Shape α → Bool
  | text _ s => s != ""
  | _ => false

/-- Adjacent texts as one, which stands for the first that holds anything. Texts that hold nothing
are nothing. -/
def ofRun (run : List (Shape α)) : List (Shape α) :=
  match run.find? hasText with
  | some s => [text s.label (textOf run)]
  | none => run.filter (!·.isText)

/-- Makes every maximal run of adjacent texts one text. -/
def mergeTexts (l : List (Shape α)) : List (Shape α) :=
  (l.splitBy fun a b => a.isText && b.isText).flatMap ofRun

/-! ## Labels -/

theorem mapAll_eq (g : α → β) (ss : List (Shape α)) : mapAll g ss = ss.map (map g) := by
  induction ss with
  | nil => rfl
  | cons s ss ih => rw [mapAll, ih, List.map_cons]

theorem isText_map (g : α → β) (s : Shape α) : (s.map g).isText = s.isText := by
  cases s <;> rfl

theorem label_map (g : α → β) (s : Shape α) : (s.map g).label = g s.label := by
  cases s <;> rfl

mutual

theorem textBelow_map (g : α → β) : (s : Shape α) → (s.map g).textBelow = s.textBelow
  | element _ _ _ cs => textOf_mapAll g cs
  | text .. | comment .. | instruction .. => rfl

theorem textOf_mapAll (g : α → β) : (ss : List (Shape α)) → textOf (mapAll g ss) = textOf ss
  | [] => rfl
  | s :: ss => by rw [mapAll, textOf, textOf, textBelow_map g s, textOf_mapAll g ss]

end

/-! ## Merging -/

theorem textOf_append (ss ts : List (Shape α)) : textOf (ss ++ ts) = textOf ss ++ textOf ts := by
  induction ss with
  | nil => simp [textOf]
  | cons s ss ih => simp [textOf, ih, String.append_assoc]

/-- A run has no text exactly if none of its texts holds anything. -/
theorem textOf_eq_empty_iff {run : List (Shape α)} (h : ∀ s ∈ run, s.isText = true) :
    textOf run = "" ↔ run.find? hasText = none := by
  induction run with
  | nil => simp [textOf]
  | cons s run ih =>
    have hrest := ih fun t hm => h t (List.mem_cons_of_mem _ hm)
    cases s with
    | text l v =>
      have happend : v ++ textOf run = "" ↔ v = "" ∧ textOf run = "" := by
        rw [← String.toList_inj, ← String.toList_inj, ← String.toList_inj]
        simp
      rw [textOf, textBelow, happend, hrest, List.find?_cons]
      by_cases hv : v = ""
      · simp [hasText, hv]
      · have hb : (v != "") = true := bne_iff_ne.2 hv
        simp [hasText, hv, hb]
    | _ => cases h _ List.mem_cons_self

theorem ofRun_eq_nil {run : List (Shape α)} (h : ∀ s ∈ run, s.isText = true)
    (hf : run.find? hasText = none) : ofRun run = [] := by
  rw [ofRun, hf]
  exact List.filter_eq_nil_iff.2 fun s hs => by simp [h s hs]

theorem ofRun_nil : ofRun ([] : List (Shape α)) = [] := rfl

theorem ofRun_singleton {s : Shape α} (h : s.isText = false) : ofRun [s] = [s] := by
  cases s with
  | text => cases h
  | _ => rfl

theorem isText_of_mem_ofRun {run : List (Shape α)} (h : ∀ s ∈ run, s.isText = true) :
    ∀ s ∈ ofRun run, s.isText = true := by
  intro s hs
  unfold ofRun at hs
  split at hs
  · rw [List.mem_singleton.1 hs]
    rfl
  · exact h s (List.mem_of_mem_filter hs)

/-- A run of texts is merged into no more than one text. -/
theorem mergeTexts_run {run : List (Shape α)} (h : ∀ s ∈ run, s.isText = true) :
    mergeTexts run = ofRun run := by
  cases run with
  | nil => rfl
  | cons s run =>
    have hc : (s :: run).IsChain fun a b => (a.isText && b.isText) = true :=
      List.isChain_iff_forall_rel_of_append_cons_cons.2 fun a b l l' he => by
        rw [he] at h
        rw [h a (by simp), h b (by simp)]
        rfl
    rw [mergeTexts, List.splitBy_of_isChain (List.cons_ne_nil s run) hc]
    simp

/-- What is no text ends a run. -/
theorem mergeTexts_append_cons {run : List (Shape α)} (h : ∀ s ∈ run, s.isText = true) {s : Shape α}
    (hs : s.isText = false) (rest : List (Shape α)) :
    mergeTexts (run ++ s :: rest) = ofRun run ++ s :: mergeTexts rest := by
  have hfirst : (run ++ s :: rest).splitBy (fun a b => a.isText && b.isText) =
      run.splitBy (fun a b => a.isText && b.isText) ++
        (s :: rest).splitBy fun a b => a.isText && b.isText :=
    List.splitBy_append fun x _ y hy => by
      cases hy
      rw [hs, Bool.and_false]
  have hrest : ([s] ++ rest).splitBy (fun a b => a.isText && b.isText) =
      [s].splitBy (fun a b => a.isText && b.isText) ++
        rest.splitBy fun a b => a.isText && b.isText :=
    List.splitBy_append fun x hx y _ => by
      cases hx
      show (s.isText && y.isText) = false
      rw [hs, Bool.false_and]
  have hone : [s].splitBy (fun a b => a.isText && b.isText) = [[s]] := rfl
  rw [mergeTexts, hfirst, List.flatMap_append, ← mergeTexts, mergeTexts_run h]
  rw [List.singleton_append] at hrest
  rw [hrest, hone, List.singleton_append, List.flatMap_cons, ofRun_singleton hs]
  rfl

theorem textOf_ofRun {run : List (Shape α)} (h : ∀ s ∈ run, s.isText = true) :
    textOf (ofRun run) = textOf run := by
  unfold ofRun
  cases hf : run.find? hasText with
  | some s => simp [textOf, textBelow]
  | none => rw [(textOf_eq_empty_iff h).2 hf, List.filter_eq_nil_iff.2 fun s hs => by simp [h s hs],
      textOf]

theorem mergeTexts_eq_self {l : List (Shape α)} (h : ∀ s ∈ l, s.isText = false) :
    mergeTexts l = l := by
  induction l with
  | nil => rfl
  | cons s l ih =>
    have hnil : ∀ t ∈ ([] : List (Shape α)), t.isText = true := nofun
    rw [← List.nil_append (s :: l), mergeTexts_append_cons hnil (h s List.mem_cons_self), ofRun_nil,
      ih fun t ht => h t (List.mem_cons_of_mem _ ht)]

theorem textOf_mergeTexts (l : List (Shape α)) : textOf (mergeTexts l) = textOf l := by
  induction l using run_induction (p := isText) with
  | last run h => rw [mergeTexts_run h, textOf_ofRun h]
  | ended run s rest h hs ih =>
    rw [mergeTexts_append_cons h hs, textOf_append, textOf_append, textOf_ofRun h, textOf, textOf,
      ih]

/-- Merging texts leaves everything else as it is. -/
theorem filter_mergeTexts {p : Shape α → Bool} (hp : ∀ s, p s = true → s.isText = false)
    (l : List (Shape α)) : (mergeTexts l).filter p = l.filter p := by
  have hnone {l : List (Shape α)} (h : ∀ s ∈ l, s.isText = true) : l.filter p = [] :=
    List.filter_eq_nil_iff.2 fun s hs ht => by
      have := hp s ht
      rw [h s hs] at this
      cases this
  induction l using run_induction (p := isText) with
  | last run h => rw [mergeTexts_run h, hnone h, hnone (isText_of_mem_ofRun h)]
  | ended run s rest h hs ih =>
    rw [mergeTexts_append_cons h hs, List.filter_append, List.filter_append, hnone h,
      hnone (isText_of_mem_ofRun h), List.filter_cons, List.filter_cons, ih]

end Shape

/-! ## Shapes of trees -/

/-- The characters of a text. -/
def Value.characters : Value → String
  | .text s => s
  | _ => ""

namespace Tree

mutual

/-- The shape of a tree, with adjacent texts as one. A document is like an element without a name,
an attribute like a text. -/
def shape : Tree → Shape NodeId
  | document id cs => .element id ⟨"", ""⟩ [] (Shape.mergeTexts (shapeAll cs))
  | element id name ns _ attributes cs =>
    .element id ⟨ns.uri, name⟩ (attributes.map fun a => (a.id, ⟨a.ns.uri, a.name⟩, a.value))
      (Shape.mergeTexts (shapeAll cs))
  | attr a => .text a.id a.value
  | text id v => .text id v.characters
  | comment id v => .comment id v.characters
  | instruction id target data => .instruction id target data

def shapeAll : List Tree → List (Shape NodeId)
  | [] => []
  | t :: ts => t.shape :: shapeAll ts

end

theorem shapeAll_eq (ts : List Tree) : shapeAll ts = ts.map shape := by
  induction ts with
  | nil => rfl
  | cons t ts ih => rw [shapeAll, ih, List.map_cons]

/-- What the view of a whole tree shows side by side: the children of a document, or the top. -/
def topShapes : Tree → List (Shape NodeId)
  | document _ cs => shapeAll cs
  | t => [t.shape]

end Tree

/-! ## Shapes of views -/

namespace XPath.Branch

mutual

/-- The shape of a view, in which each part has the result that stands for it. -/
def shape : Branch → Shape RawItem
  | element v data cs =>
    .element (.view v) data.name
      (data.attributes.map fun a => (.attr v a.name.clark a.value, a.name, a.value)) (shapeAll cs)
  | text slot s => .text (.text slot s) s
  | comment v s => .comment (.view v) s
  | instruction v target data => .instruction (.view v) target data

def shapeAll : List Branch → List (Shape RawItem)
  | [] => []
  | b :: bs => b.shape :: shapeAll bs

end

theorem shapeAll_eq (bs : List Branch) : shapeAll bs = bs.map shape := by
  induction bs with
  | nil => rfl
  | cons b bs ih => rw [shapeAll, ih, List.map_cons]

mutual

theorem textBelow_shape : (b : Branch) → b.shape.textBelow = b.textBelow
  | element _ _ cs => textOf_shapeAll cs
  | text .. | comment .. | instruction .. => rfl

theorem textOf_shapeAll : (bs : List Branch) → Shape.textOf (shapeAll bs) = textOf bs
  | [] => rfl
  | b :: bs => by rw [shapeAll, Shape.textOf, textOf, textBelow_shape b, textOf_shapeAll bs]

end

end XPath.Branch

end TreeQuery
