import TreeQuery.Proofs.Anchoring.Meaning
import TreeQuery.Proofs.Grammar.Literal
import TreeQuery.Proofs.Path.Meaning
import TreeQuery.Proofs.Path.Whole

/-!
# Values of paths

An absolute path stands for a tree (`AbsolutePath.tree`). Where each step of the path leads to one
node alone (`AbsolutePath.Leads`), this tree has the last node for its value
(`AbsolutePath.Leads.valueAt_tree`), if the positions in it are numbers of expressions.
-/

namespace TreeQuery

open XPath

/-! ## Paths as trees -/

/-- The test for a name in a namespace. -/
def expandedTree (name uri : String) : Expr :=
  .binary .and (.binary .eq (.call ⟨none, "local-name"⟩ []) (literalTree name))
    (.binary .eq (.call ⟨none, "namespace-uri"⟩ []) (literalTree uri))

def positionTrees : Option Nat → List Expr
  | some n => [.number (toString n)]
  | none => []

/-- The step along an axis to what passes a test, at a position. -/
def NameTest.tree (axis : AxisSpec) (test : NameTest) (position : Option Nat) : Step :=
  match test with
  | plain name => .along axis (.name ⟨none, name⟩) (positionTrees position)
  | expanded name uri =>
    .along axis (.any none) (expandedTree name uri :: positionTrees position)

def PathStep.tree : PathStep → Step
  | element test position => test.tree .implied position
  | attr test => test.tree .atSign none
  | text position => .along .implied .text (positionTrees position)
  | comment position => .along .implied .comment (positionTrees position)
  | instruction target position =>
    .along .implied (.instruction (some target)) (positionTrees position)

def AbsolutePath.steps : AbsolutePath → Steps
  | [] => .done
  | s :: path => .next .slash s.tree (steps path)

/-- The tree that an absolute path stands for. -/
def AbsolutePath.tree (path : AbsolutePath) : Expr := .absolute path.steps

namespace XPath

/-! ## Literals -/

theorem evaluateAll_literals (env : Environment) (ctx : Context) (texts : List String) :
    evaluateAll env ctx (texts.map .literal) = some (texts.map .string) := by
  induction texts with
  | nil =>
    rw [List.map_nil, evaluateAll]
    rfl
  | cons s texts ih =>
    rw [List.map_cons, evaluateAll_cons, evaluate, ih]
    rfl

theorem evaluate_literalTree (env : Environment) (ctx : Context) (s : String) :
    evaluate env ctx (literalTree s) = some (.string s) := by
  unfold literalTree
  split
  · next h =>
    rw [evaluate_call, evaluateAll_literals]
    show CoreFunction.apply env ctx "concat" (((literalTexts s).map XValue.string).map sorted) = _
    have htwo := two_le_literalTexts h.1 h.2
    have hjoin := join_literalTexts s
    match literalTexts s, htwo, hjoin with
    | a :: b :: texts, _, hjoin =>
      have htexts : ((texts.map XValue.string).map sorted).map XValue.toString = texts := by
        rw [List.map_map, List.map_map]
        exact List.map_id'' (fun s => rfl) texts
      rw [← hjoin]
      exact congrArg (fun l => some (XValue.string (String.join (a :: b :: l)))) htexts
  · rw [evaluate]

theorem evaluate_expandedTree (env : Environment) (ctx : Context) (name uri : String) :
    evaluate env ctx (expandedTree name uri) =
      some (.boolean (ctx.node.localName == name && ctx.node.namespaceUri == uri)) := by
  have hlocal : evaluate env ctx (.call ⟨none, "local-name"⟩ []) =
      some (.string ctx.node.localName) := by
    rw [evaluate_call, evaluateAll]
    rfl
  have huri : evaluate env ctx (.call ⟨none, "namespace-uri"⟩ []) =
      some (.string ctx.node.namespaceUri) := by
    rw [evaluate_call, evaluateAll]
    rfl
  have hequal {e : Expr} {a : String} (b : String) (he : evaluate env ctx e = some (.string a)) :
      evaluate env ctx (.binary .eq e (literalTree b)) = some (.boolean (a == b)) := by
    rw [evaluate_binary env ctx (by decide) (by decide), he, evaluate_literalTree]
    exact congrArg (fun x => some (XValue.boolean x)) (Bool.xor_false _)
  rw [expandedTree, evaluate_and, hequal name hlocal, hequal uri huri]
  cases ctx.node.localName == name <;> rfl

/-! ## Predicates -/

theorem keepWhere_eq {test : Context → Option XValue} {keeps : Context → Bool} {cs : List Context}
    (h : ∀ c ∈ cs, ∃ v, test c = some v ∧
      keepsPosition v ((c.position.map (·.1)).getD 0) = keeps c) :
    keepWhere test cs = some ((cs.filter keeps).map (·.node)) := by
  induction cs with
  | nil => rfl
  | cons c cs ih =>
    obtain ⟨⟨v, hv, hk⟩, hcs⟩ := List.forall_mem_cons.1 h
    rw [keepWhere, hv]
    dsimp only
    rw [ih hcs, hk, Option.map_some, List.filter_cons]
    split <;> rfl

/-- A predicate that asks for a property of the nodes keeps those that have it. -/
theorem keepWhere_boolean {test : Context → Option XValue} {keeps : XNode → Bool}
    (h : ∀ c, test c = some (.boolean (keeps c.node))) (ns : List XNode) :
    keepWhere test (positioned ns) = some (ns.filter keeps) := by
  rw [keepWhere_eq fun c _ => ⟨_, h c, rfl⟩, positioned, List.filter_map, List.map_map]
  refine congrArg some (?_ : _ = ns.filter keeps)
  exact (map_filter_zipIdx keeps id ns).trans (List.map_id _)

theorem filter_zipIdx_position {α : Type} (l : List α) (k n : Nat) :
    ((l.zipIdx k).filter fun a => n + 1 == a.2 + 1).map Prod.fst =
      if k ≤ n then (l[n - k]?).toList else [] := by
  induction l generalizing k with
  | nil => simp
  | cons a l ih =>
    rw [List.zipIdx_cons, List.filter_cons]
    by_cases hk : n = k
    · subst hk
      rw [if_pos (beq_self_eq_true _), List.map_cons, ih, if_neg (by omega), if_pos le_rfl,
        Nat.sub_self]
      rfl
    · have hne : (n + 1 == k + 1) = false := by simpa using hk
      rw [hne, if_neg Bool.false_ne_true, ih]
      by_cases hle : k ≤ n
      · rw [if_pos hle, if_pos (by omega), show n - k = n - (k + 1) + 1 by omega,
          List.getElem?_cons_succ]
      · rw [if_neg hle, if_neg (by omega)]

/-- A numeral for a predicate picks the node at its position. -/
theorem keepWhere_position {env : Environment} {n : Nat} (hn : n < 2 ^ 53) (ns : List XNode) :
    keepWhere (fun c => evaluate env c (.number (toString n))) (positioned ns) =
      some (pick (some n) ns) := by
  have hkeeps (c : Context) : ∃ v, evaluate env c (.number (toString n)) = some v ∧
      keepsPosition v ((c.position.map (·.1)).getD 0) =
        (n == (c.position.map (·.1)).getD 0) := by
    refine ⟨_, ?_, keepsPosition_toString hn _⟩
    rw [evaluate]
  rw [keepWhere_eq fun c _ => hkeeps c, positioned, List.filter_map, List.map_map]
  refine congrArg some ?_
  cases n with
  | zero =>
    rw [pick, List.filter_eq_nil_iff.2]
    · rfl
    · intro a _
      simp
  | succ n => exact (filter_zipIdx_position ns 0 n).trans (if_pos (Nat.zero_le n))

theorem keepByAll_positionTrees {env : Environment} {position : Option Nat}
    (hp : ∀ n ∈ position, n < 2 ^ 53) (ns : List XNode) :
    keepByAll env (positionTrees position) ns = some (pick position ns) := by
  cases position with
  | none =>
    rw [positionTrees, keepByAll]
    rfl
  | some n =>
    rw [positionTrees, keepByAll, keepWhere_position (hp n rfl)]
    dsimp only
    rw [keepByAll]

/-! ## Sequences of steps -/

theorem evaluateStep_along {env : Environment} {axis : AxisSpec} {t : NodeTest}
    {uri : Option String} {predicates : List Expr} {x y : XNode} (hu : testUri env t = some uri)
    (h : keepByAll env predicates ((x.along env.documents axis.axis).filter
      (passes axis.axis t uri)) = some [y]) :
    evaluateStep env [x] (.along axis t predicates) = some [y] := by
  rw [evaluateStep, hu]
  dsimp only
  rw [collect, h]
  rfl

theorem evaluateSteps_append (env : Environment) (ns : List XNode) (steps more : Steps) :
    evaluateSteps env ns (steps.append more) =
      (evaluateSteps env ns steps).bind fun ms => evaluateSteps env ms more := by
  fun_induction Steps.append steps more generalizing ns with
  | case1 => rw [evaluateSteps, Option.bind_some]
  | case2 sep step rest more ih =>
    rw [evaluateSteps, evaluateSteps]
    cases evaluateStep env (beforeStep sep ns) step with
    | none => rfl
    | some ms => exact ih ms

end XPath

/-! ## Steps of paths -/

section Steps

variable {env : Environment} {x y : XNode} {position : Option Nat}

theorem NameTest.evaluateStep_tree {axis : AxisSpec} {test : NameTest}
    (hp : ∀ n ∈ position, n < 2 ^ 53)
    (h : pick position ((x.along env.documents axis.axis).filter (test.accepts axis.axis)) = [y]) :
    evaluateStep env [x] (test.tree axis position) = some [y] := by
  cases test with
  | plain name =>
    exact evaluateStep_along rfl ((keepByAll_positionTrees hp _).trans (congrArg some h))
  | expanded name uri =>
    let keeps (z : XNode) : Bool := z.localName == name && z.namespaceUri == uri
    have hkeeps (c : Context) :
        evaluate env c (expandedTree name uri) = some (.boolean (keeps c.node)) :=
      evaluate_expandedTree env c name uri
    refine evaluateStep_along rfl ?_
    rw [keepByAll, keepWhere_boolean hkeeps]
    dsimp only
    rw [keepByAll_positionTrees hp, List.filter_filter, ← h]
    refine congrArg (fun l => some (pick position l)) (List.filter_congr fun z _ => ?_)
    exact Bool.and_comm _ _

theorem PathStep.evaluateStep_tree {s : PathStep} (hp : ∀ n ∈ s.position?, n < 2 ^ 53)
    (h : s.select env.documents x = [y]) : evaluateStep env [x] s.tree = some [y] := by
  cases s with
  | element test position => exact NameTest.evaluateStep_tree hp h
  | attr test =>
    have hp : ∀ n ∈ (none : Option Nat), n < 2 ^ 53 := nofun
    exact NameTest.evaluateStep_tree hp h
  | text position | comment position | instruction target position =>
    exact evaluateStep_along rfl ((keepByAll_positionTrees hp _).trans (congrArg some h))

end Steps

/-! ## Paths -/

namespace AbsolutePath

variable {ds : Documents} {path : AbsolutePath} {x : XNode}

/-- Each step of a path leads from one node to one node alone. -/
inductive Leads (ds : Documents) : AbsolutePath → XNode → Prop where
  | root : Leads ds [] (documentNode ds 0)
  | step {path : AbsolutePath} {s : PathStep} {x y : XNode} :
      Leads ds path x → s.select ds x = [y] → Leads ds (path ++ [s]) y

theorem Leads.select_eq (h : Leads ds path x) : path.select ds = [x] := by
  induction h with
  | root => rfl
  | step _ hs ih => rw [select_append, ih, List.flatMap_singleton, hs]

theorem steps_append (path : AbsolutePath) (s : PathStep) :
    AbsolutePath.steps (path ++ [s]) = path.steps.append (.next .slash s.tree .done) := by
  induction path with
  | nil => rfl
  | cons t path ih =>
    rw [List.cons_append, steps, ih]
    rfl

theorem Leads.evaluateSteps_eq {env : Environment} (h : Leads env.documents path x)
    (hp : ∀ s ∈ path, ∀ n ∈ s.position?, n < 2 ^ 53) :
    evaluateSteps env [documentNode env.documents 0] path.steps = some [x] := by
  induction h with
  | root => rw [steps, evaluateSteps]
  | @step path s x y _ hy ih =>
    obtain ⟨hpath, hlast⟩ := List.forall_mem_append.1 hp
    rw [steps_append, evaluateSteps_append, ih hpath, Option.bind_some, evaluateSteps, beforeStep,
      PathStep.evaluateStep_tree (hlast s List.mem_cons_self) hy]
    dsimp only
    rw [evaluateSteps]

/-- At every node of the first document the tree of a path has the node for its value that the path
leads to. -/
theorem Leads.valueAt_tree {env : Environment} {z : XNode} (h : Leads env.documents path x)
    (hp : ∀ s ∈ path, ∀ n ∈ s.position?, n < 2 ^ 53) (hz : z.place.document = 0) :
    valueAt env z path.tree = some (.nodes [x]) := by
  rw [valueAt, tree, evaluate, hz, h.evaluateSteps_eq hp]
  rfl

end AbsolutePath

end TreeQuery
