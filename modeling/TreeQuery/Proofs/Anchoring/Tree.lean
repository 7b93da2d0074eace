import TreeQuery.Proofs.Grammar.Written
import TreeQuery.XPath.ContextUse
import TreeQuery.XPath.Evaluate

/-!
# Anchored trees

The tree that anchors make of an expression (`Expr.anchored`): outside predicates, relative paths
start from the root, the functions that look at the context node are given the root, and `lang` comes
after a falsehood. It can be written wherever the expression can (`Expr.formed_anchored`).
-/

namespace TreeQuery.XPath

/-! ## Anchors of trees -/

/-- A path to the root. -/
def rootPath : Expr := .absolute .done

/-- A call of `false`. -/
def falsehood : Expr := .call ⟨none, "false"⟩ []

/-- Whether a call looks at the context node for want of an argument. -/
def looksAtContext (n : Name) (args : List Expr) : Bool :=
  n.pfx.isNone && contextFunctions.contains n.localName && args.isEmpty

def anchoredCall (n : Name) (args : List Expr) : Expr :=
  if n = ⟨none, "lang"⟩ then .group (.binary .and falsehood (.call n args))
  else if looksAtContext n args then .call n [rootPath]
  else .call n args

mutual

def Expr.anchored : Expr → Expr
  | .binary op a b => .binary op a.anchored b.anchored
  | .negate e => .negate e.anchored
  | .group e => .group e.anchored
  | .literal s => .literal s
  | .number s => .number s
  | .variable n => .variable n
  | .call n args => anchoredCall n (anchoredAll args)
  | .filter e p => .filter e.anchored p
  | .relative first rest => .absolute (.next .slash first rest)
  | .absolute steps => .absolute steps
  | .through e steps => .through e.anchored steps

def anchoredAll : List Expr → List Expr
  | [] => []
  | e :: es => e.anchored :: anchoredAll es

end

mutual

/-- Whether `lang` is called outside predicates. -/
def Expr.callsLang : Expr → Bool
  | .binary _ a b => a.callsLang || b.callsLang
  | .negate e | .group e | .filter e _ | .through e _ => e.callsLang
  | .call n args => n == ⟨none, "lang"⟩ || anyCallsLang args
  | _ => false

def anyCallsLang : List Expr → Bool
  | [] => false
  | e :: es => e.callsLang || anyCallsLang es

end

theorem isEmpty_anchoredAll (es : List Expr) : (anchoredAll es).isEmpty = es.isEmpty := by
  cases es <;> rfl

/-- An anchored call needs no more parentheses than the call. -/
theorem level_anchoredCall (n : Name) (args : List Expr) : (anchoredCall n args).level = 11 := by
  unfold anchoredCall
  split
  · rfl
  · split <;> rfl

theorem endsInRoot_anchoredCall (n : Name) (args : List Expr) :
    (anchoredCall n args).endsInRoot = false := by
  unfold anchoredCall
  split
  · rfl
  · split <;> rfl

theorem Expr.level_anchored (e : Expr) : e.anchored.level = e.level := by
  cases e with
  | call n args => exact level_anchoredCall n _
  | _ => rfl

theorem Expr.endsInRoot_anchored (e : Expr) : e.anchored.endsInRoot = e.endsInRoot := by
  match e with
  | .binary op a b => exact b.endsInRoot_anchored
  | .negate e => exact e.endsInRoot_anchored
  | .call n args => exact endsInRoot_anchoredCall n _
  | .absolute .done | .absolute (.next ..) | .relative .. => rfl
  | .group _ | .literal _ | .number _ | .variable _ | .filter .. | .through .. => rfl

theorem formed_anchoredCall {n : Name} {args : List Expr} (hn : n.IsFunction)
    (h : AllFormed args) : (anchoredCall n args).Formed := by
  have hcall : (Expr.call n args).Formed := by
    rw [Expr.Formed]
    exact ⟨hn, h⟩
  unfold anchoredCall
  split
  · have hfalse : falsehood.Formed := by
      rw [falsehood, Expr.Formed, AllFormed]
      exact ⟨rfl, trivial⟩
    rw [Expr.Formed, Expr.Formed]
    refine ⟨hfalse, hcall, ?_, ?_, fun _ => rfl⟩
    · decide
    · exact (by decide : 2 < 11)
  · split
    · rw [Expr.Formed, AllFormed, AllFormed, rootPath, Expr.Formed, Steps.Formed]
      exact ⟨hn, trivial, trivial⟩
    · exact hcall

mutual

theorem Expr.formed_anchored (e : Expr) (h : e.Formed) : e.anchored.Formed := by
  match e with
  | .binary op a b =>
    rw [Expr.Formed] at h
    rw [Expr.anchored, Expr.Formed, a.level_anchored, b.level_anchored, a.endsInRoot_anchored]
    exact ⟨a.formed_anchored h.1, b.formed_anchored h.2.1, h.2.2⟩
  | .negate e =>
    rw [Expr.Formed] at h
    rw [Expr.anchored, Expr.Formed, e.level_anchored]
    exact ⟨e.formed_anchored h.1, h.2⟩
  | .group e =>
    rw [Expr.Formed] at h
    rw [Expr.anchored, Expr.Formed]
    exact e.formed_anchored h
  | .literal _ | .number _ | .variable _ | .absolute _ => exact h
  | .call n args =>
    rw [Expr.Formed] at h
    rw [Expr.anchored]
    exact formed_anchoredCall h.1 (formed_anchoredAll args h.2)
  | .filter e p =>
    rw [Expr.Formed] at h
    rw [Expr.anchored, Expr.Formed, e.level_anchored]
    exact ⟨e.formed_anchored h.1, h.2⟩
  | .relative first rest =>
    rw [Expr.Formed] at h
    rw [Expr.anchored, Expr.Formed, Steps.Formed]
    exact h
  | .through e steps =>
    rw [Expr.Formed] at h
    rw [Expr.anchored, Expr.Formed, e.level_anchored]
    exact ⟨e.formed_anchored h.1, h.2⟩

theorem formed_anchoredAll (es : List Expr) (h : AllFormed es) : AllFormed (anchoredAll es) := by
  match es with
  | [] =>
    rw [anchoredAll]
    exact h
  | e :: es =>
    rw [AllFormed] at h
    rw [anchoredAll, AllFormed]
    exact ⟨e.formed_anchored h.1, formed_anchoredAll es h.2⟩

end

end TreeQuery.XPath
