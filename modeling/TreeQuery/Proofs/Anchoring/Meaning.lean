import TreeQuery.Proofs.Anchoring.Tree

/-!
# The value of an anchored expression

At any node of a document an anchored expression has the value that the expression itself has at
the document (`evaluate_anchored`), since nothing else in it looks at the context node. A call of
`lang` that fails at the document is not even made.
-/

namespace TreeQuery.XPath

/-- One answer for another, unless there was none because of `lang`. -/
def Agrees {α : Type} (lang : Bool) (x y : Option α) : Prop := x = y ∨ lang = true ∧ x = none

section Agrees

variable {α β : Type} {lang lang' : Bool} {x y : Option α}

theorem Agrees.refl (lang : Bool) (x : Option α) : Agrees lang x x := .inl rfl

theorem Agrees.mono (h : Agrees lang x y) (hl : lang = true → lang' = true) :
    Agrees lang' x y := by
  rcases h with h | ⟨ht, hn⟩
  · exact .inl h
  · exact .inr ⟨hl ht, hn⟩

/-- What comes of answers that agree agrees. -/
theorem Agrees.bind (h : Agrees lang x y) {f g : α → Option β}
    (hfg : ∀ a, Agrees lang' (f a) (g a)) : Agrees (lang || lang') (x.bind f) (y.bind g) := by
  rcases h with rfl | ⟨rfl, rfl⟩
  · cases x with
    | none => exact .inl rfl
    | some a => exact (hfg a).mono fun hl => by rw [hl, Bool.or_true]
  · exact .inr ⟨rfl, rfl⟩

theorem Agrees.bind_same (h : Agrees lang x y) (f : α → Option β) :
    Agrees lang (x.bind f) (y.bind f) := by
  rcases h with rfl | ⟨rfl, rfl⟩
  · exact .inl rfl
  · exact .inr ⟨rfl, rfl⟩

theorem Agrees.map (h : Agrees lang x y) (f : α → β) : Agrees lang (x.map f) (y.map f) := by
  rcases h with rfl | ⟨rfl, rfl⟩
  · exact .inl rfl
  · exact .inr ⟨rfl, rfl⟩

end Agrees

/-! ## Calls -/

/-- Of the context node, no function looks at more than `lang` and those with an argument left out
do. -/
theorem apply_congr {env : Environment} {ctx ctx' : Context} (hp : ctx.position = ctx'.position)
    {name : String} {args : List XValue} (hl : name ≠ "lang")
    (hc : name ∈ contextFunctions → args ≠ []) :
    CoreFunction.apply env ctx name args = CoreFunction.apply env ctx' name args := by
  obtain ⟨node, position⟩ := ctx
  obtain ⟨node', position'⟩ := ctx'
  obtain rfl : position = position' := hp
  unfold CoreFunction.apply
  split <;> first
    | rfl
    | exact absurd rfl hl
    | exact absurd rfl (hc (by decide))
    | cases args with
      | nil => exact absurd rfl (hc (by decide))
      | cons a as => cases a <;> cases as <;> rfl

/-- A document has no language. -/
theorem apply_lang {env : Environment} {d : Nat} {position : Option (Nat × Nat)}
    {args : List XValue} {v : XValue}
    (h : CoreFunction.apply env ⟨documentNode env.documents d, position⟩ "lang" args = some v) :
    v = .boolean false := by
  cases args with
  | nil => cases h
  | cons a as =>
    cases as with
    | nil =>
      cases h
      rfl
    | cons b as => cases h

/-- The context node is what stands for an argument left out. -/
theorem apply_context {env : Environment} {ctx ctx' : Context} {name : String}
    (h : name ∈ contextFunctions) : CoreFunction.apply env ctx name [] =
      CoreFunction.apply env ctx' name [sorted (.nodes [ctx.node])] := by
  simp only [contextFunctions, List.mem_cons, List.not_mem_nil, or_false] at h
  rcases h with rfl | rfl | rfl | rfl | rfl | rfl | rfl <;> rfl

/-! ## Expressions -/

section Equations

variable (env : Environment) (ctx : Context)

theorem evaluate_or (a b : Expr) : evaluate env ctx (.binary .or a b) =
    (evaluate env ctx a).bind fun v => if v.toBoolean then some (.boolean true)
      else (evaluate env ctx b).map fun w => .boolean w.toBoolean := by
  rw [evaluate]
  cases evaluate env ctx a <;> rfl

theorem evaluate_and (a b : Expr) : evaluate env ctx (.binary .and a b) =
    (evaluate env ctx a).bind fun v =>
      if v.toBoolean then (evaluate env ctx b).map fun w => .boolean w.toBoolean
      else some (.boolean false) := by
  rw [evaluate]
  cases evaluate env ctx a <;> rfl

theorem evaluate_binary {op : Operator} (ho : op ≠ .or) (ha : op ≠ .and) (a b : Expr) :
    evaluate env ctx (.binary op a b) = (evaluate env ctx a).bind fun v =>
      (evaluate env ctx b).bind fun w => applyOperator op v w := by
  rw [evaluate]
  · cases evaluate env ctx a <;> rfl
  · exact ho
  · exact ha

theorem evaluate_filter (e p : Expr) : evaluate env ctx (.filter e p) =
    ((evaluate env ctx e).bind (·.toNodes)).bind fun ns =>
      (keepWhere (fun c => evaluate env c p) (positioned ns)).map .nodes := by
  rw [evaluate]
  cases (evaluate env ctx e).bind (·.toNodes) <;> rfl

theorem evaluate_through (e : Expr) (steps : Steps) : evaluate env ctx (.through e steps) =
    ((evaluate env ctx e).bind (·.toNodes)).bind fun ns =>
      (evaluateSteps env ns steps).map .nodes := by
  rw [evaluate]
  cases (evaluate env ctx e).bind (·.toNodes) <;> rfl

theorem evaluate_call (n : Name) (args : List Expr) : evaluate env ctx (.call n args) =
    (evaluateAll env ctx args).bind fun vs => if n.pfx.isSome then none
      else CoreFunction.apply env ctx n.localName
        (if takesUnsorted n then vs else vs.map sorted) := by
  rw [evaluate]
  cases evaluateAll env ctx args <;> rfl

theorem evaluateAll_cons (e : Expr) (es : List Expr) : evaluateAll env ctx (e :: es) =
    (evaluate env ctx e).bind fun v => (evaluateAll env ctx es).map (v :: ·) := by
  rw [evaluateAll]
  cases evaluate env ctx e <;> rfl

end Equations

theorem length_evaluateAll {env : Environment} {ctx : Context} {es : List Expr}
    {vs : List XValue} (h : evaluateAll env ctx es = some vs) : vs.length = es.length := by
  induction es generalizing vs with
  | nil =>
    rw [evaluateAll] at h
    cases h
    rfl
  | cons e es ih =>
    rw [evaluateAll_cons] at h
    obtain ⟨v, -, h⟩ := Option.bind_eq_some_iff.1 h
    obtain ⟨vs', h', rfl⟩ := Option.map_eq_some_iff.1 h
    rw [List.length_cons, List.length_cons, ih h']

theorem evaluate_rootPath (env : Environment) (ctx : Context) : evaluate env ctx rootPath =
    some (.nodes [documentNode env.documents ctx.node.place.document]) := by
  rw [rootPath, evaluate, evaluateSteps]
  rfl

theorem evaluate_falsehood (env : Environment) (ctx : Context) :
    evaluate env ctx falsehood = some (.boolean false) := by
  rw [falsehood, evaluate_call, evaluateAll]
  rfl

section Calls

variable {env : Environment} {d : Nat} {n : XNode} {position : Option (Nat × Nat)} {f : Name}
  {args : List Expr}

/-- A call of `lang` that has a value at the document is false there. -/
theorem evaluate_lang {v : XValue} (h : evaluate env ⟨documentNode env.documents d, position⟩
    (.call ⟨none, "lang"⟩ args) = some v) : v = .boolean false := by
  rw [evaluate_call] at h
  obtain ⟨vs, -, hv⟩ := Option.bind_eq_some_iff.1 h
  exact apply_lang hv

theorem evaluate_and_falsehood (ctx : Context) (e : Expr) :
    evaluate env ctx (.group (.binary .and falsehood e)) = some (.boolean false) := by
  rw [evaluate, evaluate_and, evaluate_falsehood]
  simp only [Option.bind_some, XValue.toBoolean, Bool.false_eq_true, if_false, Option.map_some,
    sorted]

/-- A function that looks at the document is given the document. -/
theorem evaluate_looksAtContext (hd : n.place.document = d)
    (h : looksAtContext f args = true) :
    evaluate env ⟨documentNode env.documents d, position⟩ (.call f args) =
      evaluate env ⟨n, position⟩ (.call f [rootPath]) := by
  simp only [looksAtContext, Bool.and_eq_true, List.contains_iff_mem, List.isEmpty_iff,
    Option.isNone_iff_eq_none] at h
  obtain ⟨⟨hp, hn⟩, rfl⟩ := h
  have hu : takesUnsorted f = false := by
    refine Bool.eq_false_iff.2 fun hu => ?_
    rw [takesUnsorted, Bool.and_eq_true, beq_iff_eq] at hu
    rw [hu.2] at hn
    exact absurd hn (by decide)
  have hr : evaluateAll env ⟨n, position⟩ [rootPath] =
      some [.nodes [documentNode env.documents d]] := by
    rw [evaluateAll_cons, evaluate_rootPath, evaluateAll, hd]
    rfl
  rw [evaluate_call, evaluate_call, hr, evaluateAll]
  simp only [Option.bind_some, hp, hu, Option.isSome_none, Bool.false_eq_true, if_false,
    List.map_nil, List.map_cons]
  exact apply_context hn

theorem evaluate_call_congr (hl : f ≠ ⟨none, "lang"⟩) (hc : looksAtContext f args = false)
    {ctx ctx' : Context} (hp : ctx.position = ctx'.position) {args' : List Expr}
    (h : evaluateAll env ctx args = evaluateAll env ctx' args') :
    evaluate env ctx (.call f args) = evaluate env ctx' (.call f args') := by
  rw [evaluate_call, evaluate_call, ← h]
  refine Option.bind_congr fun vs hv => ?_
  split
  · rfl
  · next hs =>
    have hs : f.pfx = none := Option.not_isSome_iff_eq_none.1 hs
    refine apply_congr hp (fun hn => hl ?_) fun hn hz => ?_
    · cases f
      exact congrArg₂ Name.mk hs hn
    · have hvs : vs = [] := by
        split at hz
        · exact hz
        · exact List.map_eq_nil_iff.1 hz
      have hargs : args = [] := by
        rw [← List.length_eq_zero_iff, ← length_evaluateAll hv, hvs]
        rfl
      rw [looksAtContext, hs, hargs, List.contains_iff_mem.2 hn] at hc
      cases hc

theorem Agrees.call (hd : n.place.document = d) {lang : Bool}
    (h : Agrees lang (evaluateAll env ⟨documentNode env.documents d, position⟩ args)
      (evaluateAll env ⟨n, position⟩ (anchoredAll args))) :
    Agrees (f == ⟨none, "lang"⟩ || lang)
      (evaluate env ⟨documentNode env.documents d, position⟩ (.call f args))
      (evaluate env ⟨n, position⟩ (anchoredCall f (anchoredAll args))) := by
  unfold anchoredCall
  split
  · next hf =>
    subst hf
    rw [evaluate_and_falsehood]
    cases hv : evaluate env ⟨documentNode env.documents d, position⟩
        (.call ⟨none, "lang"⟩ args) with
    | none => exact .inr ⟨rfl, rfl⟩
    | some v => exact .inl (congrArg some (evaluate_lang hv))
  · next hf =>
    have hi : looksAtContext f (anchoredAll args) = looksAtContext f args := by
      rw [looksAtContext, isEmpty_anchoredAll, ← looksAtContext]
    rw [hi]
    split
    · next hc => exact .inl (evaluate_looksAtContext hd hc)
    · next hc =>
      rcases h with h | ⟨hl, hn⟩
      · exact .inl (evaluate_call_congr hf (Bool.eq_false_iff.2 hc) (by rfl) h)
      · refine .inr ⟨by rw [hl, Bool.or_true], ?_⟩
        rw [evaluate_call, hn, Option.bind_none]

end Calls

mutual

/-- At any node of a document, the anchored expression has the value that the expression has at
the document. -/
theorem evaluate_anchored (env : Environment) {d : Nat} {n : XNode}
    (position : Option (Nat × Nat)) (hd : n.place.document = d) (e : Expr) :
    Agrees e.callsLang (evaluate env ⟨documentNode env.documents d, position⟩ e)
      (evaluate env ⟨n, position⟩ e.anchored) := by
  match e with
  | .binary op a b =>
    have ha := evaluate_anchored env position hd a
    have hb := evaluate_anchored env position hd b
    rw [Expr.anchored, Expr.callsLang]
    by_cases ho : op = .or
    · subst ho
      rw [evaluate_or, evaluate_or]
      refine ha.bind fun v => ?_
      split
      · exact .refl _ _
      · exact hb.map _
    · by_cases hn : op = .and
      · subst hn
        rw [evaluate_and, evaluate_and]
        refine ha.bind fun v => ?_
        split
        · exact hb.map _
        · exact .refl _ _
      · rw [evaluate_binary env _ ho hn, evaluate_binary env _ ho hn]
        exact ha.bind fun v => hb.bind_same _
  | .negate e =>
    rw [Expr.anchored, Expr.callsLang, evaluate, evaluate]
    exact (evaluate_anchored env position hd e).map _
  | .group e =>
    rw [Expr.anchored, Expr.callsLang, evaluate, evaluate]
    exact (evaluate_anchored env position hd e).map _
  | .literal _ | .number _ | .variable _ =>
    rw [Expr.anchored, evaluate, evaluate]
    exact .refl _ _
  | .call f args =>
    rw [Expr.anchored, Expr.callsLang]
    exact Agrees.call hd (evaluateAll_anchored env position hd args)
  | .filter e p =>
    rw [Expr.anchored, Expr.callsLang, evaluate_filter, evaluate_filter]
    exact ((evaluate_anchored env position hd e).bind_same _).bind_same _
  | .relative first rest =>
    rw [Expr.anchored, evaluate, evaluate, evaluateSteps, hd]
    refine .inl ?_
    simp only [beforeStep]
    cases evaluateStep env [documentNode env.documents d] first <;> rfl
  | .absolute steps =>
    rw [Expr.anchored, evaluate, evaluate, hd]
    exact .refl _ _
  | .through e steps =>
    rw [Expr.anchored, Expr.callsLang, evaluate_through, evaluate_through]
    exact ((evaluate_anchored env position hd e).bind_same _).bind_same _

theorem evaluateAll_anchored (env : Environment) {d : Nat} {n : XNode}
    (position : Option (Nat × Nat)) (hd : n.place.document = d) (es : List Expr) :
    Agrees (anyCallsLang es) (evaluateAll env ⟨documentNode env.documents d, position⟩ es)
      (evaluateAll env ⟨n, position⟩ (anchoredAll es)) := by
  match es with
  | [] =>
    rw [anchoredAll, evaluateAll, evaluateAll]
    exact .refl _ _
  | e :: es =>
    rw [anchoredAll, anyCallsLang, evaluateAll_cons, evaluateAll_cons]
    exact (evaluate_anchored env position hd e).bind fun v => (evaluateAll_anchored env position hd es).map _

end

theorem valueAt_anchored {env : Environment} {n : XNode} {e : Expr} {v : XValue}
    (h : valueAt env (documentNode env.documents n.place.document) e = some v) :
    valueAt env n e.anchored = some v := by
  rcases (evaluate_anchored env none rfl e).map sorted with ha | ⟨-, hn⟩
  · rw [← h]
    exact ha.symm
  · cases hn.symm.trans h

/-- Without calls of `lang` the values are the same, also when there is none. -/
theorem valueAt_anchored_eq {env : Environment} {n : XNode} {e : Expr}
    (h : e.callsLang = false) : valueAt env n e.anchored =
      valueAt env (documentNode env.documents n.place.document) e := by
  rcases (evaluate_anchored env none rfl e).map sorted with ha | ⟨hl, -⟩
  · exact ha.symm
  · rw [h] at hl
    cases hl

end TreeQuery.XPath
