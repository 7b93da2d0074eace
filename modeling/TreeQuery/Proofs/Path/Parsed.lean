import TreeQuery.Proofs.Path.Parsing
import TreeQuery.Proofs.Path.Value

/-!
# Paths as they are read

The text of an absolute path is read as the tree that the path stands for
(`AbsolutePath.parse?_render`), whatever words the names in it are and whatever is quoted in it.
-/

namespace TreeQuery

namespace XPath.Parser

theorem expr_expanded {cs : List Char} {d : Nat} (name uri : String) (h : EndsExpr cs) :
    expr (d + 2) ("local-name()".toList ++ (" = ".toList ++ ((literal name).toList ++
        (" and namespace-uri()".toList ++ (" = ".toList ++ ((literal uri).toList ++ cs)))))) =
      some (expandedTree name uri, cs) := by
  have huri := comparison_namespaceUri uri h.endsOperand
    (h.outside.blanks.symm ▸ h.outside.mono (by decide)) (d := d)
  rw [h.outside.blanks] at huri
  have hle : cs.length ≤ (" = ".toList ++ ((literal uri).toList ++ cs)).length := by
    rw [List.length_append, List.length_append]
    exact (Nat.le_add_left ..).trans (Nat.le_add_left ..)
  generalize " = ".toList ++ ((literal uri).toList ++ cs) = more at huri hle ⊢
  have hand : EndsOperand (" and namespace-uri()".toList ++ more) := by
    rintro c ⟨⟩
    decide
  have houtside : Outside (allOperators.take 5) ("and namespace-uri()".toList ++ more) := by
    simp only [outside_iff, allOperators, operators, List.take, List.forall_mem_cons]
    exact ⟨rfl, rfl, rfl, rfl, rfl, rfl, List.forall_mem_nil _⟩
  have hname := comparison_localName name hand houtside (d := d)
  have hmid : blanks (" and namespace-uri()".toList ++ more) =
      "and namespace-uri()".toList ++ more := rfl
  have hop : spelled [("and", .and)] (blanks ("and namespace-uri()".toList ++ more)) =
      some (.and, " namespace-uri()".toList ++ more) := rfl
  have hblanks : blanks (" namespace-uri()".toList ++ more) =
      "namespace-uri()".toList ++ more := rfl
  have hlt : cs.length < ("and namespace-uri()".toList ++ more).length := by
    rw [List.length_append]
    exact Nat.lt_of_le_of_lt hle (Nat.lt_add_of_pos_left (by decide))
  rw [hmid] at hname
  rw [← hblanks] at huri
  rw [expr_eq]
  exact chain_operand
    (chain_binary hname hop huri hlt h.outside.blanks (h.outside.spelled _ (by decide)))
    h.outside.blanks (h.outside.spelled _ (by decide))

end XPath.Parser

open XPath Parser

/-- What may follow a step: another step, or nothing. -/
def EndsStep (cs : List Char) : Prop := ∀ c ∈ cs.head?, c = '/'

/-- What may follow the test of a step. -/
def EndsTest (cs : List Char) : Prop := ∀ c ∈ cs.head?, c = '/' ∨ c = '['

section Steps

variable {cs rest : List Char} {position : Option Nat} {d : Nat}

theorem EndsTest.blanks (h : EndsTest cs) : blanks cs = cs := by
  cases cs with
  | nil => rfl
  | cons c cs => rcases h c rfl with rfl | rfl <;> rfl

theorem EndsStep.endsTest (h : EndsStep cs) : EndsTest cs := fun c hc => .inl (h c hc)

theorem endsTest_position (position : Option Nat) (h : EndsStep cs) :
    EndsTest ((positionText position).toList ++ cs) := by
  cases position with
  | none => exact h.endsTest
  | some n =>
    rw [positionText, String.toList_append, String.toList_append]
    rintro c ⟨⟩
    exact .inr rfl

theorem repeated_position (position : Option Nat) (h : EndsStep cs) :
    repeated (predicate (expr (d + 1))) ((positionText position).toList ++ cs) =
      some (positionTrees position, cs) := by
  have hnone : repeated (predicate (expr (d + 1))) cs = some ([], cs) := by
    refine repeated_nil ?_
    cases cs with
    | nil => rfl
    | cons c cs =>
      obtain rfl := h c rfl
      rfl
  cases position with
  | none => exact hnone
  | some n =>
    have htext : (positionText (some n)).toList ++ cs =
        '[' :: ((toString n).toList ++ ']' :: cs) := by
      simp [positionText]
    have hp := predicate_eq (blanks_number n _) (expr_number n (endsExpr_closeBracket cs) (d := d))
    rw [h.endsTest.blanks] at hp
    rw [htext]
    refine repeated_cons hp ?_ hnone
    simp only [List.length_cons, List.length_append]
    omega

/-! ## Names -/

theorem EndsTest.ncName {name : String} (hcs : EndsTest cs) (h : Text.isName name.toList = true) :
    ncName (name.toList ++ cs) = some (name, cs) :=
  ncName_append h fun c hc => by rcases hcs c hc with rfl | rfl <;> decide

theorem EndsTest.namedTest (hcs : EndsTest cs) (name : String) :
    namedTest name cs = some (.name ⟨none, name⟩, cs) := by
  cases cs with
  | nil => rfl
  | cons c cs => rcases hcs c rfl with rfl | rfl <;> rfl

/-- A name is the test for it, also where it is the word for an axis. -/
theorem axisAndTest_name {name : String} (h : Text.isName name.toList = true) (hcs : EndsTest cs) :
    axisAndTest (name.toList ++ cs) = some ((.implied, .name ⟨none, name⟩), cs) := by
  unfold axisAndTest
  rw [hcs.ncName h]
  dsimp only
  cases Axis.ofText? name with
  | none => rw [hcs.namedTest, Option.map_some]
  | some a =>
    dsimp only
    rw [hcs.blanks]
    split
    · rcases hcs ':' rfl with hc | hc <;> cases hc
    · rw [hcs.namedTest, Option.map_some]

theorem axisAndTest_atSign {name : String} (h : Text.isName name.toList = true)
    (hcs : EndsTest cs) :
    axisAndTest ('@' :: (name.toList ++ cs)) = some ((.atSign, .name ⟨none, name⟩), cs) := by
  have hnode : nodeTest (name.toList ++ cs) = some (.name ⟨none, name⟩, cs) := by
    have hname := hcs.ncName h
    obtain ⟨c, ns, htext, hc, -⟩ := exists_of_isName h
    rw [htext, List.cons_append] at hname ⊢
    rw [nodeTest, blanks_cons (isSpace_of_isNameStart hc)]
    split
    · next hcons =>
      cases hcons
      cases hc
    · rw [hname]
      exact hcs.namedTest name
  have hbind : axisAndTest ('@' :: (name.toList ++ cs)) =
      (nodeTest (name.toList ++ cs)).map fun r => ((.atSign, r.1), r.2) := rfl
  rw [hbind, hnode, Option.map_some]

theorem axisAndTest_star (cs : List Char) :
    axisAndTest ('*' :: cs) = some ((.implied, .any none), cs) := rfl

theorem axisAndTest_atSign_star (cs : List Char) :
    axisAndTest ('@' :: '*' :: cs) = some ((.atSign, .any none), cs) := rfl

theorem blanks_openBracket (cs : List Char) : blanks ('[' :: cs) = '[' :: cs := rfl

theorem axisAndTest_text (cs : List Char) :
    axisAndTest ("text()".toList ++ cs) = some ((.implied, .text), cs) := rfl

theorem axisAndTest_comment (cs : List Char) :
    axisAndTest ("comment()".toList ++ cs) = some ((.implied, .comment), cs) := rfl

theorem axisAndTest_instruction {target : List Char} (h : '\'' ∉ target) (cs : List Char) :
    axisAndTest ("processing-instruction(".toList ++ '\'' :: (target ++ '\'' :: ')' :: cs)) =
      some ((.implied, .instruction (some (.ofList target))), cs) := by
  have hquoted := quoted_body (.inr rfl) h (')' :: cs)
  have hbind (cs : List Char) : axisAndTest ("processing-instruction(".toList ++ '\'' :: cs) =
      ((quoted ('\'' :: cs)).bind fun r => (after ')' (blanks r.2)).map fun rest =>
        (.instruction (some r.1), rest)).map fun r => ((.implied, r.1), r.2) := rfl
  rw [hbind, hquoted]
  rfl

/-! ## Steps -/

/-- How a step begins that leads along an axis. -/
def BeginsStep (c : Char) : Prop := Text.isNameStart c = true ∨ c = '@' ∨ c = '*'

theorem BeginsStep.isSpace {c : Char} (h : BeginsStep c) : Text.isSpace c = false := by
  rcases h with h | rfl | rfl
  · exact isSpace_of_isNameStart h
  · decide
  · decide

theorem BeginsStep.ne {c e : Char} (h : BeginsStep c) (he : ¬ BeginsStep e) : c ≠ e := by
  rintro rfl
  exact he h

theorem beginsRelative_of_isNameStart {c : Char} (h : Text.isNameStart c = true) :
    beginsRelative c = true := by
  by_cases hc : c.toNat < 0x80
  · have hascii : ∀ n < 0x80, Text.isNameStart (Char.ofNat n) = true →
        beginsRelative (Char.ofNat n) = true := by decide
    rw [← Char.ofNat_toNat c] at h ⊢
    exact hascii c.toNat hc h
  · have hge : decide (0x80 ≤ c.toNat) = true := decide_eq_true (Nat.not_lt.1 hc)
    simp only [beginsRelative, hge, Bool.or_true, Bool.true_or]

theorem BeginsStep.beginsRelative {c : Char} (h : BeginsStep c) : beginsRelative c = true := by
  rcases h with h | rfl | rfl
  · exact beginsRelative_of_isNameStart h
  · decide
  · decide

theorem step_along {axis : AxisSpec} {test : NodeTest} {ps : List Expr} {inner : Parser Expr}
    {c : Char} {text : List Char} (hc : BeginsStep c)
    (htest : axisAndTest (c :: text) = some ((axis, test), rest)) (hrest : blanks rest = rest)
    (hps : repeated (predicate inner) rest = some (ps, cs)) :
    step inner (c :: text) = some (.along axis test ps, cs) := by
  have hdot : c ≠ '.' := hc.ne (by unfold BeginsStep; decide)
  rw [step, blanks_cons hc.isSpace]
  split
  · next hcons => exact absurd (List.cons.inj hcons).1 hdot
  · next hcons => exact absurd (List.cons.inj hcons).1 hdot
  · rw [htest]
    dsimp only [Option.bind_eq_bind, Option.bind_some]
    rw [hrest, hps]
    rfl

/-- The name that a test spells out unquoted. -/
def NameTest.name? : NameTest → Option String
  | plain name => some name
  | expanded .. => none

/-- The name that a step has to be read as; the target of an instruction is quoted as it is. -/
def PathStep.name? : PathStep → Option String
  | element test _ | attr test => test.name?
  | instruction target _ => some target
  | text _ | comment _ => none

/-- The name, if there is one, is a name of XML. -/
def NameTest.IsNamed (test : NameTest) : Prop :=
  ∀ name ∈ test.name?, Text.isName name.toList = true

def PathStep.IsNamed (s : PathStep) : Prop :=
  ∀ name ∈ s.name?, Text.isName name.toList = true

theorem toList_append₅ (a b c d e : String) :
    (a ++ b ++ c ++ d ++ e).toList =
      a.toList ++ (b.toList ++ (c.toList ++ (d.toList ++ e.toList))) := by
  simp only [String.toList_append, List.append_assoc]

theorem NameTest.toList_expanded (name uri : String) (cs : List Char) :
    (NameTest.expanded name uri).render.toList ++ cs = '*' :: '[' ::
      ("local-name()".toList ++ (" = ".toList ++ ((literal name).toList ++
        (" and namespace-uri()".toList ++ (" = ".toList ++ ((literal uri).toList ++
          ']' :: cs)))))) := by
  have hlocal : "*[local-name() = ".toList =
      '*' :: '[' :: ("local-name()".toList ++ " = ".toList) := by decide
  have hnamespace : " and namespace-uri() = ".toList =
      " and namespace-uri()".toList ++ " = ".toList := by decide
  have hclose : "]".toList = [']'] := by decide
  -- unfolded, since the equations of `render` are slow to generate
  unfold NameTest.render
  rw [toList_append₅, hlocal, hnamespace, hclose]
  simp only [List.cons_append, List.append_assoc, List.nil_append]

theorem repeated_expanded (name uri : String) (position : Option Nat) (h : EndsStep cs) :
    repeated (predicate (expr (d + 2))) ('[' ::
      ("local-name()".toList ++ (" = ".toList ++ ((literal name).toList ++
        (" and namespace-uri()".toList ++ (" = ".toList ++ ((literal uri).toList ++
          ']' :: ((positionText position).toList ++ cs)))))))) =
      some (expandedTree name uri :: positionTrees position, cs) := by
  have hends := endsExpr_closeBracket ((positionText position).toList ++ cs)
  have hp := predicate_eq rfl (expr_expanded name uri hends (d := d))
  rw [(endsTest_position position h).blanks] at hp
  refine repeated_cons hp ?_ (repeated_position position h)
  simp only [List.length_cons, List.length_append]
  omega

theorem NameTest.step_element {test : NameTest} (ht : test.IsNamed) (h : EndsStep cs) :
    step (expr (d + 2)) (test.render.toList ++ ((positionText position).toList ++ cs)) =
      some (test.tree .implied position, cs) := by
  have hends := endsTest_position position h
  cases test with
  | plain name =>
    have hname := ht name rfl
    have htest := axisAndTest_name hname hends
    obtain ⟨c, ns, htext, hc, -⟩ := exists_of_isName hname
    unfold NameTest.render
    dsimp only
    rw [htext, List.cons_append] at htest ⊢
    exact step_along (.inl hc) htest hends.blanks (repeated_position position h)
  | expanded name uri =>
    rw [NameTest.toList_expanded]
    exact step_along (.inr (.inr rfl)) (axisAndTest_star _) (blanks_openBracket _)
      (repeated_expanded name uri position h)

theorem NameTest.step_attr {test : NameTest} (ht : test.IsNamed) (h : EndsStep cs) :
    step (expr (d + 2)) ('@' :: (test.render.toList ++ cs)) =
      some (test.tree .atSign none, cs) := by
  cases test with
  | plain name =>
    exact step_along (.inr (.inl rfl)) (axisAndTest_atSign (ht name rfl) h.endsTest)
      h.endsTest.blanks (repeated_position none h)
  | expanded name uri =>
    rw [NameTest.toList_expanded]
    exact step_along (.inr (.inl rfl)) (axisAndTest_atSign_star _) (blanks_openBracket _)
      (repeated_expanded name uri none h)

/-- A step is read up to the next one. -/
theorem PathStep.step_render {s : PathStep} (hs : s.IsNamed) (h : EndsStep cs) :
    step (expr (d + 2)) (s.render.toList ++ cs) = some (s.tree, cs) := by
  have hends := endsTest_position s.position? h
  unfold PathStep.render
  cases s with
  | element test position =>
    rw [String.toList_append, List.append_assoc]
    exact NameTest.step_element hs h
  | attr test =>
    rw [String.toList_append]
    exact NameTest.step_attr hs h
  | text position =>
    rw [String.toList_append, List.append_assoc]
    exact step_along (.inl rfl) (axisAndTest_text _) hends.blanks (repeated_position position h)
  | comment position =>
    rw [String.toList_append, List.append_assoc]
    exact step_along (.inl rfl) (axisAndTest_comment _) hends.blanks (repeated_position position h)
  | instruction target position =>
    have hquote : '\'' ∉ target.toList := fun hm =>
      absurd (Text.isNameChar_of_mem (hs target rfl) hm) (by decide)
    have hliteral : literal target = "'" ++ target ++ "'" := if_pos (by simpa using hquote)
    have htext : ("processing-instruction(" ++ literal target ++ ")").toList ++
        ((positionText position).toList ++ cs) = "processing-instruction(".toList ++
          '\'' :: (target.toList ++ '\'' :: ')' :: ((positionText position).toList ++ cs)) := by
      simp [hliteral]
    have htest := axisAndTest_instruction hquote ((positionText position).toList ++ cs)
    rw [String.ofList_toList] at htest
    rw [String.toList_append, List.append_assoc, htext]
    exact step_along (.inl rfl) htest hends.blanks (repeated_position position h)

theorem separated_of_step {inner : Parser Expr} {text : List Char} {s : Step}
    (hc : ∃ c rest, text = c :: rest ∧ BeginsStep c) (h : step inner text = some (s, cs)) :
    separated inner ('/' :: text) = some (some ((.slash, s), cs)) := by
  obtain ⟨c, rest, rfl, hc⟩ := hc
  have hblanks : blanks ('/' :: c :: rest) = '/' :: c :: rest := rfl
  unfold separated
  rw [hblanks]
  split
  · next hcons =>
    cases hcons
    exact absurd rfl (hc.ne (by unfold BeginsStep; decide))
  · next hcons =>
    cases hcons
    rw [h, Option.map_some]
  · next hne => exact absurd rfl (hne (c :: rest))

theorem fromRoot_of_beginsStep {inner : Parser Expr} {c : Char} {text : List Char} (n : Nat)
    (hc : BeginsStep c) : fromRoot inner (n + 1) ('/' :: c :: text) =
      (stepAndMore inner (c :: text)).map fun r => (.next .slash r.1.1 r.1.2, r.2) := by
  unfold fromRoot
  split
  · next hcons =>
    cases hcons
    exact absurd rfl (hc.ne (by unfold BeginsStep; decide))
  · next hcons =>
    cases hcons
    rw [blanks_cons hc.isSpace]
    dsimp only
    rw [if_pos hc.beginsRelative]
  · next hne => exact absurd rfl (hne (c :: text))

theorem pathExpr_slash (inner : Parser Expr) (cs : List Char) :
    pathExpr inner ('/' :: cs) =
      (fromRoot inner (cs.length + 2) ('/' :: cs)).map fun r => (.absolute r.1, blanks r.2) := rfl

theorem PathStep.render_eq_cons {s : PathStep} (hs : s.IsNamed) :
    ∃ c text, s.render.toList = c :: text ∧ BeginsStep c := by
  unfold PathStep.render
  cases s with
  | element test position =>
    cases test with
    | plain name =>
      obtain ⟨c, cs, htext, hc, -⟩ := exists_of_isName (hs name rfl)
      refine ⟨c, cs ++ (positionText position).toList, ?_, .inl hc⟩
      rw [String.toList_append]
      unfold NameTest.render
      rw [htext, List.cons_append]
    | expanded name uri =>
      rw [String.toList_append, NameTest.toList_expanded]
      exact ⟨_, _, rfl, .inr (.inr rfl)⟩
  | attr test =>
    rw [String.toList_append]
    exact ⟨_, _, rfl, .inr (.inl rfl)⟩
  | text position | comment position =>
    rw [String.toList_append]
    exact ⟨_, _, rfl, .inl rfl⟩
  | instruction target position =>
    rw [String.toList_append, String.toList_append, String.toList_append]
    exact ⟨_, _, rfl, .inl rfl⟩

theorem PathStep.beginsStep {s : PathStep} (hs : s.IsNamed) (cs : List Char) :
    ∃ c text, s.render.toList ++ cs = c :: text ∧ BeginsStep c := by
  obtain ⟨c, text, htext, hc⟩ := PathStep.render_eq_cons hs
  refine ⟨c, text ++ cs, ?_, hc⟩
  rw [htext, List.cons_append]

end Steps

/-! ## Paths -/

namespace AbsolutePath

variable {path : AbsolutePath} {d : Nat}

theorem toList_render (h : path ≠ []) :
    path.render.toList = path.flatMap fun s => '/' :: s.render.toList := by
  have hempty : path.isEmpty = false := List.isEmpty_eq_false_iff.2 h
  rw [AbsolutePath.render, hempty, if_neg Bool.false_ne_true, String.toList_join, List.flatMap_map]
  simp only [String.toList_append]
  rfl

theorem endsStep_steps (path : AbsolutePath) :
    EndsStep (path.flatMap fun s => '/' :: s.render.toList) := by
  cases path with
  | nil => exact nofun
  | cons s path =>
    rintro c ⟨⟩
    rfl

theorem repeated_steps (hpath : ∀ s ∈ path, s.IsNamed) :
    repeated (separated (expr (d + 2))) (path.flatMap fun s => '/' :: s.render.toList) =
      some (path.map fun s => (.slash, s.tree), []) := by
  induction path with
  | nil => exact repeated_nil rfl
  | cons s path ih =>
    obtain ⟨hs, hpath⟩ := List.forall_mem_cons.1 hpath
    have hstep := PathStep.step_render hs (endsStep_steps path) (d := d)
    have hseparated := separated_of_step (PathStep.beginsStep hs _) hstep
    refine repeated_cons hseparated ?_ (ih hpath)
    simp only [List.flatMap_cons, List.cons_append, List.length_cons, List.length_append]
    omega

theorem stepsOf_map (path : AbsolutePath) :
    stepsOf (path.map fun s => (.slash, s.tree)) = path.steps := by
  induction path with
  | nil => rfl
  | cons s path ih =>
    rw [steps, ← ih]
    rfl

theorem pathExpr_render (hpath : ∀ s ∈ path, s.IsNamed) :
    pathExpr (expr (d + 2)) path.render.toList = some (path.tree, []) := by
  cases path with
  | nil => rfl
  | cons s path =>
    obtain ⟨hs, hpath⟩ := List.forall_mem_cons.1 hpath
    have hstep := PathStep.step_render hs (endsStep_steps path) (d := d)
    have hmore : stepAndMore (expr (d + 2))
        (s.render.toList ++ path.flatMap fun s => '/' :: s.render.toList) =
          some ((s.tree, AbsolutePath.steps path), []) := by
      rw [stepAndMore, hstep]
      dsimp only [Option.bind_eq_bind, Option.bind_some]
      rw [repeated_steps hpath, Option.bind_some, stepsOf_map]
      rfl
    obtain ⟨c, rest, htext, hc⟩ := PathStep.beginsStep hs
      (path.flatMap fun s => '/' :: s.render.toList)
    rw [toList_render (List.cons_ne_nil s path), List.flatMap_cons, List.cons_append, htext]
    rw [htext] at hmore
    rw [pathExpr_slash, fromRoot_of_beginsStep _ hc, hmore]
    rfl

/-- The text of a path is read as the tree that the path stands for. -/
theorem parse?_render (hpath : ∀ s ∈ path, s.IsNamed) :
    parse? path.render = some path.tree := by
  have hsign : after '-' (blanks path.render.toList) = none := by
    cases path with
    | nil => rfl
    | cons s path =>
      rw [toList_render (List.cons_ne_nil s path)]
      rfl
  have hexpr : Parser.expr maxDepth path.render.toList = some (path.tree, []) :=
    expr_of_pathExpr (d := 499) hsign (pathExpr_render hpath) nofun
  unfold parse?
  rw [hexpr]

end AbsolutePath

end TreeQuery
