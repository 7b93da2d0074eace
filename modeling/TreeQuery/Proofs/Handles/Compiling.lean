import TreeQuery.Proofs.Handles.Kept
import TreeQuery.Proofs.Lexing.Coverage

/-!
# Compiling a query

A query is made of what a caller passes, its expression is read as tokens, and the engine is asked
for a first handle. What is refused on the way is refused as an invalid expression, and the engine
is not asked about text that can not be read (`compiled_or_invalid`). An integer of too many digits
is the one thing that is refused under its own name (`long_integer_escapes`).
-/

namespace TreeQuery

open XPath

namespace XPath

variable {last : Option TokenKind} {pos : Nat} {cs : List Char} {fault : Failure}

/-! ## Text that can not be read -/

/-- Why no token is read off the front of a text. -/
inductive Refused (cs : List Char) (pos : Nat) : Failure → Prop where
  | unknown : lexeme? cs = none → Refused cs pos (.unknownText (String.ofList (cs.take 10)) pos)
  | long {t : List Char} : lexeme? cs = some (.integer, t) → maxDigits < t.length →
      Refused cs pos (.tooManyDigits t.length)

theorem tokensFrom_eq_error (h : tokensFrom last pos cs = .error fault) :
    ∃ before rest, cs = before ++ rest ∧ rest ≠ [] ∧ Refused rest (pos + before.length) fault := by
  obtain ⟨ts, before, rest, hcs, -, hend⟩ := exists_scan last pos cs
  rw [h] at hend
  cases hend with
  | unknown filled solid unread =>
    refine ⟨before, rest, hcs, ?_, .unknown (lexeme?_eq_none_iff.2 unread)⟩
    rintro rfl
    cases filled
  | @long ds more split digits ended long =>
    have hne : ds ≠ [] := by
      rintro rfl
      cases long
    refine ⟨before, rest, hcs, ?_, .long (lexeme?_eq_integer_iff.2 ⟨hne, digits, more, split, ended⟩)
      long⟩
    rw [split]
    exact List.append_ne_nil_of_left_ne_nil hne more

theorem tokenize_digits {c : Char} (hc : Text.isDigit c = true) (hs : Text.isSpace c = false)
    (hq : (c == '"' || c == '\'') = false) {n : Nat} (hn : maxDigits < n) :
    tokenize (String.ofList (List.replicate n c)) = .error (.tooManyDigits n) := by
  obtain ⟨m, rfl⟩ : ∃ m, n = m + 1 := ⟨n - 1, by omega⟩
  have hl : lexeme? (List.replicate (m + 1) c) = some (.integer, List.replicate (m + 1) c) := by
    rw [List.replicate_succ, lexeme?, hq, if_neg Bool.false_ne_true, if_pos hc, ← List.replicate_succ,
      numeral, List.takeWhile_replicate_eq_filter, List.dropWhile_replicate_eq_filter_not]
    simp [hc]
  rw [tokenize, String.toList_ofList, List.replicate_succ, tokensFrom, hs,
    if_neg Bool.false_ne_true, ← List.replicate_succ]
  split
  · next hnone =>
    rw [hl] at hnone
    cases hnone
  · next hsome =>
    rw [hl] at hsome
    cases hsome
    rw [List.length_replicate, if_pos ⟨rfl, hn⟩]

end XPath

/-! ## Constructing a query -/

/-- An engine that fails to compile only with failures of the given kinds. -/
def Engine.CompilesOr {η ε : Type} (e : Engine η ε) (kinds : List Kind) : Prop :=
  ∀ r s fault, (e.compile r s).1 = .error fault → fault.isAny kinds = true

theorem Query.make_eq_ok {σ : Type} {f : Forest} {expression : String} {given namespaces : Value}
    {bound : List Namespace} {values : List (VariableName × Value)} (filter : Filter σ)
    (hexpression : ∃ c ∈ expression.toList, Text.isBlank c = false)
    (hbound : Bindings.collect f namespaces = .ok bound)
    (hvalues : Bindings.valuesOf f bound given = .ok values) :
    Query.make f (.text expression) (.ok filter) given namespaces =
      .ok ⟨expression, filter, bound, values⟩ := by
  rw [Query.make_eq filter hexpression hbound, hvalues]
  rfl

namespace CompiledQuery

variable {η σ ε : Type} {e : Engine η ε}

/-- How compiling a query ends, and what the engine is asked until then. -/
inductive Construction (e : Engine η ε) (query : Query σ) (s : ε) :
    Except Failure (CompiledQuery η σ) → ε → List (Event η) → Prop where
  /-- The engine has a handle for the expression. -/
  | ready {ts : List Token} {plan : Plan} {h : η} {s' : ε} :
      tokenize query.expression = .ok ts →
      plan = Plan.make query.expression query.namespaces ts →
      e.compile (plan.request plan.unresolved false) s = (.ok h, s') →
      Construction e query s (.ok ⟨query, plan, [(⟨plan.unresolved, false⟩, h)]⟩) s'
        [.compiled (plan.request plan.unresolved false) (.ok h)]
  /-- Text of the expression starts no token. -/
  | unknown {before rest : List Char} {fault : Failure} :
      query.expression.toList = before ++ rest → rest ≠ [] → lexeme? rest = none →
      fault = .unknownText (String.ofList (rest.take 10)) before.length →
      Construction e query s (.error (.invalidExpression query.expression (some fault))) s []
  /-- The engine refuses the expression. -/
  | refused {ts : List Token} {plan : Plan} {fault : Failure} {s' : ε} :
      tokenize query.expression = .ok ts →
      plan = Plan.make query.expression query.namespaces ts →
      e.compile (plan.request plan.unresolved false) s = (.error fault, s') →
      Construction e query s (.error (.invalidExpression query.expression (some fault))) s'
        [.compiled (plan.request plan.unresolved false) (.error fault)]
  /-- An integer in the expression has too many digits, which is reported as it is. -/
  | escaped {before rest t : List Char} : query.expression.toList = before ++ rest →
      lexeme? rest = some (.integer, t) → maxDigits < t.length →
      Construction e query s (.error (.tooManyDigits t.length)) s []

theorem construction_of_tokenize (he : e.CompilesOr engineFailures) (query : Query σ)
    {ts : List Token} (ht : tokenize query.expression = .ok ts) (s : ε) :
    ∃ answer s' log, compile e.recording query (s, []) = (answer, s', log) ∧
      Construction e query s answer s' log := by
  unfold compile
  rw [ht]
  dsimp only
  generalize hplan : Plan.make query.expression query.namespaces ts = plan
  have hl : (⟨query, plan, []⟩ : CompiledQuery η σ).handles.lookup ⟨plan.unresolved, false⟩ = none :=
    rfl
  have hrec := e.recording_compile (plan.request plan.unresolved false) s []
  cases hc : e.compile (plan.request plan.unresolved false) s with
  | mk made s' =>
    rw [hc] at hrec
    cases made with
    | ok h =>
      rw [handle_of_ok hl hrec]
      exact ⟨_, s', _, rfl, .ready ht hplan.symm hc⟩
    | error fault =>
      have hkind : fault.isAny engineFailures = true :=
        he (plan.request plan.unresolved false) s fault (by rw [hc])
      rw [handle_of_error hl hrec]
      refine ⟨_, s', _, rfl, ?_⟩
      rw [Failure.whileCompiling_of_isAny hkind]
      exact .refused ht hplan.symm hc

/-- An integer of too many digits is reported as it is. -/
theorem compile_of_tooManyDigits {query : Query σ} {n : Nat}
    (ht : tokenize query.expression = .error (.tooManyDigits n)) (s : ε) :
    compile e query s = (.error (.tooManyDigits n), s) := by
  unfold compile
  rw [ht]
  rfl

/-- Every expression with something in it either becomes a query with the handle that the engine
made for it, or is refused as invalid, on account of the text that starts no token or of what the
engine says; unless it has an integer of too many digits. -/
theorem compiled_or_invalid (he : e.CompilesOr engineFailures) (f : Forest) (expression : String)
    (filter : Filter σ) (given namespaces : Value) {bound : List Namespace}
    {values : List (VariableName × Value)}
    (hexpression : ∃ c ∈ expression.toList, Text.isBlank c = false)
    (hbound : Bindings.collect f namespaces = .ok bound)
    (hvalues : Bindings.valuesOf f bound given = .ok values) (s : ε) :
    ∃ query answer s' log,
      Query.make f (.text expression) (.ok filter) given namespaces = .ok query ∧
      query = ⟨expression, filter, bound, values⟩ ∧
      compile e.recording query (s, []) = (answer, s', log) ∧
      Construction e query s answer s' log := by
  have hmake := Query.make_eq_ok filter hexpression hbound hvalues
  cases ht : tokenize expression with
  | ok ts =>
    obtain ⟨answer, s', log, hcompile, hend⟩ :=
      construction_of_tokenize he ⟨expression, filter, bound, values⟩ ht s
    exact ⟨_, answer, s', log, hmake, rfl, hcompile, hend⟩
  | error fault =>
    obtain ⟨before, rest, htext, hne, hr⟩ := tokensFrom_eq_error ht
    rw [Nat.zero_add] at hr
    cases hr with
    | unknown hl =>
      refine ⟨_, _, s, [], hmake, rfl, ?_, .unknown htext hne hl rfl⟩
      simp [compile, ht, Failure.whileCompiling_of_isAny (show Failure.isAny [.unknownText]
        (.unknownText (String.ofList (rest.take 10)) before.length) = true from rfl)]
    | long hl hlong =>
      exact ⟨_, _, s, [], hmake, rfl, compile_of_tooManyDigits ht _, .escaped htext hl hlong⟩

/-- A name is compiled. -/
theorem compiled_or_invalid_name :
    let e : Engine Request Unit := ⟨fun r s => (.ok r, s), fun _ _ _ n s => (.ok (.many []), n, s)⟩
    ∃ query answer s' log,
      Query.make (σ := Unit) .empty (.text "a") (.ok .passthrough) .none .none = .ok query ∧
      query = ⟨"a", .passthrough, [Namespace.none], []⟩ ∧
      compile e.recording query ((), []) = (answer, s', log) ∧
      Construction e query () answer s' log :=
  compiled_or_invalid (fun _ _ _ h => by cases h) .empty "a" .passthrough .none .none
    ⟨'a', by decide, by decide⟩ rfl rfl ()

/-- The failure that an integer of too many digits causes is no invalid expression. -/
theorem long_integer_escapes :
    let e : Engine Request Unit := ⟨fun r s => (.ok r, s), fun _ _ _ n s => (.ok (.many []), n, s)⟩
    let expression := String.ofList (List.replicate 4301 '1')
    let query : Query Unit := ⟨expression, .passthrough, [Namespace.none], []⟩
    Query.make .empty (.text expression) (.ok .passthrough) .none .none = .ok query ∧
      compile e query () = (.error (.tooManyDigits 4301), ()) ∧
      ∀ cause, Failure.tooManyDigits 4301 ≠ .invalidExpression expression cause := by
  intro e expression query
  have ht : tokenize query.expression = .error (.tooManyDigits 4301) :=
    tokenize_digits (by decide) (by decide) (by decide) (by decide)
  have hone : '1' ∈ expression.toList := by
    rw [String.toList_ofList]
    exact List.mem_replicate.2 ⟨by decide, rfl⟩
  exact ⟨Query.make_eq_ok .passthrough ⟨'1', hone, by decide⟩ rfl rfl,
    compile_of_tooManyDigits ht (), nofun⟩

end CompiledQuery

end TreeQuery
