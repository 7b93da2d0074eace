import Mathlib.Data.List.DropRight
import TreeQuery.Proofs.Grammar.Literal
import TreeQuery.Proofs.Lexing.Coverage
import TreeQuery.Proofs.Path.Whole

/-!
# Parsing of operands

How the parser reads the operands that an absolute path holds, up to what ends them: a position
(`expr_number`), and the function of a node that is compared with a quoted text
(`comparison_literal`).
-/

namespace TreeQuery.XPath.Parser

variable {inner : Parser Expr} {cs rest last : List Char} {e a b : Expr} {d : Nat}

/-! ## White space -/

theorem isSpace_eq_false {p : Char → Bool} {c : Char} (h : p c = true)
    (hp : [' ', '\t', '\r', '\n'].any p = false) : Text.isSpace c = false :=
  Bool.eq_false_iff.2 fun hs => List.any_eq_false.1 hp c (mem_spaces_iff.2 hs) h

theorem isSpace_of_isDigit {c : Char} (h : c.isDigit = true) : Text.isSpace c = false :=
  isSpace_eq_false h rfl

theorem isSpace_of_isNameStart {c : Char} (h : Text.isNameStart c = true) :
    Text.isSpace c = false :=
  isSpace_eq_false h rfl

theorem blanks_cons {c : Char} (h : Text.isSpace c = false) (cs : List Char) :
    blanks (c :: cs) = c :: cs :=
  List.dropWhile_cons_of_neg (Bool.eq_false_iff.1 h)

theorem blanks_blanks (cs : List Char) : blanks (blanks cs) = blanks cs :=
  List.dropWhile_idempotent Text.isSpace cs

/-! ## Repetition -/

section Repetition

variable {α : Type} {p : List Char → Option (Option (α × List Char))} {x : α} {xs : List α}

theorem upTo_mono {m n : Nat} {r : List α × List Char} (h : repeated.upTo p m cs = some r)
    (hmn : m ≤ n) : repeated.upTo p n cs = some r := by
  induction m generalizing n cs r with
  | zero => cases h
  | succ m ih =>
    obtain ⟨n, rfl⟩ : ∃ k, n = k + 1 := ⟨n - 1, by omega⟩
    rw [repeated.upTo] at h ⊢
    cases hp : p cs with
    | none => rwa [hp] at h
    | some found =>
      rw [hp] at h
      cases found with
      | none => cases h
      | some found =>
        obtain ⟨r, hr, rfl⟩ := Option.map_eq_some_iff.1 h
        dsimp only
        rw [ih hr (Nat.le_of_succ_le_succ hmn), Option.map_some]

theorem repeated_nil (h : p cs = none) : repeated p cs = some ([], cs) := by
  rw [repeated, repeated.upTo, h]

theorem repeated_cons (h : p cs = some (some (x, rest))) (hlt : rest.length < cs.length)
    (hrest : repeated p rest = some (xs, last)) : repeated p cs = some (x :: xs, last) := by
  rw [repeated] at hrest
  rw [repeated, repeated.upTo, h]
  dsimp only
  rw [upTo_mono hrest hlt, Option.map_some]

end Repetition

/-! ## Operators -/

/-- The levels of operators within an operand, from the innermost on. -/
def climb (operand : Parser Expr) (levels : List (List (String × Operator))) : Parser Expr :=
  levels.foldl (fun operand spellings => chain (spelled spellings) operand) operand

theorem expr_succ (d : Nat) : expr (d + 1) = climb (unaryExpr (expr d)) operators := rfl

/-- Neither white space nor an operator of some levels begins here. -/
@[mk_iff]
structure Outside (levels : List (List (String × Operator))) (cs : List Char) : Prop where
  blanks : blanks cs = cs
  spelled : ∀ l ∈ levels, spelled l cs = none

/-- All operators between operands. -/
def allOperators : List (List (String × Operator)) := [("|", .union)] :: operators

theorem Outside.mono {levels more : List (List (String × Operator))} (h : Outside more cs)
    (hsub : levels ⊆ more) : Outside levels cs :=
  ⟨h.blanks, fun l hl => h.spelled l (hsub hl)⟩

section Chain

variable {operator : Parser Operator} {operand : Parser Expr} {op : Operator}
  {mid next : List Char}

theorem chain_of_repeated (more : List (Operator × Expr)) (ha : operand cs = some (a, mid))
    (hmore : repeated (fun cs => (operator (blanks cs)).map fun r =>
      (operand (blanks r.2)).map fun e => ((r.1, e.1), e.2)) mid = some (more, rest))
    (hblanks : blanks rest = rest) :
    chain operator operand cs =
      some (more.foldl (fun left r => .binary r.1 left r.2) a, rest) := by
  rw [chain, ha]
  dsimp only [Option.bind_eq_bind, Option.bind_some]
  rw [hmore]
  dsimp only [Option.bind_some]
  rw [hblanks]
  rfl

theorem chain_operand (ha : operand cs = some (a, rest)) (hblanks : blanks rest = rest)
    (hnone : operator rest = none) : chain operator operand cs = some (a, rest) := by
  refine chain_of_repeated [] ha (repeated_nil ?_) hblanks
  rw [hblanks, hnone, Option.map_none]

theorem chain_binary (ha : operand cs = some (a, mid))
    (hop : operator (blanks mid) = some (op, next)) (hb : operand (blanks next) = some (b, rest))
    (hlt : rest.length < mid.length) (hblanks : blanks rest = rest) (hnone : operator rest = none) :
    chain operator operand cs = some (.binary op a b, rest) := by
  refine chain_of_repeated [(op, b)] ha (repeated_cons ?_ hlt (repeated_nil ?_)) hblanks
  · rw [hop, Option.map_some, hb, Option.map_some]
  · rw [hblanks, hnone, Option.map_none]

end Chain

/-- An operand that no operator follows is an expression by itself. -/
theorem climb_of_outside {levels : List (List (String × Operator))} {operand : Parser Expr}
    (h : operand cs = some (e, rest)) (ho : Outside levels rest) :
    climb operand levels cs = some (e, rest) := by
  induction levels generalizing operand with
  | nil => exact h
  | cons l levels ih =>
    obtain ⟨hl, hlevels⟩ := List.forall_mem_cons.1 ho.spelled
    exact ih (chain_operand h ho.blanks hl) ⟨ho.blanks, hlevels⟩

/-- What follows an expression: what it is within goes on, or the text ends. -/
def EndsExpr (cs : List Char) : Prop := ∀ c ∈ cs.head?, c = ']' ∨ c = ')' ∨ c = ','

theorem EndsExpr.outside (h : EndsExpr cs) : Outside allOperators cs := by
  cases cs with
  | nil => exact ⟨rfl, by decide⟩
  | cons c cs =>
    simp only [outside_iff, allOperators, operators, List.forall_mem_cons]
    rcases h c rfl with rfl | rfl | rfl <;>
      exact ⟨rfl, rfl, rfl, rfl, rfl, rfl, rfl, rfl, nofun⟩

theorem endsExpr_closeBracket (cs : List Char) : EndsExpr (']' :: cs) := by
  rintro c ⟨⟩
  exact .inl rfl

/-! ## Operands -/

/-- What does not go on with an operand as a predicate or a step does. -/
def EndsOperand (cs : List Char) : Prop := ∀ c ∈ (blanks cs).head?, c ≠ '[' ∧ c ≠ '/'

theorem EndsOperand.blanks (h : EndsOperand cs) : EndsOperand (blanks cs) := by
  rwa [EndsOperand, blanks_blanks]

theorem EndsExpr.endsOperand (h : EndsExpr cs) : EndsOperand cs := by
  intro c hc
  rw [h.outside.blanks] at hc
  rcases h c hc with rfl | rfl | rfl <;> decide

theorem predicate_eq_none (h : EndsOperand cs) : predicate inner (blanks cs) = none := by
  rw [predicate, blanks_blanks, Option.map_eq_none_iff]
  unfold after
  split
  · next c rest hc => exact if_neg fun hne => (h c (by rw [hc]; rfl)).1 hne.symm
  · rfl

theorem filtered_of_primary (h : primary inner cs = some (e, rest)) (hends : EndsOperand rest) :
    filtered inner cs = some (e, blanks rest) := by
  rw [filtered, h]
  dsimp only [Option.bind_eq_bind, Option.bind_some]
  rw [repeated_nil (predicate_eq_none hends)]
  dsimp only [Option.bind_some]
  rw [blanks_blanks]
  split
  · next hc => exact absurd rfl (hends '/' (by rw [hc]; rfl)).2
  · next hc => exact absurd rfl (hends '/' (by rw [hc]; rfl)).2
  · rfl

theorem pathExpr_of_primary (hpath : pathExpr inner cs = filtered inner cs)
    (h : primary inner cs = some (e, blanks rest)) (hends : EndsOperand rest) :
    pathExpr inner cs = some (e, blanks rest) := by
  rw [hpath, filtered_of_primary h hends.blanks, blanks_blanks]

theorem climb_unaryExpr {levels : List (List (String × Operator))}
    (hsign : after '-' (blanks cs) = none) (h : pathExpr inner cs = some (e, rest))
    (ho : Outside ([("|", .union)] :: levels) rest) :
    climb (unaryExpr inner) levels cs = some (e, rest) := by
  have hunion : unionExpr inner cs = some (e, rest) :=
    chain_operand h ho.blanks (ho.spelled _ List.mem_cons_self)
  have hsigns : repeated (fun cs => (after '-' (blanks cs)).map fun r => some ((), r)) cs =
      some ([], cs) := repeated_nil (by rw [hsign, Option.map_none])
  refine climb_of_outside ?_ (ho.mono (List.subset_cons_self _ levels))
  rw [unaryExpr, hsigns]
  dsimp only [Option.bind_eq_bind, Option.bind_some]
  rw [hunion]
  rfl

theorem expr_of_pathExpr (hsign : after '-' (blanks cs) = none)
    (h : pathExpr (expr d) cs = some (e, rest)) (hends : EndsExpr rest) :
    expr (d + 1) cs = some (e, rest) := by
  rw [expr_succ]
  exact climb_unaryExpr hsign h hends.outside

/-! ## Numbers -/

theorem numeral_toString (n : Nat) {cs : List Char} (h : EndsExpr cs) :
    numeral ((toString n).toList ++ cs) = some (toString n, cs) := by
  have hdigits : ∀ c ∈ (toString n).toList, c.isDigit = true := fun c hc =>
    isDigit_of_mem_toString hc
  have hsome : (toString n).toList.isEmpty = false :=
    List.isEmpty_eq_false_iff.2 (toList_toString_ne_nil n)
  have hends : cs.takeWhile Char.isDigit = [] ∧ cs.dropWhile Char.isDigit = cs ∧
      exponent cs = ([], cs) ∧ ∀ rest, cs ≠ '.' :: rest := by
    cases cs with
    | nil => exact ⟨rfl, rfl, rfl, nofun⟩
    | cons c cs => rcases h c rfl with rfl | rfl | rfl <;> exact ⟨rfl, rfl, rfl, nofun⟩
  obtain ⟨htake, hdrop, hexponent, hdot⟩ := hends
  rw [numeral, List.takeWhile_append_of_pos hdigits, List.dropWhile_append_of_pos hdigits, htake,
    hdrop, List.append_nil]
  dsimp only
  split
  · next rest => exact absurd rfl (hdot rest)
  · rw [hsome, if_neg Bool.false_ne_true, hexponent, List.append_nil, String.ofList_toList]

theorem beginsPrimary_of_isDigit {c : Char} (h : c.isDigit = true) :
    beginsPrimary (c :: cs) = true := by
  unfold beginsPrimary
  split
  · next hcons =>
    cases hcons
    cases h
  · next hcons =>
    cases hcons
    rw [h, Bool.or_true]
  · next hcons => cases hcons

theorem filtered_numeral {c : Char} {text : String} (hc : c.isDigit = true)
    (h : numeral (c :: cs) = some (text, rest)) (hends : EndsOperand rest) :
    filtered inner (c :: cs) = some (.number text, blanks rest) := by
  refine filtered_of_primary ?_ hends
  unfold primary
  split
  case h_5 hcons =>
    cases hcons
    rw [hc, Bool.true_or, if_pos rfl, h, Option.map_some]
  all_goals
    next hcons =>
      cases hcons
      try cases hc

theorem toString_append_eq_cons (n : Nat) (cs : List Char) :
    ∃ c rest, (toString n).toList ++ cs = c :: rest ∧ c.isDigit = true := by
  obtain ⟨c, digits, htext⟩ := List.exists_cons_of_ne_nil (toList_toString_ne_nil n)
  refine ⟨c, digits ++ cs, ?_, isDigit_of_mem_toString (htext ▸ List.mem_cons_self)⟩
  rw [htext, List.cons_append]

theorem blanks_number (n : Nat) (cs : List Char) :
    blanks ((toString n).toList ++ cs) = (toString n).toList ++ cs := by
  obtain ⟨c, rest, htext, hdigit⟩ := toString_append_eq_cons n cs
  rw [htext]
  exact blanks_cons (isSpace_of_isDigit hdigit) rest

theorem pathExpr_number (n : Nat) (h : EndsExpr cs) :
    pathExpr inner ((toString n).toList ++ cs) = some (.number (toString n), cs) := by
  have hnumeral := numeral_toString n h
  have hblanks := blanks_number n cs
  obtain ⟨c, rest, htext, hdigit⟩ := toString_append_eq_cons n cs
  rw [htext] at hnumeral hblanks ⊢
  rw [pathExpr, hblanks]
  dsimp only
  rw [beginsPrimary_of_isDigit hdigit, if_pos rfl,
    filtered_numeral hdigit hnumeral h.endsOperand, h.outside.blanks]

theorem expr_number (n : Nat) (h : EndsExpr cs) :
    expr (d + 1) ((toString n).toList ++ cs) = some (.number (toString n), cs) := by
  have hsign : after '-' (blanks ((toString n).toList ++ cs)) = none := by
    obtain ⟨c, rest, htext, hdigit⟩ := toString_append_eq_cons n cs
    rw [blanks_number, htext]
    refine if_neg ?_
    rintro rfl
    cases hdigit
  exact expr_of_pathExpr hsign (pathExpr_number n h) h

/-! ## Literals -/

theorem quoted_body {q : Char} {body : List Char} (hq : q = '"' ∨ q = '\'') (hb : q ∉ body)
    (cs : List Char) : quoted (q :: (body ++ q :: cs)) = some (.ofList body, cs) := by
  have hne : ∀ c ∈ body, (c != q) = true := fun c hc => bne_iff_ne.2 fun h => hb (h ▸ hc)
  have htake : (body ++ q :: cs).takeWhile (· != q) = body := by
    rw [List.takeWhile_append_of_pos hne, List.takeWhile_cons_of_neg (by simp), List.append_nil]
  have hdrop : (body ++ q :: cs).dropWhile (· != q) = q :: cs := by
    rw [List.dropWhile_append_of_pos hne, List.dropWhile_cons_of_neg (by simp)]
  rw [quoted, if_pos hq, htake, hdrop]

theorem pathExpr_quoted {q : Char} {body : List Char} (hq : q = '"' ∨ q = '\'') (hb : q ∉ body)
    (h : EndsOperand cs) :
    pathExpr inner (q :: (body ++ q :: cs)) = some (.literal (.ofList body), blanks cs) := by
  have hquoted := quoted_body hq hb cs
  have hprimary : primary inner (q :: (body ++ q :: cs)) = some (.literal (.ofList body), cs) := by
    rcases hq with rfl | rfl <;> rw [primary, hquoted] <;> rfl
  have hfiltered := filtered_of_primary hprimary h
  rcases hq with rfl | rfl <;> exact hfiltered

theorem expr_quoted {q : Char} {body : List Char} (hq : q = '"' ∨ q = '\'') (hb : q ∉ body)
    (h : EndsExpr cs) :
    expr (d + 1) (q :: (body ++ q :: cs)) = some (.literal (.ofList body), cs) := by
  have hpath : pathExpr (expr d) _ = _ := pathExpr_quoted hq hb h.endsOperand
  rw [h.outside.blanks] at hpath
  refine expr_of_pathExpr ?_ hpath h
  rcases hq with rfl | rfl <;> rfl

/-- What begins with a quote. -/
def BeginsQuoted (cs : List Char) : Prop := ∃ q rest, cs = q :: rest ∧ (q = '"' ∨ q = '\'')

theorem BeginsQuoted.blanks (h : BeginsQuoted cs) : blanks cs = cs := by
  obtain ⟨q, rest, rfl, rfl | rfl⟩ := h <;> rfl

theorem BeginsQuoted.head (h : BeginsQuoted cs) {c : Char} (hc : c ∈ cs.head?) :
    c = '"' ∨ c = '\'' := by
  obtain ⟨q, rest, rfl, hq⟩ := h
  cases hc
  exact hq

theorem beginsQuoted_intercalate {ps : List (List Char)} (hps : ∀ p ∈ ps, IsQuoted p)
    (hne : ps ≠ []) (cs : List Char) : BeginsQuoted ([',', ' '].intercalate ps ++ cs) := by
  match ps with
  | [p] =>
    obtain ⟨q, body, hq, -, rfl⟩ := hps p List.mem_cons_self
    rw [List.intercalate_singleton]
    exact ⟨q, body ++ [q] ++ cs, rfl, hq⟩
  | p :: p' :: ps =>
    obtain ⟨q, body, hq, -, rfl⟩ := hps p List.mem_cons_self
    rw [List.intercalate_cons_cons, List.append_assoc, List.append_assoc]
    exact ⟨q, _, rfl, hq⟩

theorem length_le_intercalate (ps : List (List Char)) :
    ps.length ≤ ([',', ' '].intercalate ps).length + 1 := by
  match ps with
  | [] => exact Nat.zero_le _
  | [p] => simp
  | p :: p' :: ps =>
    have hrest := length_le_intercalate (p' :: ps)
    rw [List.intercalate_cons_cons]
    simp only [List.length_append, List.length_cons, List.length_nil] at hrest ⊢
    omega

/-- Quoted parts are read as the arguments of a call. -/
theorem arguments_intercalate {ps : List (List Char)} (hps : ∀ p ∈ ps, IsQuoted p) (hne : ps ≠ [])
    {fuel : Nat} (hfuel : ps.length ≤ fuel) (cs : List Char) :
    arguments (expr (d + 1)) fuel ([',', ' '].intercalate ps ++ ')' :: cs) =
      some ((ps.map fun p => String.ofList (unquoted p)).map .literal, blanks cs) := by
  induction ps generalizing fuel with
  | nil => exact absurd rfl hne
  | cons p ps ih =>
    obtain ⟨⟨q, body, hq, hb, rfl⟩, hrest⟩ := List.forall_mem_cons.1 hps
    obtain ⟨fuel, rfl⟩ : ∃ n, fuel = n + 1 := ⟨fuel - 1, by
      rw [List.length_cons] at hfuel
      omega⟩
    rw [List.map_cons, List.map_cons, unquoted_quoted]
    cases ps with
    | nil =>
      have hends : EndsExpr (')' :: cs) := by
        rintro c ⟨⟩
        exact .inr (.inl rfl)
      have hp := expr_quoted hq hb hends (d := d)
      rw [List.intercalate_singleton, List.cons_append, List.append_assoc, List.singleton_append,
        arguments, hp]
      · rfl
      · nofun
    | cons p ps =>
      have hmore := ih hrest (List.cons_ne_nil p ps) (Nat.le_of_succ_le_succ hfuel)
      have hquoted := beginsQuoted_intercalate hrest (List.cons_ne_nil p ps) (')' :: cs)
      have htext : [',', ' '].intercalate ((q :: (body ++ [q])) :: p :: ps) ++ ')' :: cs =
          q :: (body ++ q :: ',' :: ' ' :: ([',', ' '].intercalate (p :: ps) ++ ')' :: cs)) := by
        rw [List.intercalate_cons_cons]
        simp
      generalize [',', ' '].intercalate (p :: ps) ++ ')' :: cs = more at hmore hquoted htext
      have hends : EndsExpr (',' :: ' ' :: more) := by
        rintro c ⟨⟩
        exact .inr (.inr rfl)
      have hp := expr_quoted hq hb hends (d := d)
      rw [htext, arguments, hp]
      · show (arguments (expr (d + 1)) fuel (blanks more)).bind _ = _
        rw [hquoted.blanks, hmore]
        rfl
      · nofun

/-! ## Calls -/

theorem pathExpr_localName (h : EndsOperand cs) :
    pathExpr inner ("local-name()".toList ++ cs) =
      some (.call ⟨none, "local-name"⟩ [], blanks cs) :=
  pathExpr_of_primary rfl rfl h

theorem pathExpr_namespaceUri (h : EndsOperand cs) :
    pathExpr inner ("namespace-uri()".toList ++ cs) =
      some (.call ⟨none, "namespace-uri"⟩ [], blanks cs) :=
  pathExpr_of_primary rfl rfl h

theorem call_concat {es : List Expr} (hc : ∀ c ∈ cs.head?, c = '"' ∨ c = '\'')
    (h : arguments inner (cs.length + 1) cs = some (es, rest)) :
    call inner ("concat(".toList ++ cs) = some (.call ⟨none, "concat"⟩ es, rest) := by
  cases cs with
  | nil =>
    cases h
    rfl
  | cons c cs =>
    have hbind : call inner ("concat(".toList ++ c :: cs) =
        (arguments inner (cs.length + 2) (c :: cs)).bind
          fun r => some (.call ⟨none, "concat"⟩ r.1, r.2) := by
      rcases hc c rfl with rfl | rfl <;> rfl
    rw [List.length_cons] at h
    rw [hbind, h, Option.bind_some]

theorem pathExpr_concat {ps : List (List Char)} (hps : ∀ p ∈ ps, IsQuoted p) (hne : ps ≠ [])
    (h : EndsOperand cs) :
    pathExpr (expr (d + 1)) ("concat(".toList ++ ([',', ' '].intercalate ps ++ ')' :: cs)) =
      some (.call ⟨none, "concat"⟩ ((ps.map fun p => String.ofList (unquoted p)).map .literal),
        blanks cs) := by
  have hfuel : ps.length ≤ ([',', ' '].intercalate ps ++ ')' :: cs).length + 1 := by
    have hle := length_le_intercalate ps
    rw [List.length_append]
    omega
  have hquoted := beginsQuoted_intercalate hps hne (')' :: cs)
  have hargs := arguments_intercalate hps hne hfuel cs (d := d)
  generalize [',', ' '].intercalate ps ++ ')' :: cs = text at hquoted hargs
  exact pathExpr_of_primary rfl (call_concat (fun c hc => hquoted.head hc) hargs) h

theorem pathExpr_literal (s : String) (h : EndsOperand cs) :
    pathExpr (expr (d + 1)) ((literal s).toList ++ cs) =
      some (literalTree s, blanks cs) := by
  have hone {q : Char} (hq : q = '"' ∨ q = '\'') (hs : q ∉ s.toList) :
      pathExpr (expr (d + 1)) (q :: (s.toList ++ [q]) ++ cs) =
        some (.literal s, blanks cs) := by
    rw [List.cons_append, List.append_assoc, List.singleton_append, pathExpr_quoted hq hs h,
      String.ofList_toList]
  unfold literal literalTree
  simp only [List.contains_iff_mem, Bool.not_eq_true', Bool.eq_false_iff, ne_eq]
  by_cases hs : '\'' ∈ s.toList
  · by_cases hd : '"' ∈ s.toList
    · have hparts : literalParts s.toList ≠ [] := fun hnil => by
        have hflat := flatten_literalParts s.toList
        rw [hnil] at hflat
        rw [← hflat] at hs
        cases hs
      rw [if_neg (not_not_intro hs), if_neg (not_not_intro hd), if_pos ⟨hs, hd⟩, toList_concat,
        List.append_assoc, List.append_assoc, List.singleton_append,
        pathExpr_concat (isQuoted_literalParts s.toList) hparts h]
      rfl
    · rw [if_neg (not_not_intro hs), if_pos hd, if_neg fun h => hd h.2, String.toList_append,
        String.toList_append]
      exact hone (.inl rfl) hd
  · rw [if_pos hs, if_neg fun h => hs h.1, String.toList_append, String.toList_append]
    exact hone (.inr rfl) hs

/-! ## Names in namespaces -/

theorem literal_eq_cons (s : String) :
    ∃ c cs, (literal s).toList = c :: cs ∧ (c = '"' ∨ c = '\'' ∨ c = 'c') := by
  unfold literal
  dsimp only
  split
  · refine ⟨'\'', s.toList ++ ['\''], ?_, .inr (.inl rfl)⟩
    rw [String.toList_append, String.toList_append]
    rfl
  · split
    · refine ⟨'"', s.toList ++ ['"'], ?_, .inl rfl⟩
      rw [String.toList_append, String.toList_append]
      rfl
    · exact ⟨_, _, toList_concat _, .inr (.inr rfl)⟩

/-- Reads what is compared by `=`. -/
def comparison (inner : Parser Expr) : Parser Expr :=
  chain (spelled [("=", .eq), ("!=", .ne)]) (climb (unaryExpr inner) (operators.take 3))

theorem expr_eq (d : Nat) : expr (d + 1) = chain (spelled [("or", .or)])
    (chain (spelled [("and", .and)]) (comparison (expr d))) := rfl

theorem comparison_literal {text : List Char} (s : String) (hsign : after '-' (blanks text) = none)
    (h : pathExpr (expr (d + 1)) text = some (e, '=' :: ' ' :: ((literal s).toList ++ cs)))
    (hends : EndsOperand cs) (ho : Outside (allOperators.take 5) (blanks cs)) :
    comparison (expr (d + 1)) text = some (.binary .eq e (literalTree s), blanks cs) := by
  obtain ⟨c, rest, htext, hc⟩ := literal_eq_cons s
  have hliteral := pathExpr_literal s hends (d := d)
  rw [htext, List.cons_append] at h hliteral
  have hoperand : climb (unaryExpr (expr (d + 1))) (operators.take 3) (c :: (rest ++ cs)) =
      some (literalTree s, blanks cs) := by
    refine climb_unaryExpr ?_ hliteral (ho.mono (by decide))
    rcases hc with rfl | rfl | rfl <;> rfl
  have hblanks : blanks (' ' :: c :: (rest ++ cs)) = c :: (rest ++ cs) := by
    rcases hc with rfl | rfl | rfl <;> rfl
  have hequal : Outside (allOperators.take 4) ('=' :: ' ' :: c :: (rest ++ cs)) := by
    simp only [outside_iff, allOperators, operators, List.take, List.forall_mem_cons]
    exact ⟨rfl, rfl, rfl, rfl, rfl, nofun⟩
  have hlt : (blanks cs).length < ('=' :: ' ' :: c :: (rest ++ cs)).length := by
    have hle : (blanks cs).length ≤ cs.length := List.length_dropWhile_le ..
    simp only [List.length_cons, List.length_append]
    omega
  refine chain_binary (climb_unaryExpr hsign h hequal) rfl ?_ hlt ho.blanks
    (ho.spelled _ (by decide))
  rw [hblanks, hoperand]

theorem endsOperand_equal (cs : List Char) : EndsOperand (" = ".toList ++ cs) := by
  rintro c ⟨⟩
  decide

theorem comparison_localName (name : String) (h : EndsOperand cs)
    (ho : Outside (allOperators.take 5) (blanks cs)) :
    comparison (expr (d + 1))
        ("local-name()".toList ++ (" = ".toList ++ ((literal name).toList ++ cs))) =
      some (.binary .eq (.call ⟨none, "local-name"⟩ []) (literalTree name), blanks cs) :=
  comparison_literal name rfl (pathExpr_localName (endsOperand_equal _)) h ho

theorem comparison_namespaceUri (uri : String) (h : EndsOperand cs)
    (ho : Outside (allOperators.take 5) (blanks cs)) :
    comparison (expr (d + 1))
        ("namespace-uri()".toList ++ (" = ".toList ++ ((literal uri).toList ++ cs))) =
      some (.binary .eq (.call ⟨none, "namespace-uri"⟩ []) (literalTree uri), blanks cs) :=
  comparison_literal uri rfl (pathExpr_namespaceUri (endsOperand_equal _)) h ho

/-! ## Names and predicates -/

theorem exists_of_isName {name : String} (h : Text.isName name.toList = true) :
    ∃ c cs, name.toList = c :: cs ∧ Text.isNameStart c = true ∧
      ∀ d ∈ cs, Text.isNameChar d = true := by
  cases htext : name.toList with
  | nil =>
    rw [htext] at h
    cases h
  | cons c cs =>
    rw [htext, Text.isName, Bool.and_eq_true] at h
    exact ⟨c, cs, rfl, h.1, List.all_eq_true.1 h.2⟩

theorem ncName_append {name : String} (h : Text.isName name.toList = true)
    (hcs : ∀ c ∈ cs.head?, Text.isNameChar c = false) :
    ncName (name.toList ++ cs) = some (name, cs) := by
  have hends : cs.takeWhile Text.isNameChar = [] ∧ cs.dropWhile Text.isNameChar = cs := by
    cases cs with
    | nil => exact ⟨rfl, rfl⟩
    | cons c cs =>
      have hc := Bool.eq_false_iff.1 (hcs c rfl)
      exact ⟨List.takeWhile_cons_of_neg hc, List.dropWhile_cons_of_neg hc⟩
  obtain ⟨htake, hdrop⟩ := hends
  obtain ⟨c, ns, htext, hc, hns⟩ := exists_of_isName h
  rw [htext, List.cons_append, ncName, if_pos hc, List.takeWhile_append_of_pos hns,
    List.dropWhile_append_of_pos hns, htake, hdrop, List.append_nil, ← htext, String.ofList_toList]

theorem predicate_eq (hb : blanks cs = cs) (h : inner cs = some (e, ']' :: rest)) :
    predicate inner ('[' :: cs) = some (some (e, blanks rest)) := by
  have hafter : after '[' (blanks ('[' :: cs)) = some cs := rfl
  rw [predicate, hafter, Option.map_some, hb, h]
  rfl

end TreeQuery.XPath.Parser
