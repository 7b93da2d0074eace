import TreeQuery.Proofs.Grammar.Nesting
import TreeQuery.Proofs.Grammar.Spacing
import TreeQuery.XPath.ContextUse

/-!
# Scans along trees

How the scans for relative paths and context calls go along the tokens of a tree. They pass over
predicates (`scans_nested`) and over the steps of a path (`Steps.quiet`) without finding anything,
whatever words the names of the steps are.
-/

namespace TreeQuery.XPath

/-! ## Nesting -/

/-- The last of some tokens, or the token before them. -/
def lastOf (last : Option Token) (us : List Token) : Option Token := us.getLast?.or last

theorem lastOf_cons (last : Option Token) (t : Token) (us : List Token) :
    lastOf last (t :: us) = lastOf (some t) us := by
  cases us with
  | nil => rfl
  | cons u us =>
    unfold lastOf
    rw [List.getLast?_cons_cons, List.getLast?_cons]
    rfl

theorem lastOf_append (last : Option Token) (us vs : List Token) :
    lastOf last (us ++ vs) = lastOf (lastOf last us) vs := by
  induction us generalizing last with
  | nil => rfl
  | cons u us ih => rw [List.cons_append, lastOf_cons, lastOf_cons, ih]

theorem closing?_cons_other {t : Token} (h : t.kind ≠ .openParen) (h' : t.kind ≠ .closeParen)
    (depth : Nat) (ts : List Token) : closing? depth (t :: ts) = closing? depth ts := by
  cases depth <;> simp [closing?, h']

theorem closing?_cons_open {t : Token} (h : t.kind = .openParen) (depth : Nat)
    (ts : List Token) : closing? depth (t :: ts) = closing? (depth + 1) ts := by
  simp [closing?, h]

theorem closing?_cons_close {t : Token} (h : t.kind = .closeParen) (depth : Nat)
    (ts : List Token) : closing? (depth + 1) (t :: ts) = closing? depth ts := by
  simp [closing?, h]

theorem closing?_cons_found {t : Token} (h : t.kind = .closeParen) (ts : List Token) :
    closing? 0 (t :: ts) = some t := by
  simp [closing?, h]

/-- The search for the closing parenthesis passes over nested ones. -/
theorem closing?_nested {us : List Token}
    (h : Nested .openParen .closeParen (us.map Token.kind)) (depth : Nat) (rest : List Token) :
    closing? depth (us ++ rest) = closing? depth rest := by
  generalize hk : us.map Token.kind = ks at h
  induction h generalizing us depth rest with
  | nil =>
    rw [List.map_eq_nil_iff.1 hk]
    rfl
  | single opens closes =>
    obtain ⟨t, rfl, rfl⟩ := List.map_eq_singleton_iff.1 hk
    exact closing?_cons_other opens closes depth rest
  | append left right ihl ihr =>
    obtain ⟨us₁, us₂, rfl, h₁, h₂⟩ := List.map_eq_append_iff.1 hk
    rw [List.append_assoc, ihl _ _ h₁, ihr _ _ h₂]
  | wrap inside ih =>
    obtain ⟨t, us, rfl, ht, hk⟩ := List.map_eq_cons_iff.1 hk
    obtain ⟨us, vs, rfl, hu, hv⟩ := List.map_eq_append_iff.1 hk
    obtain ⟨z, rfl, hz⟩ := List.map_eq_singleton_iff.1 hv
    rw [List.cons_append, List.append_assoc, closing?_cons_open ht, ih _ _ hu]
    exact closing?_cons_close hz depth rest

theorem depthAfter_of_ne {t : Token} (h : t.kind ≠ .openBracket) (h' : t.kind ≠ .closeBracket)
    (depth : Int) : depthAfter depth t = depth := by
  unfold depthAfter
  split
  · next hk => exact absurd hk h
  · next hk => exact absurd hk h'
  · rfl

theorem depthAfter_open {t : Token} (h : t.kind = .openBracket) (depth : Int) :
    depthAfter depth t = depth + 1 := by
  rw [depthAfter, h]

theorem depthAfter_close {t : Token} (h : t.kind = .closeBracket) (depth : Int) :
    depthAfter depth t = depth - 1 := by
  rw [depthAfter, h]

theorem relativePathsFrom_inside {depth : Int} (h : 0 < depth) (last : Option Token) (t : Token)
    (ts : List Token) : relativePathsFrom depth last (t :: ts) =
      relativePathsFrom (depthAfter depth t) (some t) ts := by
  have hd : (depth == 0) = false := beq_false_of_ne (by omega)
  simp only [relativePathsFrom, hd, Bool.false_and, Bool.false_eq_true, if_false]

theorem contextCallsFrom_inside {depth : Int} (h : 0 < depth) (last : Option Token) (t : Token)
    (ts : List Token) : contextCallsFrom depth last (t :: ts) =
      contextCallsFrom (depthAfter depth t) (some t) ts := by
  have hd : (depth == 0) = false := beq_false_of_ne (by omega)
  simp only [contextCallsFrom, hd, Bool.false_eq_true, if_false]

/-- Within predicates the scans find nothing. -/
theorem scans_nested {us : List Token}
    (h : Nested .openBracket .closeBracket (us.map Token.kind)) {depth : Int} (hd : 0 < depth)
    (last : Option Token) (rest : List Token) :
    relativePathsFrom depth last (us ++ rest) = relativePathsFrom depth (lastOf last us) rest ∧
      contextCallsFrom depth last (us ++ rest) =
        contextCallsFrom depth (lastOf last us) rest := by
  generalize hk : us.map Token.kind = ks at h
  induction h generalizing us depth last rest with
  | nil =>
    rw [List.map_eq_nil_iff.1 hk]
    exact ⟨rfl, rfl⟩
  | single opens closes =>
    obtain ⟨t, rfl, rfl⟩ := List.map_eq_singleton_iff.1 hk
    rw [List.singleton_append, relativePathsFrom_inside hd, contextCallsFrom_inside hd,
      depthAfter_of_ne opens closes]
    exact ⟨rfl, rfl⟩
  | append left right ihl ihr =>
    obtain ⟨us₁, us₂, rfl, h₁, h₂⟩ := List.map_eq_append_iff.1 hk
    obtain ⟨hp₁, hc₁⟩ := ihl hd last (us₂ ++ rest) h₁
    obtain ⟨hp₂, hc₂⟩ := ihr hd (lastOf last us₁) rest h₂
    rw [List.append_assoc, hp₁, hc₁, hp₂, hc₂, lastOf_append]
    exact ⟨rfl, rfl⟩
  | wrap inside ih =>
    obtain ⟨t, us, rfl, ht, hk⟩ := List.map_eq_cons_iff.1 hk
    obtain ⟨us, vs, rfl, hu, hv⟩ := List.map_eq_append_iff.1 hk
    obtain ⟨z, rfl, hz⟩ := List.map_eq_singleton_iff.1 hv
    have hd' : 0 < depth + 1 := by omega
    obtain ⟨hp, hc⟩ := ih hd' (some t) (z :: rest) hu
    rw [List.cons_append, relativePathsFrom_inside hd, contextCallsFrom_inside hd,
      depthAfter_open ht, List.append_assoc, List.singleton_append, hp, hc,
      relativePathsFrom_inside hd', contextCallsFrom_inside hd', depthAfter_close hz,
      Int.add_sub_cancel, lastOf_cons, lastOf_append]
    exact ⟨rfl, rfl⟩

/-! ## What scans find -/

/-- What scans find outside predicates among tokens that stand between others: relative paths that
start at `paths`, and `calls`. -/
structure Scans (last : Option Token) (us rest : List Token) (paths : List Nat)
    (calls : List ContextCall) : Prop where
  paths : relativePathsFrom 0 last (us ++ rest) =
    paths ++ relativePathsFrom 0 (lastOf last us) rest
  calls : contextCallsFrom 0 last (us ++ rest) =
    calls ++ contextCallsFrom 0 (lastOf last us) rest

theorem Scans.append {last : Option Token} {us vs rest : List Token} {R R' : List Nat}
    {C C' : List ContextCall} (h : Scans last us (vs ++ rest) R C)
    (h' : Scans (lastOf last us) vs rest R' C') :
    Scans last (us ++ vs) rest (R ++ R') (C ++ C') where
  paths := by
    rw [List.append_assoc, h.paths, h'.paths, lastOf_append, List.append_assoc]
  calls := by
    rw [List.append_assoc, h.calls, h'.calls, lastOf_append, List.append_assoc]

/-- Among these tokens scans find nothing. -/
def Quiet (last : Option Token) (us rest : List Token) : Prop := Scans last us rest [] []

theorem Quiet.nil (last : Option Token) (rest : List Token) : Quiet last [] rest := ⟨rfl, rfl⟩

theorem Quiet.append {last : Option Token} {us vs rest : List Token}
    (h : Quiet last us (vs ++ rest)) (h' : Quiet (lastOf last us) vs rest) :
    Quiet last (us ++ vs) rest :=
  Scans.append h h'

theorem Quiet.cons {last : Option Token} {t : Token} {vs rest : List Token}
    (h : Quiet last [t] (vs ++ rest)) (h' : Quiet (some t) vs rest) : Quiet last (t :: vs) rest :=
  Scans.append h h'

theorem Scans.token {t : Token} (h : t.kind ≠ .openBracket) (h' : t.kind ≠ .closeBracket)
    (last : Option Token) (rest : List Token) :
    Scans last [t] rest (if beginsPath last t rest then [t.start] else [])
      (contextCall? last (t :: rest)).toList where
  paths := by
    rw [List.singleton_append, relativePathsFrom, depthAfter_of_ne h h']
    cases beginsPath last t rest <;> rfl
  calls := by
    rw [List.singleton_append, contextCallsFrom, depthAfter_of_ne h h']
    cases contextCall? last (t :: rest) <;> rfl

/-- Operands can stand after nothing, and after some tokens. -/
def Starts (last : Option Token) : Prop := ∀ l ∈ last, startsPath l.kind = true

/-- What follows an operand continues no name and makes no call of it. -/
def Follows (rest : List Token) : Prop :=
  ∀ t ∈ rest.head?, t.kind ≠ .openParen ∧ t.kind ≠ .colon

theorem follows_nil : Follows [] := fun t ht => by cases ht

theorem follows_cons {t : Token} (h : t.kind ≠ .openParen) (h' : t.kind ≠ .colon)
    (rest : List Token) : Follows (t :: rest) := by
  intro u hu
  cases hu
  exact ⟨h, h'⟩

theorem contextCall?_of_not_name {t : Token} (h : t.kind ≠ .name) (last : Option Token)
    (rest : List Token) : contextCall? last (t :: rest) = none := by
  unfold contextCall?
  split
  · next he =>
    cases he
    rw [if_neg]
    simp [h]
  · rfl

theorem contextCall?_of_not_paren {t : Token} {rest : List Token}
    (h : ∀ u ∈ rest.head?, u.kind ≠ .openParen) (last : Option Token) :
    contextCall? last (t :: rest) = none := by
  unfold contextCall?
  split
  · next he =>
    cases he
    rw [if_neg]
    simp [h _ rfl]
  · rfl

theorem contextCall?_of_colon {l : Token} (h : l.kind = .colon) (ts : List Token) :
    contextCall? (some l) ts = none := by
  unfold contextCall?
  split
  · rw [if_neg]
    simp [h]
  · rfl

theorem beginsPath_of_not_step {t : Token} (h : beginsStep t.kind = false) (last : Option Token)
    (rest : List Token) : beginsPath last t rest = false := by
  rw [beginsPath, h]
  rfl

/-- A token that begins no step. -/
theorem quiet_sign {t : Token} (h : beginsStep t.kind = false) (ho : t.kind ≠ .openBracket)
    (hc : t.kind ≠ .closeBracket) (last : Option Token) (rest : List Token) :
    Quiet last [t] rest := by
  have hs := Scans.token ho hc last rest
  have hn : t.kind ≠ .name := by
    intro hk
    rw [hk] at h
    cases h
  rwa [beginsPath_of_not_step h, contextCall?_of_not_name hn] at hs

/-- A token that continues a path. -/
theorem quiet_within {l t : Token} {rest : List Token} (hl : startsPath l.kind = false)
    (ho : t.kind ≠ .openBracket) (hc : t.kind ≠ .closeBracket)
    (h : contextCall? (some l) (t :: rest) = none) : Quiet (some l) [t] rest := by
  have hs := Scans.token ho hc (some l) rest
  have hb : beginsPath (some l) t rest = false := by
    rw [beginsPath, Option.all_some, hl, Bool.and_false, Bool.false_and]
  rwa [hb, h] at hs

theorem quiet_predicate {o c : Token} {us : List Token} (ho : o.kind = .openBracket)
    (hc : c.kind = .closeBracket) (h : Nested .openBracket .closeBracket (us.map Token.kind))
    (last : Option Token) (rest : List Token) : Quiet last (o :: (us ++ [c])) rest := by
  have hb : beginsStep o.kind = false := by rw [ho]; rfl
  have hn : o.kind ≠ .name := by rw [ho]; exact nofun
  obtain ⟨hp, hcalls⟩ := scans_nested h Int.one_pos (some o) (c :: rest)
  constructor
  · rw [List.cons_append, relativePathsFrom, beginsPath_of_not_step hb, depthAfter_open ho,
      List.append_assoc, List.singleton_append]
    simp only [Bool.and_false, Bool.false_eq_true, if_false]
    rw [show (0 : Int) + 1 = 1 from rfl, hp, relativePathsFrom_inside Int.one_pos,
      depthAfter_close hc, lastOf_cons, lastOf_append]
    rfl
  · rw [List.cons_append, contextCallsFrom, contextCall?_of_not_name hn, depthAfter_open ho,
      List.append_assoc, List.singleton_append]
    simp only [BEq.rfl, if_true]
    rw [show (0 : Int) + 1 = 1 from rfl, hcalls, contextCallsFrom_inside Int.one_pos,
      depthAfter_close hc, lastOf_cons, lastOf_append]
    rfl

/-! ## Paths -/

theorem kind_of_symbol {t : Token} {s : Symbol} (h : t.symbol = s) : t.kind = s.kind :=
  congrArg Symbol.kind h

theorem Follows.append {us rest : List Token} {ss : List Symbol} (hu : us.map Token.symbol = ss)
    (h : ∀ s ∈ ss.head?, s.kind ≠ .openParen ∧ s.kind ≠ .colon) (hr : Follows rest) :
    Follows (us ++ rest) := by
  cases us with
  | nil => exact hr
  | cons u us =>
    subst hu
    exact follows_cons (h u.symbol rfl).1 (h u.symbol rfl).2 _

theorem beginsStep_nameSymbol {t : Token} {s : String} (h : IsPlainName s)
    (ht : t.symbol = nameSymbol s) : beginsStep t.kind = true := by
  rw [kind_of_symbol ht]
  rcases h with h | h <;> rw [nameSymbol, h] <;> rfl

theorem quiet_symbol {t : Token} {s : Symbol} (ht : t.symbol = s) (h : beginsStep s.kind = false)
    (ho : s.kind ≠ .openBracket) (hc : s.kind ≠ .closeBracket) (last : Option Token)
    (rest : List Token) : Quiet last [t] rest := by
  rw [← kind_of_symbol ht] at h ho hc
  exact quiet_sign h ho hc last rest

theorem quiet_name {t l : Token} {s : String} (ht : t.symbol.plain = (nameSymbol s).plain)
    (hl : startsPath l.kind = false) {rest : List Token}
    (h : contextCall? (some l) (t :: rest) = none) : Quiet (some l) [t] rest := by
  have hn : t.kind.isName = true := (isName_of_plain ht).trans (isName_nameSymbol s)
  exact quiet_within hl (TokenKind.ne_of_isName hn rfl) (TokenKind.ne_of_isName hn rfl) h

theorem quiet_cons {s : Symbol} {ss : List Symbol} {us rest : List Token}
    (hu : StandFor us (s :: ss)) (h : beginsStep s.kind = false) (hs : s.kind ≠ .times)
    (ho : s.kind ≠ .openBracket) (hc : s.kind ≠ .closeBracket) (last : Option Token)
    (hss : ∀ t vs, t.kind = s.kind → StandFor vs ss → Quiet (some t) vs rest) :
    Quiet last us rest := by
  obtain ⟨t, vs, rfl, ht, hv⟩ := standFor_cons_iff.1 hu
  have hstar : s.kind ≠ .star := by
    intro hk
    rw [hk] at h
    cases h
  have hk : t.kind = s.kind := (kind_eq_iff_of_plain ht ⟨hstar, hs⟩).2 rfl
  refine .cons (quiet_sign ?_ ?_ ?_ last _) (hss t vs hk hv) <;> rwa [hk]

theorem quiet_prefixed {p : String} {s : Symbol}
    (hs : s.kind ≠ .openBracket ∧ s.kind ≠ .closeBracket)
    {us : List Token} (hu : StandFor us [nameSymbol p, sign .colon ":", s]) {l : Token}
    (hl : startsPath l.kind = false) (rest : List Token) : Quiet (some l) us rest := by
  obtain ⟨t, us, rfl, ht, hu₁⟩ := standFor_cons_iff.1 hu
  obtain ⟨c, us, rfl, hc, hu₂⟩ := standFor_cons_iff.1 hu₁
  obtain ⟨u, rfl, hu₃⟩ := standFor_singleton_iff.1 hu₂
  have hck : c.kind = .colon := (kind_eq_iff_of_plain hc (by decide)).2 rfl
  refine .cons (quiet_name ht hl (contextCall?_of_not_paren (fun v hv => ?_) _)) ?_
  · cases hv
    rw [hck]
    exact nofun
  · refine .cons
      (quiet_sign (by rw [hck]; rfl) (by rw [hck]; exact nofun) (by rw [hck]; exact nofun) _ _)
      (quiet_within (by rw [hck]; rfl) ?_ ?_ (contextCall?_of_colon hck _))
    · exact (kind_eq_iff_of_plain hu₃ (by decide)).not.2 hs.1
    · exact (kind_eq_iff_of_plain hu₃ (by decide)).not.2 hs.2

theorem Name.quiet {n : Name} {us : List Token} (hu : StandFor us n.symbols) {l : Token}
    (hl : startsPath l.kind = false) {rest : List Token} (hr : Follows rest) :
    Quiet (some l) us rest := by
  obtain ⟨pfx, n⟩ := n
  cases pfx with
  | none =>
    obtain ⟨t, rfl, ht⟩ := standFor_singleton_iff.1 hu
    exact quiet_name ht hl (contextCall?_of_not_paren (fun u hu => (hr u hu).1) _)
  | some p =>
    have hn := isName_nameSymbol n
    exact quiet_prefixed ⟨TokenKind.ne_of_isName hn rfl, TokenKind.ne_of_isName hn rfl⟩ hu hl rest

theorem quiet_literals {ss : List Symbol} (hs : ∀ s ∈ ss, s.kind = .literal) {us : List Token}
    (hu : StandFor us ss) (last : Option Token) (rest : List Token) : Quiet last us rest := by
  induction ss generalizing us last with
  | nil =>
    rw [standFor_nil_iff.1 hu]
    exact .nil _ _
  | cons s ss ih =>
    obtain ⟨hk, hs⟩ := List.forall_mem_cons.1 hs
    refine quiet_cons hu ?_ ?_ ?_ ?_ last fun t vs _ hv => ih hs hv _ <;> rw [hk]
    · rfl
    · exact nofun
    · exact nofun
    · exact nofun

theorem nodeType_quiet {name : String} {inside : List Symbol} {us : List Token}
    (hu : StandFor us (nodeTypeSymbols name inside)) (hi : ∀ s ∈ inside, s.kind = .literal)
    {l : Token} (hl : startsPath l.kind = false) (rest : List Token) :
    Quiet (some l) us rest := by
  obtain ⟨t, us, rfl, ht, hu⟩ := standFor_cons_iff.1 hu
  have htk : t.kind = .nodeType := (kind_eq_iff_of_plain ht (by decide)).2 rfl
  refine .cons (quiet_within hl ?_ ?_ (contextCall?_of_not_name ?_ _ _)) ?_
  · rw [htk]
    exact nofun
  · rw [htk]
    exact nofun
  · rw [htk]
    exact nofun
  · refine quiet_cons hu rfl nofun nofun nofun _ fun o vs _ hv => ?_
    obtain ⟨vs, ws, rfl, hv, hw⟩ := standFor_append_iff.1 hv
    refine .append (quiet_literals hi hv _ _)
      (quiet_cons hw rfl nofun nofun nofun _ fun c us _ hu => ?_)
    rw [standFor_nil_iff.1 hu]
    exact .nil _ _

theorem NodeTest.quiet {t : NodeTest} {us : List Token} (hu : StandFor us t.symbols) {l : Token}
    (hl : startsPath l.kind = false) {rest : List Token} (hr : Follows rest) :
    Quiet (some l) us rest := by
  cases t with
  | node | text | comment => exact nodeType_quiet hu (by simp) hl rest
  | instruction target =>
    cases target with
    | none => exact nodeType_quiet hu (by simp) hl rest
    | some s => exact nodeType_quiet hu (by simp) hl rest
  | any pfx =>
    cases pfx with
    | none =>
      obtain ⟨t, rfl, ht⟩ := standFor_singleton_iff.1 hu
      have hk {k : TokenKind} (hk : k ≠ .star ∧ k ≠ .times) : t.kind ≠ k :=
        (kind_eq_iff_of_plain ht hk).not.2 hk.1.symm
      exact quiet_within hl (hk (by decide)) (hk (by decide))
        (contextCall?_of_not_name (hk (by decide)) _ _)
    | some p => exact quiet_prefixed (by decide) hu hl rest
  | name n => exact Name.quiet hu hl hr

theorem map_kind_of_symbols {us : List Token} {ss : List Symbol}
    (h : us.map Token.symbol = ss) : us.map Token.kind = ss.map Symbol.kind := by
  rw [← h, List.map_map]
  rfl

/-- Whether a `*` multiplies makes no difference to what is nested. -/
theorem StandFor.nested {o c : TokenKind} (hp : IsPair o c) {us : List Token} {ss : List Symbol}
    (hu : StandFor us ss) (h : Nested o c (ss.map Symbol.kind)) :
    Nested o c (us.map Token.kind) := by
  have ho : o ≠ .star ∧ o ≠ .times := by
    rcases hp with ⟨rfl, -⟩ | ⟨rfl, -⟩ <;> decide
  have hc : c ≠ .star ∧ c ≠ .times := by
    rcases hp with ⟨-, rfl⟩ | ⟨-, rfl⟩ <;> decide
  generalize hk : ss.map Symbol.kind = ks at h
  induction h generalizing us ss with
  | nil =>
    rw [List.map_eq_nil_iff.1 hk] at hu
    rw [standFor_nil_iff.1 hu]
    exact .nil
  | single opens closes =>
    obtain ⟨s, rfl, rfl⟩ := List.map_eq_singleton_iff.1 hk
    obtain ⟨t, rfl, ht⟩ := standFor_singleton_iff.1 hu
    exact .single ((kind_eq_iff_of_plain ht ho).not.2 opens)
      ((kind_eq_iff_of_plain ht hc).not.2 closes)
  | append left right ihl ihr =>
    obtain ⟨ss, ss', rfl, hs, hs'⟩ := List.map_eq_append_iff.1 hk
    obtain ⟨us, vs, rfl, hu, hv⟩ := standFor_append_iff.1 hu
    rw [List.map_append]
    exact (ihl hu hs).append (ihr hv hs')
  | wrap inside ih =>
    obtain ⟨s, ss, rfl, hs, hk⟩ := List.map_eq_cons_iff.1 hk
    obtain ⟨ss, ss', rfl, hi, hk⟩ := List.map_eq_append_iff.1 hk
    obtain ⟨s', rfl, hs'⟩ := List.map_eq_singleton_iff.1 hk
    obtain ⟨t, us, rfl, ht, hu₁⟩ := standFor_cons_iff.1 hu
    obtain ⟨us, vs, rfl, hinside, hv⟩ := standFor_append_iff.1 hu₁
    obtain ⟨t', rfl, ht'⟩ := standFor_singleton_iff.1 hv
    rw [List.map_cons, List.map_append, List.map_singleton, (kind_eq_iff_of_plain ht ho).2 hs,
      (kind_eq_iff_of_plain ht' hc).2 hs']
    exact (ih hinside hi).wrap

theorem predicates_quiet {ps : List Expr} {us : List Token}
    (hu : StandFor us (predicateSymbols ps)) (last : Option Token) (rest : List Token) :
    Quiet last us rest := by
  induction ps generalizing us last with
  | nil =>
    rw [predicateSymbols] at hu
    rw [standFor_nil_iff.1 hu]
    exact .nil _ _
  | cons p ps ih =>
    rw [predicateSymbols] at hu
    obtain ⟨o, us, rfl, ho, hu₁⟩ := standFor_cons_iff.1 hu
    obtain ⟨us, vs, rfl, hp, hv⟩ := standFor_append_iff.1 hu₁
    obtain ⟨c, vs, rfl, hc, hps⟩ := standFor_cons_iff.1 hv
    have hpair : IsPair .openBracket .closeBracket := .inr ⟨rfl, rfl⟩
    have hq : Quiet last (o :: (us ++ [c])) (vs ++ rest) :=
      quiet_predicate ((kind_eq_iff_of_plain ho (by decide)).2 rfl)
        ((kind_eq_iff_of_plain hc (by decide)).2 rfl) (hp.nested hpair (p.nested hpair)) _ _
    have ha := hq.append (ih hps _)
    rwa [List.cons_append, List.append_assoc] at ha

theorem predicates_follow (ps : List Expr) :
    ∀ s ∈ (predicateSymbols ps).head?, s.kind ≠ .openParen ∧ s.kind ≠ .colon := by
  cases ps with
  | nil =>
    rw [predicateSymbols]
    exact nofun
  | cons p ps =>
    rw [predicateSymbols]
    intro s hs
    cases hs
    decide

theorem Axis.isPlainName_text (a : Axis) : IsPlainName a.text := by
  cases a <;> exact .inl rfl

theorem follows_of_plain {t : Token} {s : Symbol} (ht : t.symbol.plain = s.plain)
    (ho : s.kind ≠ .openParen) (hc : s.kind ≠ .colon) (rest : List Token) :
    Follows (t :: rest) :=
  follows_cons ((kind_eq_iff_of_plain ht (by decide)).not.2 ho)
    ((kind_eq_iff_of_plain ht (by decide)).not.2 hc) rest

theorem StandFor.follows {us rest : List Token} {ss : List Symbol} (hu : StandFor us ss)
    (h : ∀ s ∈ ss.head?, s.kind ≠ .openParen ∧ s.kind ≠ .colon) (hr : Follows rest) :
    Follows (us ++ rest) := by
  cases ss with
  | nil =>
    rw [standFor_nil_iff.1 hu]
    exact hr
  | cons s ss =>
    obtain ⟨t, vs, rfl, ht, -⟩ := standFor_cons_iff.1 hu
    exact follows_of_plain ht (h s rfl).1 (h s rfl).2 _

theorem Step.quiet {s : Step} {us : List Token} (hu : StandFor us s.symbols) {l : Token}
    (hl : startsPath l.kind = false) {rest : List Token} (hr : Follows rest) :
    Quiet (some l) us rest := by
  cases s with
  | here | up =>
    rw [Step.symbols] at hu
    obtain ⟨t, rfl, ht⟩ := standFor_singleton_iff.1 hu
    have hk := (kind_eq_iff_of_plain ht (by decide)).2 rfl
    refine quiet_within hl ?_ ?_ (contextCall?_of_not_name ?_ _ _) <;> rw [hk] <;> decide
  | along axis t predicates =>
    rw [Step.symbols, List.append_assoc] at hu
    obtain ⟨us, vs, rfl, ha, hv⟩ := standFor_append_iff.1 hu
    obtain ⟨vs, ws, rfl, ht, hps⟩ := standFor_append_iff.1 hv
    have hf : Follows (ws ++ rest) := hps.follows (predicates_follow predicates) hr
    have htest {l : Token} (hl : startsPath l.kind = false) : Quiet (some l) (vs ++ ws) rest :=
      (NodeTest.quiet ht hl hf).append (predicates_quiet hps _ _)
    cases axis with
    | implied =>
      rw [standFor_nil_iff.1 ha]
      exact htest hl
    | atSign =>
      obtain ⟨a, rfl, hs⟩ := standFor_singleton_iff.1 ha
      have hk : a.kind = .atSign := (kind_eq_iff_of_plain hs (by decide)).2 rfl
      refine .cons (quiet_within hl ?_ ?_ (contextCall?_of_not_name ?_ _ _)) (htest ?_) <;> rw [hk]
      · exact nofun
      · exact nofun
      · exact nofun
      · rfl
    | named a =>
      obtain ⟨n, us, rfl, hn, hs⟩ := standFor_cons_iff.1 ha
      obtain ⟨c, rfl, hc⟩ := standFor_singleton_iff.1 hs
      have hk : c.kind = .axisSep := (kind_eq_iff_of_plain hc (by decide)).2 rfl
      refine .cons (quiet_name hn hl (contextCall?_of_not_paren (fun v hv => ?_) _))
        (.cons (quiet_sign ?_ ?_ ?_ _ _) (htest ?_))
      · cases hv
        rw [hk]
        exact nofun
      all_goals rw [hk]
      · rfl
      · exact nofun
      · exact nofun
      · rfl

theorem steps_follow (s : Steps) :
    ∀ t ∈ s.symbols.head?, t.kind ≠ .openParen ∧ t.kind ≠ .colon := by
  cases s with
  | done =>
    rw [Steps.symbols]
    exact nofun
  | next sep step rest =>
    rw [Steps.symbols]
    intro t ht
    cases ht
    cases sep <;> decide

theorem Steps.quiet {s : Steps} {us : List Token} (hu : StandFor us s.symbols)
    (last : Option Token) {rest : List Token} (hr : Follows rest) : Quiet last us rest := by
  match s with
  | .done =>
    rw [Steps.symbols] at hu
    rw [standFor_nil_iff.1 hu]
    exact .nil _ _
  | .next sep step more =>
    rw [Steps.symbols] at hu
    refine quiet_cons hu ?_ ?_ ?_ ?_ last fun t vs hk hv => ?_
    · cases sep <;> rfl
    · cases sep <;> decide
    · cases sep <;> decide
    · cases sep <;> decide
    · obtain ⟨vs, ws, rfl, hs, hmore⟩ := standFor_append_iff.1 hv
      refine .append (Step.quiet hs ?_ (hmore.follows (steps_follow more) hr))
        (Steps.quiet hmore _ hr)
      rw [hk]
      cases sep <;> rfl

end TreeQuery.XPath
