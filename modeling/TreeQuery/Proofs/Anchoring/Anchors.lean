import TreeQuery.Proofs.Anchoring.Scan
import TreeQuery.Proofs.Anchoring.Tree
import TreeQuery.Proofs.Grammar.Star
import TreeQuery.Proofs.Rewriting.Anchor
import TreeQuery.Proofs.Rewriting.Seam

/-!
# Anchors of tokens

What the scans find among the tokens of a tree is what anchors need: with what they put in before
and after tokens, the tokens read as the anchored tree (`Expr.anchors`).
-/

namespace TreeQuery.XPath

/-! ## Where paths begin -/

theorem qualified?_cons_of_ne {t u : Token} (h : u.kind ≠ .colon) (ts : List Token) :
    qualified? (t :: u :: ts) = none := by
  cases hq : qualified? (t :: u :: ts) with
  | none => rfl
  | some r =>
    obtain ⟨p, l, rest⟩ := r
    obtain ⟨c, he, hi⟩ := qualified?_eq_some_iff.1 hq
    cases he
    exact absurd (isQualified_iff.1 hi).2.1 h

theorem callsFunction_of_not_name {t : Token} (h : t.kind ≠ .name) (ts : List Token) :
    callsFunction (t :: ts) = false := by
  rw [callsFunction, beq_false_of_ne h]
  rfl

/-- A name is not called if neither it nor what it is the prefix of stands before a parenthesis. -/
theorem callsFunction_eq_false {t : Token} {ts : List Token}
    (h : ∀ u ∈ ts.head?, u.kind ≠ .openParen)
    (hq : ∀ p l rest, qualified? (t :: ts) = some (p, l, rest) →
      ∀ u ∈ rest.head?, u.kind ≠ .openParen) : callsFunction (t :: ts) = false := by
  have hany {rest : List Token} (h : ∀ u ∈ rest.head?, u.kind ≠ .openParen) :
      rest.head?.any (·.kind == .openParen) = false := by
    cases rest with
    | nil => rfl
    | cons u rest => exact beq_false_of_ne (h u rfl)
  rw [callsFunction]
  split
  · next p l rest he => rw [hany (hq p l rest he), Bool.and_false]
  · rw [hany h, Bool.and_false]

theorem callsFunction_of_follows {t : Token} {ts : List Token} (h : Follows ts) :
    callsFunction (t :: ts) = false := by
  refine callsFunction_eq_false (fun u hu => (h u hu).1) fun p l rest hq => ?_
  obtain ⟨c, he, hi⟩ := qualified?_eq_some_iff.1 hq
  cases he
  exact absurd (isQualified_iff.1 hi).2.1 (h c rfl).2

theorem callsFunction_prefixed {t c l : Token} {ts : List Token} (hc : c.kind = .colon)
    (h : Follows ts) : callsFunction (t :: c :: l :: ts) = false := by
  refine callsFunction_eq_false (fun u hu => ?_) fun p l' rest hq => ?_
  · cases hu
    rw [hc]
    exact nofun
  · obtain ⟨c', he, -⟩ := qualified?_eq_some_iff.1 hq
    cases he
    exact fun u hu => (h u hu).1

/-- Tokens that begin with a step, which is no call. -/
def BeginsStep (us rest : List Token) : Prop :=
  ∃ t vs, us = t :: vs ∧ beginsStep t.kind = true ∧ callsFunction (t :: (vs ++ rest)) = false

theorem BeginsStep.append {us vs rest : List Token} (h : BeginsStep us (vs ++ rest)) :
    BeginsStep (us ++ vs) rest := by
  obtain ⟨t, us, rfl, ht, hc⟩ := h
  exact ⟨t, us ++ vs, rfl, ht, by rwa [List.append_assoc]⟩

theorem beginsStep_of_not_name {t : Token} (h : beginsStep t.kind = true) (hn : t.kind ≠ .name)
    (vs rest : List Token) : BeginsStep (t :: vs) rest :=
  ⟨t, vs, rfl, h, callsFunction_of_not_name hn _⟩

theorem beginsStep_prefixed {p : String} (h : IsPlainName p) {us : List Token} {s : Symbol}
    (hu : us.map Token.symbol = [nameSymbol p, sign .colon ":", s]) {rest : List Token}
    (hr : Follows rest) : BeginsStep us rest := by
  obtain ⟨t, us, rfl, ht, hu₁⟩ := List.map_eq_cons_iff.1 hu
  obtain ⟨c, us, rfl, hc, hu₂⟩ := List.map_eq_cons_iff.1 hu₁
  obtain ⟨l, rfl, -⟩ := List.map_eq_singleton_iff.1 hu₂
  exact ⟨t, _, rfl, beginsStep_nameSymbol h ht, callsFunction_prefixed (kind_of_symbol hc) hr⟩

theorem NodeTest.begins {t : NodeTest} (h : t.Formed) {us : List Token}
    (hu : us.map Token.symbol = t.symbols) {rest : List Token} (hr : Follows rest) :
    BeginsStep us rest := by
  have hnode {name : String} {inside : List Symbol}
      (hu : us.map Token.symbol = nodeTypeSymbols name inside) : BeginsStep us rest := by
    obtain ⟨t, us, rfl, ht, -⟩ := List.map_eq_cons_iff.1 hu
    have hk : t.kind = .nodeType := kind_of_symbol ht
    exact beginsStep_of_not_name (by rw [hk]; rfl) (by rw [hk]; exact nofun) _ _
  cases t with
  | node | text | comment => exact hnode hu
  | instruction target => cases target <;> exact hnode hu
  | any pfx =>
    cases pfx with
    | none =>
      obtain ⟨t, rfl, ht⟩ := List.map_eq_singleton_iff.1 hu
      have hk : t.kind = .star := kind_of_symbol ht
      exact beginsStep_of_not_name (by rw [hk]; rfl) (by rw [hk]; exact nofun) _ _
    | some p => exact beginsStep_prefixed h hu hr
  | name n =>
    rw [NodeTest.symbols, Name.symbols] at hu
    split at hu
    · obtain ⟨t, rfl, ht⟩ := List.map_eq_singleton_iff.1 hu
      exact ⟨t, [], rfl, beginsStep_nameSymbol h.2 ht, callsFunction_of_follows hr⟩
    · next p hp => exact beginsStep_prefixed (h.1 p hp) hu hr

theorem Step.begins {s : Step} (h : s.Formed) {us : List Token}
    (hu : us.map Token.symbol = s.symbols) {rest : List Token} (hr : Follows rest) :
    BeginsStep us rest := by
  cases s with
  | here | up =>
    rw [Step.symbols] at hu
    obtain ⟨t, rfl, ht⟩ := List.map_eq_singleton_iff.1 hu
    have hk := kind_of_symbol ht
    exact beginsStep_of_not_name (by rw [hk]; rfl) (by rw [hk]; exact nofun) _ _
  | along axis t predicates =>
    rw [Step.Formed] at h
    rw [Step.symbols] at hu
    obtain ⟨us, vs, rfl, hat, hv⟩ := List.map_eq_append_iff.1 hu
    obtain ⟨us, ws, rfl, ha, hw⟩ := List.map_eq_append_iff.1 hat
    refine .append ?_
    cases axis with
    | implied =>
      rw [List.map_eq_nil_iff.1 ha]
      exact NodeTest.begins h.1 hw (.append hv (predicates_follow predicates) hr)
    | atSign =>
      obtain ⟨a, rfl, hs⟩ := List.map_eq_singleton_iff.1 ha
      have hk : a.kind = .atSign := kind_of_symbol hs
      exact beginsStep_of_not_name (by rw [hk]; rfl) (by rw [hk]; exact nofun) _ _
    | named a =>
      obtain ⟨n, us, rfl, hn, hs⟩ := List.map_eq_cons_iff.1 ha
      obtain ⟨c, rfl, hc⟩ := List.map_eq_singleton_iff.1 hs
      have hk : c.kind = .axisSep := kind_of_symbol hc
      refine ⟨n, _, rfl, beginsStep_nameSymbol a.isPlainName_text hn, ?_⟩
      refine callsFunction_of_follows (follows_cons ?_ ?_ _) <;> rw [hk] <;> exact nofun

theorem callsFunction_paren {t o : Token} (ht : t.kind = .name) (ho : o.kind = .openParen)
    (ts : List Token) : callsFunction (t :: o :: ts) = true := by
  rw [callsFunction, qualified?_cons_of_ne (by rw [ho]; decide), ht]
  simp [ho]

theorem contextCall?_of_not_call {ts : List Token} (h : callsFunction ts = false)
    (last : Option Token) : contextCall? last ts = none := by
  cases hc : contextCall? last ts with
  | none => rfl
  | some c =>
    obtain ⟨n, p, vs, rfl, hcall⟩ := contextCall?_eq_some hc
    rw [callsFunction_paren hcall.name hcall.paren] at h
    cases h

theorem Starts.not_colon {last : Option Token} (h : Starts last) : ∀ l ∈ last, l.kind ≠ .colon := by
  intro l hl hk
  have := h l hl
  rw [hk] at this
  cases this

/-- Where an operand is expected, the scans find the path that the steps begin. -/
theorem scans_path {us rest : List Token} {last : Option Token} (h : Starts last)
    (hb : BeginsStep us rest)
    (hq : ∀ l : Token, l.kind = .slash → Quiet (some l) us rest) :
    Scans last us rest (us.head?.map Token.start).toList [] := by
  obtain ⟨t, us, rfl, ht, hc⟩ := hb
  have ho : t.kind ≠ .openBracket := by
    intro hk
    rw [hk] at ht
    cases ht
  have hcl : t.kind ≠ .closeBracket := by
    intro hk
    rw [hk] at ht
    cases ht
  have htoken := Scans.token ho hcl last (us ++ rest)
  rw [beginsPath_iff.2 ⟨ht, h, hc⟩, contextCall?_of_not_call hc] at htoken
  -- Only the first token can tell whether a path has begun before it.
  have hslash : Quiet (some ⟨.slash, [], 0⟩) [t] (us ++ rest) :=
    quiet_within rfl ho hcl (contextCall?_of_not_call hc _)
  obtain ⟨hp, hcalls⟩ := hq ⟨.slash, [], 0⟩ rfl
  have hrest : Quiet (some t) us rest := by
    rw [lastOf_cons] at hp hcalls
    exact ⟨hslash.paths.symm.trans hp, hslash.calls.symm.trans hcalls⟩
  exact htoken.append hrest

/-! ## What anchors make of tokens -/

/-- What some paths and calls put before a token. -/
def openedBy (paths : List Nat) (calls : List ContextCall) (t : Token) : List String :=
  (if t.start ∈ paths then ["/"] else []) ++
    calls.flatMap fun c =>
      if c.name = "lang" ∧ c.start = t.start then ["(", "false", "(", ")", "and"] else []

/-- What some calls put after a token. -/
def closedBy (calls : List ContextCall) (t : Token) : List String :=
  calls.flatMap fun c =>
    if c.name = "lang" then if c.after = t.stop then [")"] else []
    else if c.inside = t.stop then ["/"] else []

/-- A token with what is put before and after it. -/
def around (paths : List Nat) (calls : List ContextCall) (t : Token) : List String :=
  openedBy paths calls t ++ t.string :: closedBy calls t

/-- Tokens with what is put before and after them. -/
def made (paths : List Nat) (calls : List ContextCall) (us : List Token) : List String :=
  us.flatMap (around paths calls)

/-- The end of the token that a call puts something after. -/
def ContextCall.closing (c : ContextCall) : Nat := if c.name = "lang" then c.after else c.inside

/-- Paths and calls that have their places among some tokens. -/
structure Within (us : List Token) (paths : List Nat) (calls : List ContextCall) : Prop where
  paths : ∀ x ∈ paths, x ∈ us.map Token.start
  calls : ∀ c ∈ calls, c.start ∈ us.map Token.start ∧ c.closing ∈ us.map Token.stop

section Made

variable {us vs : List Token} {R R' : List Nat} {C C' : List ContextCall} {t : Token}

theorem Within.append (h : Within us R C) (h' : Within vs R' C') :
    Within (us ++ vs) (R ++ R') (C ++ C') where
  paths := by
    intro x hx
    rw [List.map_append, List.mem_append]
    exact (List.mem_append.1 hx).imp (h.paths x) (h'.paths x)
  calls := by
    intro c hc
    simp only [List.map_append, List.mem_append]
    rcases List.mem_append.1 hc with hc | hc
    · exact (h.calls c hc).imp .inl .inl
    · exact (h'.calls c hc).imp .inr .inr

theorem Within.mono (h : Within us R C) (hs : us ⊆ vs) : Within vs R C :=
  ⟨fun x hx => List.map_subset _ hs (h.paths x hx),
    fun c hc => (h.calls c hc).imp (List.map_subset _ hs ·) (List.map_subset _ hs ·)⟩

theorem Within.nil (us : List Token) : Within us [] [] := ⟨nofun, nofun⟩

/-- Paths and calls that put nothing before or after a token. -/
structure Elsewhere (t : Token) (paths : List Nat) (calls : List ContextCall) : Prop where
  paths : t.start ∉ paths
  calls : ∀ c ∈ calls, c.start ≠ t.start ∧ c.closing ≠ t.stop

theorem Elsewhere.opened (h : Elsewhere t R C) : openedBy R C t = [] := by
  rw [openedBy, if_neg h.paths, List.nil_append]
  exact List.flatMap_eq_nil_iff.2 fun c hc => if_neg fun hl => (h.calls c hc).1 hl.2

theorem Elsewhere.closed (h : Elsewhere t R C) : closedBy C t = [] := by
  refine List.flatMap_eq_nil_iff.2 fun c hc => ?_
  have hne := (h.calls c hc).2
  unfold ContextCall.closing at hne
  split
  · next hl => exact if_neg (by rwa [if_pos hl] at hne)
  · next hl => exact if_neg (by rwa [if_neg hl] at hne)

theorem around_append_left (h : Elsewhere t R' C') :
    around (R ++ R') (C ++ C') t = around R C t := by
  have hclosed := h.closed
  have hopened := h.opened
  rw [openedBy, if_neg h.paths, List.nil_append] at hopened
  rw [closedBy] at hclosed
  simp only [around, openedBy, closedBy, List.mem_append, h.paths, or_false,
    List.flatMap_append, hopened, hclosed, List.append_nil]

theorem around_append_right (h : Elsewhere t R C) :
    around (R ++ R') (C ++ C') t = around R' C' t := by
  have hclosed := h.closed
  have hopened := h.opened
  rw [openedBy, if_neg h.paths, List.nil_append] at hopened
  rw [closedBy] at hclosed
  simp only [around, openedBy, closedBy, List.mem_append, h.paths, false_or,
    List.flatMap_append, hopened, hclosed, List.nil_append]

theorem Within.elsewhere (h : Within us R C)
    (hu : ∀ u ∈ us, u.start ≠ t.start ∧ u.stop ≠ t.stop) : Elsewhere t R C where
  paths := by
    intro hx
    obtain ⟨u, hm, he⟩ := List.mem_map.1 (h.paths _ hx)
    exact (hu u hm).1 he
  calls := by
    intro c hc
    obtain ⟨hs, hc⟩ := h.calls c hc
    obtain ⟨u, hm, hs⟩ := List.mem_map.1 hs
    obtain ⟨v, hv, hc⟩ := List.mem_map.1 hc
    rw [← hs, ← hc]
    exact ⟨(hu u hm).1, (hu v hv).2⟩

theorem Ordered.apart (h : Ordered (us ++ vs)) {u v : Token} (hu : u ∈ us) (hv : v ∈ vs) :
    u.start < v.start ∧ u.stop < v.stop := by
  have hle := (List.pairwise_append.1 h.sorted).2.2 u hu v hv
  have hpu := h.proper u (List.mem_append_left _ hu)
  have hpv := h.proper v (List.mem_append_right _ hv)
  omega

theorem Ordered.apart_cons (h : Ordered (t :: us)) {u : Token} (hu : u ∈ us) :
    t.start < u.start ∧ t.stop < u.stop := by
  rw [← List.singleton_append] at h
  exact h.apart List.mem_cons_self hu

theorem made_append (ho : Ordered (us ++ vs)) (h : Within us R C) (h' : Within vs R' C') :
    made (R ++ R') (C ++ C') (us ++ vs) = made R C us ++ made R' C' vs := by
  rw [made, List.flatMap_append]
  congr 1
  · refine List.flatMap_congr fun t ht => around_append_left (h'.elsewhere fun v hv => ?_)
    have := ho.apart ht hv
    omega
  · refine List.flatMap_congr fun t ht => around_append_right (h.elsewhere fun u hu => ?_)
    have := ho.apart hu ht
    omega

theorem made_nil (us : List Token) : made [] [] us = us.map Token.string := by
  rw [made, List.map_eq_flatMap]
  rfl

end Made

/-! ## What tokens are read as -/

/-- The symbol that a text is read as, regardless of whether a `*` multiplies. -/
def plainOf (s : String) : Symbol :=
  let kind := ((lexeme? s.toList).map (·.1)).getD .name
  ⟨kind, if kind = .literal then (s.toList.drop 1).dropLast else s.toList⟩

theorem plainOf_string {t : Token} (h : t.IsLexeme) : plainOf t.string = t.symbol.plain := by
  obtain ⟨last, k, hk, ht⟩ := h
  obtain ⟨kind, text, start⟩ := t
  obtain rfl : kind = resolveStar last k := hk
  have hs : (Token.mk (resolveStar last k) text start).string.toList = text := String.toList_ofList
  rw [ht.plain_symbol, plainOf, hs, ht.reads]
  rfl

/-- Tokens that are read one after the other. -/
structure Sound (us : List Token) : Prop where
  ordered : Ordered us
  lexemes : ∀ t ∈ us, t.IsLexeme
  glued : Glued us

theorem Sound.of_append {us vs : List Token} (h : Sound (us ++ vs)) : Sound us ∧ Sound vs := by
  obtain ⟨ho, hl, hg⟩ := h
  obtain ⟨hs₁, hs₂, -⟩ := List.pairwise_append.1 ho.sorted
  obtain ⟨hp₁, hp₂⟩ := List.forall_mem_append.1 ho.proper
  obtain ⟨hl₁, hl₂⟩ := List.forall_mem_append.1 hl
  obtain ⟨hg₁, hg₂, -⟩ := List.isChain_append.1 hg
  exact ⟨⟨⟨hs₁, hp₁⟩, hl₁, hg₁⟩, ⟨⟨hs₂, hp₂⟩, hl₂, hg₂⟩⟩

theorem Sound.of_cons {t : Token} {us : List Token} (h : Sound (t :: us)) :
    Sound [t] ∧ Sound us := by
  rw [← List.singleton_append] at h
  exact h.of_append

/-- The scans find among some tokens what makes them read as some symbols. -/
structure Anchors (last : Option Token) (us rest : List Token) (ss : List Symbol)
    (paths : List Nat) (calls : List ContextCall) : Prop where
  scans : Scans last us rest paths calls
  within : Within us paths calls
  reads : (made paths calls us).map plainOf = ss.map Symbol.plain

/-- Tokens that scans and anchors make read as some symbols. -/
def Anchored (last : Option Token) (us rest : List Token) (ss : List Symbol) : Prop :=
  ∃ paths calls, Anchors last us rest ss paths calls

theorem Anchored.append {last : Option Token} {us vs rest : List Token} {ss ss' : List Symbol}
    (h : Anchored last us (vs ++ rest) ss) (ho : Sound (us ++ vs))
    (h' : Anchored (lastOf last us) vs rest ss') : Anchored last (us ++ vs) rest (ss ++ ss') := by
  obtain ⟨R, C, h⟩ := h
  obtain ⟨R', C', h'⟩ := h'
  refine ⟨R ++ R', C ++ C', h.scans.append h'.scans, h.within.append h'.within, ?_⟩
  rw [made_append ho.ordered h.within h'.within, List.map_append, List.map_append, h.reads,
    h'.reads]

theorem map_plainOf {us : List Token} {ss : List Symbol} (h : Sound us)
    (hu : us.map Token.symbol = ss) : (us.map Token.string).map plainOf = ss.map Symbol.plain := by
  rw [← hu, List.map_map, List.map_map]
  exact List.map_congr_left fun t ht => plainOf_string (h.lexemes t ht)

theorem Quiet.anchored {last : Option Token} {us rest : List Token} {ss : List Symbol}
    (h : Quiet last us rest) (hs : Sound us) (hu : us.map Token.symbol = ss) :
    Anchored last us rest ss := by
  refine ⟨[], [], h, .nil us, ?_⟩
  rw [made_nil]
  exact map_plainOf hs hu

theorem sign_anchored {t : Token} {s : Symbol} (hs : Sound [t]) (ht : t.symbol = s)
    (h : beginsStep s.kind = false) (ho : s.kind ≠ .openBracket) (hc : s.kind ≠ .closeBracket)
    (last : Option Token) (rest : List Token) : Anchored last [t] rest [s] :=
  (quiet_symbol ht h ho hc last rest).anchored hs (congrArg (· :: []) ht)

theorem Anchored.cons {t : Token} {us rest : List Token} {s : Symbol} {ss : List Symbol}
    {last : Option Token} (hs : Sound (t :: us)) (ht : t.symbol = s)
    (h : beginsStep s.kind = false) (ho : s.kind ≠ .openBracket) (hc : s.kind ≠ .closeBracket)
    (ha : Sound us → Anchored (some t) us rest ss) : Anchored last (t :: us) rest (s :: ss) := by
  have hsign : Anchored last [t] (us ++ rest) [s] := sign_anchored hs.of_cons.1 ht h ho hc _ _
  exact hsign.append hs (ha hs.of_cons.2)

/-! ## Names of functions -/

theorem Name.IsFunction.quiet {p l : String} (h : Name.IsFunction ⟨some p, l⟩) {us : List Token}
    (hu : us.map Token.symbol = Name.symbols ⟨some p, l⟩) (hs : Sound us)
    (last : Option Token) {o : Token} (ho : o.kind = .openParen) (rest : List Token) :
    Quiet last us (o :: rest) := by
  obtain ⟨t, us, rfl, ht, hu₁⟩ := List.map_eq_cons_iff.1 hu
  obtain ⟨c, us, rfl, hc, hu₂⟩ := List.map_eq_cons_iff.1 hu₁
  obtain ⟨u, rfl, hn⟩ := List.map_eq_singleton_iff.1 hu₂
  have htk : t.kind = .name := (kind_of_symbol ht).trans h.1
  have hck : c.kind = .colon := kind_of_symbol hc
  have hglued : t.stop = c.start ∧ c.stop = u.start := by
    simpa [Glued, hck] using hs.glued
  have hq : qualified? (t :: c :: u :: o :: rest) = some (t, u, o :: rest) := by
    refine qualified?_eq_some_iff.2 ⟨c, rfl, isQualified_iff.2 ⟨?_, hck, .inl ?_, hglued⟩⟩
    · rw [Token.isName_eq, htk]
      rfl
    · rw [Token.isName_eq, kind_of_symbol hn]
      exact nameKind_isName l.toList
  have hcalls : callsFunction (t :: c :: u :: o :: rest) = true := by
    rw [callsFunction, hq, htk]
    simp [ho]
  have hbegins : beginsPath last t (c :: u :: o :: rest) = false := by
    rw [beginsPath, hcalls]
    simp
  have hnone : contextCall? last (t :: c :: u :: o :: rest) = none := by
    refine contextCall?_of_not_paren (fun v hv => ?_) last
    cases hv
    rw [hck]
    exact nofun
  have htoken := Scans.token (t := t) (by rw [htk]; exact nofun) (by rw [htk]; exact nofun) last
    (c :: u :: o :: rest)
  rw [hbegins, hnone] at htoken
  have hlocal : Quiet (some c) [u] (o :: rest) :=
    quiet_name (congrArg Symbol.plain hn) (by rw [hck]; rfl) (contextCall?_of_colon hck _)
  exact .cons htoken (.cons (quiet_symbol hc rfl nofun nofun _ _) hlocal)

/-- A context call stands where a call of certain functions does. -/
theorem contextCall?_call {last : Option Token} {t o c : Token} {us : List Token}
    (rest : List Token) (ht : t.kind = .name) (ho : o.kind = .openParen) (hc : c.kind = .closeParen)
    (hn : Nested .openParen .closeParen (us.map Token.kind)) (hl : ∀ l ∈ last, l.kind ≠ .colon) :
    contextCall? last (t :: o :: (us ++ c :: rest)) =
      if t.string = "lang" ∨ t.string ∈ contextFunctions ∧ us = [] then
        some ⟨t.string, t.start, o.stop, c.stop⟩
      else none := by
  have hlast : last.any (·.kind == .colon) = false := by
    rw [Option.any_eq_false]
    exact fun l h => beq_false_of_ne (hl l h)
  have hclose : closing? 0 (us ++ c :: rest) = some c := by
    rw [closing?_nested hn, closing?_cons_found hc]
  have hbare : ((us ++ c :: rest).head?.any (·.kind == .closeParen)) = us.isEmpty := by
    cases us with
    | nil => simp [hc]
    | cons u us =>
      have := hn.head?_ne nofun
      simpa using this
  rw [contextCall?, ht, ho, hlast, hclose, hbare]
  simp

/-! ## Calls -/

section Calls

variable {last : Option Token} {t o c : Token} {us rest : List Token} {R : List Nat}
  {C : List ContextCall}

/-- Around a call of `lang` stands a conjunction. -/
theorem made_lang (ho : Ordered (t :: (us ++ [c]))) (hw : Within us R C) (call : ContextCall)
    (hn : call.name = "lang") (hs : call.start = t.start) (ha : call.after = c.stop) :
    made R (call :: C) (t :: (us ++ [c])) =
      ["(", "false", "(", ")", "and"] ++ (t.string :: (made R C us ++ [c.string, ")"])) := by
  have hclosing : call.closing = c.stop := by rw [ContextCall.closing, if_pos hn, ha]
  have htail : ∀ u ∈ us ++ [c], u.start ≠ t.start ∧ u.stop ≠ t.stop := fun u hu => by
    have := ho.apart_cons hu
    omega
  obtain ⟨htu, htc⟩ := List.forall_mem_append.1 htail
  obtain ⟨htc, htc'⟩ := htc c List.mem_cons_self
  have huc : ∀ u ∈ us, u.start ≠ c.start ∧ u.stop ≠ c.stop := fun u hu => by
    have := ho.of_cons.apart (u := u) (v := c) hu (by simp)
    omega
  have hfirst : around R (call :: C) t = ["(", "false", "(", ")", "and"] ++ [t.string] := by
    have h : around ([] ++ R) ([call] ++ C) t = around [] [call] t :=
      around_append_left (hw.elsewhere htu)
    refine h.trans ?_
    simp [around, openedBy, closedBy, hn, hs, ha, htc']
  have hinside : us.flatMap (around R (call :: C)) = made R C us := by
    refine List.flatMap_congr fun u hu => ?_
    have h : around ([] ++ R) ([call] ++ C) u = around R C u := by
      refine around_append_right ⟨nofun, fun call' hc => ?_⟩
      rw [List.mem_singleton.1 hc, hs, hclosing]
      exact ⟨(htu u hu).1.symm, (huc u hu).2.symm⟩
    exact h
  have hlast : around R (call :: C) c = [c.string, ")"] := by
    have h : around ([] ++ R) ([call] ++ C) c = around [] [call] c :=
      around_append_left (hw.elsewhere huc)
    refine h.trans ?_
    simp [around, openedBy, closedBy, hn, hs, ha, htc.symm]
  rw [made, List.flatMap_cons, List.flatMap_append, List.flatMap_singleton, hfirst, hinside, hlast]
  simp

/-- A function that looks at the context node is given the root. -/
theorem made_context (ho : Ordered [t, o, c]) (call : ContextCall) (hn : call.name ≠ "lang")
    (hi : call.inside = o.stop) :
    made [] [call] [t, o, c] = [t.string, o.string, "/", c.string] := by
  have hto : o.stop ≠ t.stop := by
    have := (ho.apart_cons (u := o) List.mem_cons_self).2
    omega
  have hoc : o.stop ≠ c.stop := by
    have := (ho.of_cons.apart_cons (u := c) List.mem_cons_self).2
    omega
  simp [made, around, openedBy, closedBy, hn, hi, hto, hoc]

/-- A call that scans do not find, with what is made of its arguments. -/
theorem quiet_call {ns : List Token} {ss args : List Symbol}
    (hs : Sound (ns ++ o :: (us ++ [c]))) (hn : ns.map Token.symbol = ss)
    (hq : Quiet last ns (o :: (us ++ [c]) ++ rest)) (ho : o.symbol = sign .openParen "(")
    (hc : c.symbol = sign .closeParen ")") (ha : Anchored (some o) us (c :: rest) args) :
    Anchored last (ns ++ o :: (us ++ [c])) rest
      (ss ++ sign .openParen "(" :: (args ++ [sign .closeParen ")"])) := by
  refine (hq.anchored hs.of_append.1 hn).append hs ?_
  refine .cons hs.of_append.2 ho rfl nofun nofun fun hs => ?_
  exact ha.append hs (sign_anchored hs.of_append.2 hc rfl nofun nofun _ _)

theorem Step.symbols_ne_nil (s : Step) : s.symbols ≠ [] := by
  cases s with
  | here | up =>
    rw [Step.symbols]
    exact List.cons_ne_nil _ _
  | along axis t predicates =>
    have ht : t.symbols ≠ [] := by
      cases t with
      | node | text | comment => exact List.cons_ne_nil _ _
      | instruction target => cases target <;> exact List.cons_ne_nil _ _
      | any pfx => cases pfx <;> exact List.cons_ne_nil _ _
      | name n =>
        rw [NodeTest.symbols, Name.symbols]
        split <;> exact List.cons_ne_nil _ _
    rw [Step.symbols]
    exact List.append_ne_nil_of_left_ne_nil (List.append_ne_nil_of_right_ne_nil _ ht) _

theorem Expr.symbols_ne_nil (e : Expr) : e.symbols ≠ [] := by
  match e with
  | .binary .. | .call .. | .filter .. =>
    rw [Expr.symbols]
    exact List.append_ne_nil_of_right_ne_nil _ (List.cons_ne_nil _ _)
  | .negate _ | .group _ | .literal _ | .number _ | .variable _ =>
    rw [Expr.symbols]
    exact List.cons_ne_nil _ _
  | .relative first rest =>
    rw [Expr.symbols]
    exact List.append_ne_nil_of_left_ne_nil first.symbols_ne_nil _
  | .absolute .done =>
    rw [Expr.symbols]
    exact List.cons_ne_nil _ _
  | .absolute (.next ..) =>
    rw [Expr.symbols, Steps.symbols]
    · exact List.cons_ne_nil _ _
    · rintro ⟨⟩
  | .through e steps =>
    rw [Expr.symbols]
    exact List.append_ne_nil_of_left_ne_nil e.symbols_ne_nil _

theorem argumentSymbols_eq_nil_iff {es : List Expr} : argumentSymbols es = [] ↔ es = [] := by
  rcases es with _ | ⟨e, _ | ⟨e', es⟩⟩
  · simp [argumentSymbols]
  · simp [argumentSymbols, e.symbols_ne_nil]
  · simp [argumentSymbols, e.symbols_ne_nil]

theorem string_of_symbol {n : String} (ht : t.symbol = nameSymbol n) (hk : t.kind = .name) :
    t.string = n := by
  have htext : t.symbol.text = t.text := if_neg (by rw [hk]; exact nofun)
  rw [ht] at htext
  rw [Token.string, ← htext]
  exact String.ofList_toList

theorem scans_function (rest : List Token) (ht : t.kind = .name) (ho : o.kind = .openParen)
    (hc : c.kind = .closeParen) (hn : Nested .openParen .closeParen (us.map Token.kind))
    (hl : Starts last) : Scans last [t] (o :: (us ++ [c]) ++ rest) []
      (if t.string = "lang" ∨ t.string ∈ contextFunctions ∧ us = [] then
        some (ContextCall.mk t.string t.start o.stop c.stop) else none).toList := by
  have hs := Scans.token (t := t) (by rw [ht]; exact nofun) (by rw [ht]; exact nofun) last
    (o :: (us ++ [c]) ++ rest)
  have hb : beginsPath last t (o :: (us ++ [c]) ++ rest) = false := by
    rw [List.cons_append, beginsPath, callsFunction_paren ht ho, Bool.not_true, Bool.and_false]
  have hcall := contextCall?_call rest ht ho hc hn hl.not_colon
  have he : o :: (us ++ [c]) ++ rest = o :: (us ++ c :: rest) := by
    rw [List.cons_append, List.append_assoc, List.singleton_append]
  rw [hb, he, hcall] at hs
  rw [he]
  exact hs

theorem lang_anchored {args : List Symbol} (hs : Sound (t :: o :: (us ++ [c])))
    (ht : t.symbol = nameSymbol "lang") (ho : o.symbol = sign .openParen "(")
    (hc : c.symbol = sign .closeParen ")") (hl : Starts last)
    (hn : Nested .openParen .closeParen (us.map Token.kind))
    (ha : Anchored (some o) us (c :: rest) args) :
    Anchored last (t :: o :: (us ++ [c])) rest
      ([sign .openParen "(", nameSymbol "false", sign .openParen "(", sign .closeParen ")",
        sign .and "and"] ++ nameSymbol "lang" :: sign .openParen "(" ::
          (args ++ [sign .closeParen ")", sign .closeParen ")"])) := by
  obtain ⟨R, C, ha⟩ := ha
  have htk : t.kind = .name := kind_of_symbol ht
  have hname : t.string = "lang" := string_of_symbol ht htk
  have hfunction := scans_function rest htk (kind_of_symbol ho) (kind_of_symbol hc) hn hl
  rw [if_pos (.inl hname)] at hfunction
  have hopen : Quiet (some t) [o] (us ++ [c] ++ rest) := quiet_symbol ho rfl nofun nofun _ _
  have hclose : Quiet (lastOf (some o) us) [c] rest := quiet_symbol hc rfl nofun nofun _ _
  have hscans := hfunction.append (Scans.append hopen (ha.scans.append hclose))
  have ho₁ : Ordered ([o] ++ us) :=
    (List.cons_append ▸ hs.of_cons.2 : Sound (o :: us ++ [c])).of_append.1.ordered
  have hwithin : Within (o :: us) R C := (Within.nil [o]).append ha.within
  have hinside : made R C (o :: us) = o.string :: made R C us :=
    made_append ho₁ (.nil [o]) ha.within
  have hplain {u : Token} (hu : u ∈ t :: o :: (us ++ [c])) :
      plainOf u.string = u.symbol.plain := plainOf_string (hs.lexemes u hu)
  obtain ⟨call, hcall⟩ : ∃ call, call = ContextCall.mk t.string t.start o.stop c.stop := ⟨_, rfl⟩
  rw [← hcall] at hscans
  have hlang : call.name = "lang" := by rw [hcall, hname]
  have hmade := made_lang (List.cons_append ▸ hs.ordered) hwithin call hlang
    (by rw [hcall]) (by rw [hcall])
  refine ⟨R, call :: C, by simpa using hscans, ?_, ?_⟩
  · have hmono : Within (t :: (o :: us ++ [c])) R C :=
      hwithin.mono fun u hu => List.mem_cons_of_mem _ (List.mem_append_left _ hu)
    refine ⟨hmono.paths, List.forall_mem_cons.2 ⟨?_, hmono.calls⟩⟩
    rw [ContextCall.closing, if_pos hlang, hcall]
    simp
  · show (made R (call :: C) (t :: (o :: us ++ [c]))).map plainOf = _
    have htp : plainOf t.string = (nameSymbol "lang").plain := by rw [hplain (by simp), ht]
    have hop : plainOf o.string = (sign .openParen "(").plain := by rw [hplain (by simp), ho]
    have hcp : plainOf c.string = (sign .closeParen ")").plain := by rw [hplain (by simp), hc]
    have hand : ["(", "false", "(", ")", "and"].map plainOf =
        [sign .openParen "(", nameSymbol "false", sign .openParen "(", sign .closeParen ")",
          sign .and "and"].map Symbol.plain := by decide
    have hclosed : plainOf ")" = (sign .closeParen ")").plain := by decide
    rw [hmade, hinside, List.map_append, hand, List.map_append]
    simp [htp, hop, hcp, hclosed, ha.reads]

theorem context_anchored {n : String} (hn : n ∈ contextFunctions) (hs : Sound [t, o, c])
    (hf : Name.IsFunction ⟨none, n⟩) (ht : t.symbol = nameSymbol n)
    (ho : o.symbol = sign .openParen "(") (hc : c.symbol = sign .closeParen ")")
    (hl : Starts last) : Anchored last [t, o, c] rest
      [nameSymbol n, sign .openParen "(", sign .slash "/", sign .closeParen ")"] := by
  have htk : t.kind = .name := (kind_of_symbol ht).trans hf
  have hname : t.string = n := string_of_symbol ht htk
  have hnil : Nested .openParen .closeParen (([] : List Token).map Token.kind) := .nil
  have hfunction := scans_function rest htk (kind_of_symbol ho) (kind_of_symbol hc) hnil hl
  rw [if_pos (.inr ⟨hname ▸ hn, rfl⟩)] at hfunction
  have hopen : Quiet (some t) [o] ([c] ++ rest) := quiet_symbol ho rfl nofun nofun _ _
  have hclose : Quiet (some o) [c] rest := quiet_symbol hc rfl nofun nofun _ _
  have hscans := hfunction.append (Scans.append hopen hclose)
  have hlang : t.string ≠ "lang" := by
    intro he
    rw [← hname, he] at hn
    exact absurd hn (by decide)
  have hmade := made_context hs.ordered ⟨t.string, t.start, o.stop, c.stop⟩ hlang rfl
  have hplain {u : Token} (hu : u ∈ [t, o, c]) : plainOf u.string = u.symbol.plain :=
    plainOf_string (hs.lexemes u hu)
  refine ⟨[], [_], hscans, ⟨nofun, fun call hcall => ?_⟩, ?_⟩
  · rw [List.mem_singleton.1 hcall, ContextCall.closing, if_neg hlang]
    simp
  · have htp : plainOf t.string = (nameSymbol n).plain := by rw [hplain (by simp), ht]
    have hop : plainOf o.string = (sign .openParen "(").plain := by rw [hplain (by simp), ho]
    have hcp : plainOf c.string = (sign .closeParen ")").plain := by rw [hplain (by simp), hc]
    have hslash : plainOf "/" = (sign .slash "/").plain := by decide
    rw [hmade]
    simp only [List.map_cons, List.map_nil, htp, hop, hcp, hslash]

theorem call_anchored {n : String} {args : List Expr} (hf : Name.IsFunction ⟨none, n⟩)
    (hs : Sound (t :: o :: (us ++ [c]))) (ht : t.symbol = nameSymbol n)
    (ho : o.symbol = sign .openParen "(") (hc : c.symbol = sign .closeParen ")")
    (hu : us.map Token.symbol = argumentSymbols args) (hl : Starts last)
    (ha : Anchored (some o) us (c :: rest) (argumentSymbols (anchoredAll args))) :
    Anchored last (t :: o :: (us ++ [c])) rest
      (anchoredCall ⟨none, n⟩ (anchoredAll args)).symbols := by
  have htk : t.kind = .name := (kind_of_symbol ht).trans hf
  have hname : t.string = n := string_of_symbol ht htk
  have hn : Nested .openParen .closeParen (us.map Token.kind) := by
    rw [map_kind_of_symbols hu]
    exact arguments_nested (.inl ⟨rfl, rfl⟩) args
  have hempty : us = [] ↔ args.isEmpty = true := by
    rw [List.isEmpty_iff, ← argumentSymbols_eq_nil_iff, ← hu, List.map_eq_nil_iff]
  unfold anchoredCall
  split
  · next hlang =>
    cases hlang
    have h := lang_anchored hs ht ho hc hl hn ha
    rw [Expr.symbols, Expr.symbols, falsehood, Expr.symbols, Expr.symbols, argumentSymbols]
    simpa [Name.symbols, Operator.symbol] using h
  · next hlang =>
    split
    · next hcontext =>
      simp only [looksAtContext, Bool.and_eq_true, List.contains_iff_mem, isEmpty_anchoredAll,
        ← hempty] at hcontext
      obtain ⟨⟨-, hcontext⟩, rfl⟩ := hcontext
      rw [Expr.symbols, argumentSymbols, rootPath, Expr.symbols]
      exact context_anchored hcontext hs hf ht ho hc hl
    · next hcontext =>
      have hfunction := scans_function rest htk (kind_of_symbol ho) (kind_of_symbol hc)
        hn hl
      rw [if_neg] at hfunction
      · rw [Expr.symbols]
        have hname : [t].map Token.symbol = Name.symbols ⟨none, n⟩ := congrArg (· :: []) ht
        exact quiet_call hs hname hfunction ho hc ha
      · rintro (he | ⟨he, hus⟩)
        · exact hlang (by rw [← hname, he])
        · refine hcontext ?_
          simp only [looksAtContext, Bool.and_eq_true, List.contains_iff_mem,
            isEmpty_anchoredAll, ← hempty]
          exact ⟨⟨rfl, hname ▸ he⟩, hus⟩

end Calls

/-! ## Expressions -/

theorem Steps.anchored {s : Steps} {us : List Token} (hu : us.map Token.symbol = s.symbols)
    (hs : Sound us) (last : Option Token) {rest : List Token} (hr : Follows rest) :
    Anchored last us rest s.symbols :=
  (Steps.quiet (standFor_of_symbols hu) last hr).anchored hs hu

/-- A relative path starts from the root. -/
theorem relative_anchored {first : Step} {steps : Steps} (hf : first.Formed)
    {us : List Token} (hu : us.map Token.symbol = first.symbols ++ steps.symbols) (hs : Sound us)
    {last : Option Token} (hl : Starts last) {rest : List Token} (hr : Follows rest) :
    Anchored last us rest (sign .slash "/" :: (first.symbols ++ steps.symbols)) := by
  obtain ⟨us, vs, rfl, hfirst, hsteps⟩ := List.map_eq_append_iff.1 hu
  have hfollows : Follows (vs ++ rest) := .append hsteps (steps_follow steps) hr
  have hbegins : BeginsStep (us ++ vs) rest := (Step.begins hf hfirst hfollows).append
  have hscans := scans_path hl hbegins fun l hk =>
    (Step.quiet (standFor_of_symbols hfirst) (by rw [hk]; rfl) hfollows).append
      (Steps.quiet (standFor_of_symbols hsteps) _ hr)
  obtain ⟨t, ws, hws, -⟩ := hbegins
  rw [hws] at hscans hs hu ⊢
  refine ⟨_, _, hscans, ⟨fun x hx => ?_, nofun⟩, ?_⟩
  · cases List.mem_singleton.1 hx
    exact List.mem_cons_self
  · have hfirst : around [t.start] [] t = ["/", t.string] := by
      simp [around, openedBy, closedBy]
    have hinside : made [t.start] [] ws = ws.map Token.string := by
      rw [← made_nil]
      refine List.flatMap_congr fun w hw => ?_
      have hne := Nat.ne_of_gt (hs.ordered.start_lt hw)
      simp [around, openedBy, hne]
    have hslash : plainOf "/" = (sign .slash "/").plain := by decide
    show (made [t.start] [] (t :: ws)).map plainOf = _
    rw [made, List.flatMap_cons, hfirst]
    show (["/", t.string] ++ made [t.start] [] ws).map plainOf = _
    rw [hinside, List.map_cons, ← map_plainOf hs hu, List.map_append, List.map_cons, hslash]
    rfl

theorem starts_some {t : Token} {s : Symbol} (ht : t.symbol = s) (h : startsPath s.kind = true) :
    Starts (some t) := by
  intro l hl
  cases hl
  rwa [kind_of_symbol ht]

theorem follows_symbol {t : Token} {s : Symbol} (ht : t.symbol = s) (h : s.kind ≠ .openParen)
    (h' : s.kind ≠ .colon) (rest : List Token) : Follows (t :: rest) := by
  rw [← kind_of_symbol ht] at h h'
  exact follows_cons h h' rest

theorem Operator.sign (op : Operator) : beginsStep op.symbol.kind = false ∧
    op.symbol.kind ≠ .openBracket ∧ op.symbol.kind ≠ .closeBracket ∧
      op.symbol.kind ≠ .openParen ∧ op.symbol.kind ≠ .colon ∧
        startsPath op.symbol.kind = true := by
  cases op <;> decide

theorem sign_numeralKind (s : String) : beginsStep (numeralKind s) = false ∧
    numeralKind s ≠ .openBracket ∧ numeralKind s ≠ .closeBracket := by
  unfold numeralKind
  split <;> decide

mutual

/-- With what anchors put in, the tokens of an expression read as the anchored expression. -/
theorem Expr.anchors (e : Expr) (h : e.Formed) {us : List Token}
    (hu : us.map Token.symbol = e.symbols) (hs : Sound us) {last : Option Token}
    (hl : Starts last) {rest : List Token} (hr : Follows rest) :
    Anchored last us rest e.anchored.symbols := by
  match e with
  | .binary op a b =>
    rw [Expr.Formed] at h
    rw [Expr.symbols] at hu
    rw [Expr.anchored, Expr.symbols]
    obtain ⟨us, vs, rfl, ha, hv⟩ := List.map_eq_append_iff.1 hu
    obtain ⟨o, vs, rfl, ho, hb⟩ := List.map_eq_cons_iff.1 hv
    obtain ⟨hsign, hob, hcb, hop, hcolon, hstarts⟩ := op.sign
    refine (a.anchors h.1 ha hs.of_append.1 hl (follows_symbol ho hop hcolon _)).append hs ?_
    refine .cons hs.of_append.2 ho hsign hob hcb fun hs => ?_
    exact b.anchors h.2.1 hb hs (starts_some ho hstarts) hr
  | .negate e =>
    rw [Expr.Formed] at h
    rw [Expr.symbols] at hu
    rw [Expr.anchored, Expr.symbols]
    obtain ⟨o, us, rfl, ho, he⟩ := List.map_eq_cons_iff.1 hu
    refine .cons hs ho rfl nofun nofun fun hs => ?_
    exact e.anchors h.1 he hs (starts_some ho rfl) hr
  | .group e =>
    rw [Expr.Formed] at h
    rw [Expr.symbols] at hu
    rw [Expr.anchored, Expr.symbols]
    obtain ⟨o, us, rfl, ho, hu₁⟩ := List.map_eq_cons_iff.1 hu
    obtain ⟨us, vs, rfl, he, hv⟩ := List.map_eq_append_iff.1 hu₁
    obtain ⟨c, rfl, hc⟩ := List.map_eq_singleton_iff.1 hv
    refine .cons hs ho rfl nofun nofun fun hs => ?_
    refine (e.anchors h he hs.of_append.1 (starts_some ho rfl)
      (follows_symbol hc nofun nofun _)).append hs ?_
    exact sign_anchored hs.of_append.2 hc rfl nofun nofun _ _
  | .literal s =>
    rw [Expr.symbols] at hu
    rw [Expr.anchored, Expr.symbols]
    obtain ⟨t, rfl, ht⟩ := List.map_eq_singleton_iff.1 hu
    exact sign_anchored hs ht rfl nofun nofun _ _
  | .number s =>
    rw [Expr.symbols] at hu
    rw [Expr.anchored, Expr.symbols]
    obtain ⟨t, rfl, ht⟩ := List.map_eq_singleton_iff.1 hu
    obtain ⟨hsign, ho, hc⟩ := sign_numeralKind s
    exact sign_anchored hs ht hsign ho hc _ _
  | .variable n =>
    rw [Expr.Formed] at h
    rw [Expr.symbols] at hu
    rw [Expr.anchored, Expr.symbols]
    obtain ⟨d, us, rfl, hd, hn⟩ := List.map_eq_cons_iff.1 hu
    refine .cons hs hd rfl nofun nofun fun hs => ?_
    refine (Name.quiet (standFor_of_symbols hn) ?_ hr).anchored hs hn
    rw [kind_of_symbol hd]
    rfl
  | .call n args =>
    rw [Expr.Formed] at h
    rw [Expr.symbols] at hu
    rw [Expr.anchored]
    obtain ⟨ns, vs, rfl, hn, hv⟩ := List.map_eq_append_iff.1 hu
    obtain ⟨o, vs, rfl, ho, hv₁⟩ := List.map_eq_cons_iff.1 hv
    obtain ⟨us, vs, rfl, hargs, hv₂⟩ := List.map_eq_append_iff.1 hv₁
    obtain ⟨c, rfl, hc⟩ := List.map_eq_singleton_iff.1 hv₂
    have hs₁ := hs.of_append.2.of_cons.2
    have ha := arguments_anchors args h.2 hargs hs₁.of_append.1 (starts_some ho rfl)
      (follows_symbol hc nofun nofun rest)
    obtain ⟨pfx, n⟩ := n
    cases pfx with
    | none =>
      obtain ⟨t, rfl, ht⟩ := List.map_eq_singleton_iff.1 hn
      exact call_anchored h.1 hs ht ho hc hargs hl ha
    | some p =>
      have hcall : anchoredCall ⟨some p, n⟩ (anchoredAll args) =
          .call ⟨some p, n⟩ (anchoredAll args) := rfl
      rw [hcall, Expr.symbols]
      exact quiet_call hs hn (h.1.quiet hn hs.of_append.1 _ (kind_of_symbol ho) _) ho hc ha
  | .filter e p =>
    rw [Expr.Formed] at h
    rw [Expr.symbols] at hu
    rw [Expr.anchored, Expr.symbols]
    obtain ⟨us, vs, rfl, he, hv⟩ := List.map_eq_append_iff.1 hu
    obtain ⟨o, vs', hvo, ho, hv₁⟩ := List.map_eq_cons_iff.1 hv
    refine (e.anchors h.1 he hs.of_append.1 hl ?_).append hs ?_
    · rw [hvo]
      exact follows_symbol ho nofun nofun _
    · have hp : (o :: vs').map Token.symbol = predicateSymbols [p] := by
        rw [predicateSymbols, predicateSymbols, ← hvo]
        exact hv
      rw [hvo] at hv hs ⊢
      exact (predicates_quiet (standFor_of_symbols hp) _ _).anchored hs.of_append.2 hv
  | .relative first rest =>
    rw [Expr.Formed] at h
    rw [Expr.symbols] at hu
    rw [Expr.anchored, Expr.symbols, Steps.symbols]
    · exact relative_anchored h.1 hu hs hl hr
    · nofun
  | .absolute .done =>
    rw [Expr.symbols] at hu
    rw [Expr.anchored, Expr.symbols]
    obtain ⟨t, rfl, ht⟩ := List.map_eq_singleton_iff.1 hu
    exact sign_anchored hs ht rfl nofun nofun _ _
  | .absolute (.next sep step more) =>
    rw [Expr.Formed] at h
    rw [Expr.symbols] at hu
    · rw [Expr.anchored, Expr.symbols]
      · exact Steps.anchored hu hs _ hr
      · nofun
    · nofun
  | .through e steps =>
    rw [Expr.Formed] at h
    rw [Expr.symbols] at hu
    rw [Expr.anchored, Expr.symbols]
    obtain ⟨us, vs, rfl, he, hv⟩ := List.map_eq_append_iff.1 hu
    refine (e.anchors h.1 he hs.of_append.1 hl ?_).append hs ?_
    · exact .append hv (steps_follow steps) hr
    · exact Steps.anchored hv hs.of_append.2 _ hr

theorem arguments_anchors (es : List Expr) (h : AllFormed es) {us : List Token}
    (hu : us.map Token.symbol = argumentSymbols es) (hs : Sound us) {last : Option Token}
    (hl : Starts last) {rest : List Token} (hr : Follows rest) :
    Anchored last us rest (argumentSymbols (anchoredAll es)) := by
  match es with
  | [] =>
    rw [argumentSymbols] at hu
    rw [anchoredAll, argumentSymbols, List.map_eq_nil_iff.1 hu]
    exact (Quiet.nil last rest).anchored (List.map_eq_nil_iff.1 hu ▸ hs) rfl
  | [e] =>
    rw [AllFormed] at h
    rw [argumentSymbols] at hu
    rw [anchoredAll, anchoredAll, argumentSymbols]
    exact e.anchors h.1 hu hs hl hr
  | e :: e' :: es =>
    rw [AllFormed] at h
    rw [argumentSymbols] at hu
    · obtain ⟨us, vs, rfl, he, hv⟩ := List.map_eq_append_iff.1 hu
      obtain ⟨c, vs, rfl, hc, hes⟩ := List.map_eq_cons_iff.1 hv
      rw [anchoredAll, argumentSymbols]
      · refine (e.anchors h.1 he hs.of_append.1 hl (follows_symbol hc nofun nofun _)).append hs ?_
        refine .cons hs.of_append.2 hc rfl nofun nofun fun hs => ?_
        exact arguments_anchors (e' :: es) h.2 hes hs (starts_some hc rfl) hr
      · rw [anchoredAll]
        nofun
    · nofun

end

end TreeQuery.XPath
