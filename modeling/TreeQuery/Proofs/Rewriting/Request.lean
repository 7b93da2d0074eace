import TreeQuery.Proofs.Rewriting.Edit

/-!
# Requests read as intended

What an engine is asked to compile is read as the tokens of the expression, each one as it is or as
what `intended` puts in its place: the replacements of a plan do not overlap, and no lexemes merge
or fall apart where they meet the text (`request_reads_intended`).
-/

namespace TreeQuery.Plan

open XPath

/-! ## What is intended -/

/-- Whether a part of a text holds a token. -/
def holds (start stop : Nat) (t : Token) : Bool := start ≤ t.start && t.stop ≤ stop

/-- Before a relative path stands a slash, and before a `lang` call the start of a conjunction with
falsehood. -/
def opened (ts : List Token) (t : Token) : List String :=
  (if t.start ∈ relativePaths ts then ["/"] else []) ++
    (contextCalls ts).flatMap fun c =>
      if c.name = "lang" ∧ c.start = t.start then ["(", "false", "(", ")", "and"] else []

/-- After a `lang` call the conjunction is closed, and in the parentheses of any other context call
stands a slash. -/
def closed (ts : List Token) (t : Token) : List String :=
  (contextCalls ts).flatMap fun c =>
    if c.name = "lang" then if c.after = t.stop then [")"] else []
    else if c.inside = t.stop then ["/"] else []

/-- What stands for a token: a prefixed variable is one of the engine, a name whose prefix is
unresolved loses the prefix or, for any local name, tests that there is no namespace. -/
def kept (p : Plan) (uriOf : String → String) (ts : List Token) (t : Token) : List String :=
  match (variableReferences ts).find? fun r => r.pfx.isSome && holds r.start r.stop t with
  | some r => if r.start = t.start then ["$", engineName p.engineVariables r] else []
  | none =>
    match (qualifiedNames ts).find? fun q =>
        (q.use != .function && p.isUnresolved uriOf q) && holds q.start q.stop t with
    | some q =>
      if q.start = t.start then
        if q.use = .wildcard then ["*", "[", "namespace-uri", "(", ")", "=", "''", "]"]
        else [q.localName]
      else []
    | none => [t.string]

/-- What a request should read where the expression has a token. -/
def intended (p : Plan) (uriOf : String → String) (anchored : Bool) (ts : List Token)
    (t : Token) : List String :=
  if anchored then opened ts t ++ p.kept uriOf ts t ++ closed ts t else p.kept uriOf ts t

/-! ## References of blocks -/

variable {p : Plan} {uriOf : String → String} {anchored : Bool} {ts : List Token}
  {bs : List Block} {b : Block}

theorem find?_holds {α : Type} {f : Block → Option α} {start stop : α → Nat}
    (hf : ∀ b a, f b = some a → start a = b.start ∧ stop a = b.stop) (h : InOrder bs)
    (hb : b ∈ bs) {t : Token} (hlt : t.start < t.stop)
    (ht : b.start ≤ t.start ∧ t.stop ≤ b.stop) :
    (bs.filterMap f).find? (fun a => holds (start a) (stop a) t) = f b := by
  induction bs with
  | nil => cases hb
  | cons b' bs ih =>
    have hlater := (List.pairwise_cons.1 h.sorted).1
    rw [List.filterMap_cons]
    rcases List.mem_cons.1 hb with rfl | hb
    · cases hfb : f b with
      | none =>
        rw [List.find?_eq_none]
        intro a ha hh
        obtain ⟨b', hb', ha⟩ := List.mem_filterMap.1 ha
        have := hlater b' hb'
        have := (hf b' a ha).1
        simp only [holds, Bool.and_eq_true, decide_eq_true_eq] at hh
        omega
      | some a =>
        obtain ⟨hs, he⟩ := hf b a hfb
        refine List.find?_cons_of_pos ?_
        simp only [holds, Bool.and_eq_true, decide_eq_true_eq]
        omega
    · have := hlater b hb
      cases hfb : f b' with
      | none => exact ih h.of_cons hb
      | some a =>
        have := (hf b' a hfb).2
        refine (List.find?_cons_of_neg ?_).trans (ih h.of_cons hb)
        simp only [holds, Bool.and_eq_true, decide_eq_true_eq]
        omega

theorem find?_and {α : Type} {l : List α} {f g : α → Bool} :
    l.find? (fun a => f a && g a) = (l.filter f).find? g := by
  rw [List.find?_filter]
  simp only [Bool.decide_and, Bool.decide_eq_true]

theorem find?_reference (h : Divided ts bs) (hd : Division ts bs) (hb : b ∈ bs) {t : Token}
    (ht : t ∈ b.tokens) :
    ((variableReferences ts).find? fun r => r.pfx.isSome && holds r.start r.stop t) =
      b.reference? := by
  have ho := (h.tokens ▸ h.ordered).block hb
  rw [find?_and, ← hd.references]
  exact find?_holds (fun _ _ => reference?_span) h.inOrder hb (ho.proper t ht)
    (Block.bounds ho ht)

theorem find?_dropped (h : Divided ts bs) (hd : Division ts bs) (hb : b ∈ bs) {t : Token}
    (ht : t ∈ b.tokens) :
    ((qualifiedNames ts).find? fun q =>
        (q.use != .function && p.isUnresolved uriOf q) && holds q.start q.stop t) =
      dropped? p uriOf b := by
  have ho := (h.tokens ▸ h.ordered).block hb
  rw [find?_and, ← hd.names, List.filter_filterMap]
  exact find?_holds (fun _ _ => dropped?_span) h.inOrder hb (ho.proper t ht)
    (Block.bounds ho ht)

/-! ## What blocks read -/

theorem map_toList_ofList (l : List String) : (l.map String.toList).map String.ofList = l := by
  rw [List.map_map]
  refine (List.map_congr_left fun s _ => ?_).trans (List.map_id l)
  exact String.ofList_toList

theorem opened_eq (h : Ordered ts) {e : Block → Option String} :
    ((changeBy (openings ts) (closings ts) e b).before.flatMap lexemesOf).map String.ofList =
      opened ts b.first := by
  have hcall (c : ContextCall) : (((openingOf c).filter (Replacement.spans b.start b.start)).map
      Replacement.text).flatMap lexemesOf =
        (if c.name = "lang" ∧ c.start = b.start then ["(", "false", "(", ")", "and"]
          else []).map String.toList := by
    unfold openingOf
    by_cases hl : c.name = "lang"
    · by_cases hs : c.start = b.start
      · simp [hl, hs, Replacement.spans, Replacement.insertion, lexemesOf_falseAnd]
      · simp [hl, hs, Replacement.spans, Replacement.insertion]
    · simp [hl]
  have hcalls : ((((contextCalls ts).flatMap openingOf).filter
      (Replacement.spans b.start b.start)).map Replacement.text).flatMap lexemesOf =
        ((contextCalls ts).flatMap fun c =>
          if c.name = "lang" ∧ c.start = b.start then ["(", "false", "(", ")", "and"]
            else []).map String.toList := by
    rw [List.filter_flatMap, List.map_flatMap, List.flatMap_assoc, List.map_flatMap]
    exact List.flatMap_congr fun c _ => hcall c
  have hslash : ((if b.start ∈ relativePaths ts then ["/"] else []).flatMap lexemesOf).map
      String.ofList = if b.start ∈ relativePaths ts then ["/"] else [] := by
    split
    · rw [List.flatMap_singleton, lexemesOf_slash]
      rfl
    · rfl
  rw [before_changeBy h, List.flatMap_append, List.map_append, hcalls, map_toList_ofList, hslash]
  rfl

theorem closed_eq {e : Block → Option String} :
    ((changeBy (openings ts) (closings ts) e b).after.flatMap lexemesOf).map String.ofList =
      closed ts b.last := by
  have hcall (c : ContextCall) : ((([closingOf c]).filter (Replacement.spans b.stop b.stop)).map
      Replacement.text).flatMap lexemesOf =
        (if c.name = "lang" then if c.after = b.stop then [")"] else []
          else if c.inside = b.stop then ["/"] else []).map String.toList := by
    unfold closingOf
    by_cases hl : c.name = "lang"
    · by_cases hs : c.after = b.stop
      · simp [hl, hs, Replacement.spans, Replacement.insertion, lexemesOf_closeParen]
      · simp [hl, hs, Replacement.spans, Replacement.insertion]
    · by_cases hs : c.inside = b.stop
      · simp [hl, hs, Replacement.spans, Replacement.insertion, lexemesOf_slash]
      · simp [hl, hs, Replacement.spans, Replacement.insertion]
  have hclosings : closings ts = (contextCalls ts).flatMap fun c => [closingOf c] :=
    List.map_eq_flatMap
  have hall : (((closings ts).filter (Replacement.spans b.stop b.stop)).map
      Replacement.text).flatMap lexemesOf = (closed ts b.last).map String.toList := by
    rw [hclosings, closed, List.filter_flatMap, List.map_flatMap, List.flatMap_assoc,
      List.map_flatMap]
    exact List.flatMap_congr fun c _ => hcall c
  show ((((closings ts).filter _).map _).flatMap _).map _ = _
  rw [hall, map_toList_ofList]

/-- Nothing is put before a token that is not the first of its block. -/
theorem opened_of_not_first (h : Divided ts bs) (hb : b ∈ bs) (us : List Token)
    {vs : List Token} {t : Token} (ht : b.tokens = us ++ t :: vs) (hu : us ≠ []) : opened ts t = [] := by
  obtain ⟨bs₁, bs₂, rfl⟩ := List.append_of_mem hb
  have hts : ts = bs₁.flatMap Block.tokens ++ us ++ t :: (vs ++ bs₂.flatMap Block.tokens) := by
    rw [← h.tokens, List.flatMap_append, List.flatMap_cons, ht]
    simp
  have hi := (Block.interior (h.valid b hb) ht hu (bs₂.flatMap Block.tokens)).of_append
    (bs₁.flatMap Block.tokens)
  have hrel : t.start ∉ relativePaths ts := by
    intro hx
    obtain ⟨us', t', vs', he, hs, hp⟩ := mem_relativePaths hx
    obtain ⟨rfl, rfl, rfl⟩ := h.ordered.eq_of_start hts he hs.symm
    exact not_interior_of_relativePath hp hi
  have hcall : ∀ c ∈ contextCalls ts, c.start ≠ t.start := by
    intro c hc hs
    obtain ⟨us', n, p, vs', he, hcall⟩ := mem_contextCalls hc
    have hn : c.start = n.start := by
      obtain ⟨_, _, _, rfl⟩ := hcall.call
      rfl
    obtain ⟨rfl, rfl, hv⟩ := h.ordered.eq_of_start hts he (hs.symm.trans hn)
    rw [hv] at hi
    exact not_interior_of_call hcall hi
  rw [opened, if_neg hrel, List.nil_append, List.flatMap_eq_nil_iff]
  exact fun c hc => if_neg fun hl => hcall c hc hl.2

theorem closed_of_not_paren (h : Ordered ts) {t : Token} (ht : t ∈ ts) (hk : t.kind ≠ .openParen)
    (hk' : t.kind ≠ .closeParen) : closed ts t = [] := by
  rw [closed, List.flatMap_eq_nil_iff]
  intro c hc
  obtain ⟨t', ht', hs, hp⟩ := exists_paren hc
  have hne : t'.stop ≠ t.stop := by
    intro he
    rw [h.eq_of_stop ht' ht he] at hp
    rcases hp with ⟨-, hp⟩ | ⟨-, hp, -⟩
    · exact hk' hp
    · exact hk hp
  rw [← hs] at hne
  unfold closingOf at hne
  split
  · rename_i hl
    rw [if_pos hl] at hne
    exact if_neg hne
  · rename_i hl
    rw [if_neg hl] at hne
    exact if_neg hne

theorem kept_eq (h : Divided ts bs) (hd : Division ts bs) (hb : b ∈ bs) {t : Token}
    (ht : t ∈ b.tokens) : p.kept uriOf ts t =
      match b.reference? with
      | some r => if r.start = t.start then ["$", engineName p.engineVariables r] else []
      | none =>
        match dropped? p uriOf b with
        | some q =>
          if q.start = t.start then
            if q.use = .wildcard then ["*", "[", "namespace-uri", "(", ")", "=", "''", "]"]
            else [q.localName]
          else []
        | none => [t.string] := by
  rw [kept, find?_reference h hd hb ht, find?_dropped h hd hb ht]

theorem flatMap_ite_start {t : Token} {us : List Token} (h : Ordered (t :: us)) (l : List String) :
    (t :: us).flatMap (fun u => if t.start = u.start then l else []) = l := by
  have hnone : us.flatMap (fun u => if t.start = u.start then l else []) = [] := by
    rw [List.flatMap_eq_nil_iff]
    exact fun u hu => if_neg (Nat.ne_of_lt (h.start_lt hu))
  rw [List.flatMap_cons, hnone, if_pos rfl, List.append_nil]

/-- The tokens of a block read as its edit. -/
theorem flatMap_kept (h : Divided ts bs) (hd : Division ts bs) (hb : b ∈ bs)
    (hp : p.engineVariables = variablesOf (variableReferences ts)) :
    b.tokens.flatMap (p.kept uriOf ts) =
      ((edit p uriOf b).elim (b.tokens.map Token.text) lexemesOf).map String.ofList := by
  rw [List.flatMap_congr fun t ht => kept_eq h hd hb ht]
  have ho := (h.tokens ▸ h.ordered).block hb
  cases b with
  | single t => rfl
  | reference d q c l =>
    obtain ⟨-, k, -, hlex⟩ := isLexeme_reference h hb hp
    refine (flatMap_ite_start ho _).trans ?_
    rw [edit_reference, Option.elim_some, lexemesOf_dollar hlex, List.map_cons, List.map_singleton,
      String.ofList_toList]
  | name q c l use =>
    have hvalid := h.valid _ hb
    cases hn : dropped? p uriOf (.name q c l use) with
    | none =>
      have he : edit p uriOf (.name q c l use) = none := by
        rw [edit, hn]
        rfl
      rw [he]
      rfl
    | some n =>
      have he : edit p uriOf (.name q c l use) =
          some (if n.use = .wildcard then noNamespaceWildcard else n.localName) := by
        rw [edit, hn]
        rfl
      cases (Option.filter_eq_some_iff.1 hn).1
      refine (flatMap_ite_start ho _).trans ?_
      rw [he, Option.elim_some]
      split
      · rw [noNamespaceWildcard, lexemesOf_wildcard, map_toList_ofList]
      · rename_i hne
        have hll : IsLexeme l.kind l.string.toList :=
          (isLexeme_local h hb hvalid.1 fun hl => hne (hvalid.2.2 hl)).2
        show [l.string] = (lexemesOf l.string).map String.ofList
        rw [lexemesOf_of_isLexeme hll, List.map_singleton, String.ofList_toList]

/-- What is put before and after the tokens of a block is put at its ends. -/
theorem flatMap_intended (h : Divided ts bs) (hb : b ∈ bs) :
    b.tokens.flatMap (p.intended uriOf true ts) =
      opened ts b.first ++ b.tokens.flatMap (p.kept uriOf ts) ++ closed ts b.last := by
  have hmem : ∀ t ∈ b.tokens, t ∈ ts := fun t ht => h.tokens ▸ List.mem_flatMap.2 ⟨b, hb, ht⟩
  have hopen := @opened_of_not_first ts bs b h hb
  have hclose {t : Token} (ht : t ∈ b.tokens)
      (hk : t.isName = true ∨ t.kind = .colon ∨ t.kind = .dollar) : closed ts t = [] := by
    refine closed_of_not_paren h.ordered (hmem t ht) ?_ ?_ <;> intro he <;>
      rcases hk with hk | hk | hk <;> simp [Token.isName, he] at hk
  have hvalid := h.valid b hb
  cases b with
  | single t => simp [Block.tokens, intended, Block.first, Block.last]
  | reference d q c l =>
    obtain ⟨hd, hq, -⟩ := hvalid
    obtain ⟨hqn, hcn, -⟩ := isQualified_iff.1 hq
    have hd := hclose (t := d) (by simp [Block.tokens]) (.inr (.inr hd))
    have hqc := hclose (t := q) (by simp [Block.tokens]) (.inl hqn)
    have hcc := hclose (t := c) (by simp [Block.tokens]) (.inr (.inl hcn))
    have hqo : opened ts q = [] := hopen [d] rfl (List.cons_ne_nil _ _)
    have hco : opened ts c = [] := hopen [d, q] rfl (List.cons_ne_nil _ _)
    have hlo : opened ts l = [] := hopen [d, q, c] rfl (List.cons_ne_nil _ _)
    simp [Block.tokens, intended, Block.first, Block.last, hd, hqc, hcc, hqo, hco, hlo]
  | name q c l use =>
    obtain ⟨hqn, hcn, -⟩ := isQualified_iff.1 hvalid.1
    have hqc := hclose (t := q) (by simp [Block.tokens]) (.inl hqn)
    have hcc := hclose (t := c) (by simp [Block.tokens]) (.inr (.inl hcn))
    have hco : opened ts c = [] := hopen [q] rfl (List.cons_ne_nil _ _)
    have hlo : opened ts l = [] := hopen [q, c] rfl (List.cons_ne_nil _ _)
    simp [Block.tokens, intended, Block.first, Block.last, hqc, hcc, hco, hlo]

/-- A block reads as its tokens are intended to. -/
theorem lexemes_eq_intended (h : Divided ts bs) (hd : Division ts bs) (hb : b ∈ bs)
    (hp : p.engineVariables = variablesOf (variableReferences ts)) :
    ((changeBy (openings ts) (closings ts) (edit p uriOf) b).lexemes b).map String.ofList =
      b.tokens.flatMap (p.intended uriOf true ts) := by
  rw [flatMap_intended h hb, Change.lexemes, List.map_append, List.map_append,
    opened_eq h.ordered, closed_eq, flatMap_kept h hd hb hp]
  rfl

/-! ## Requests -/

/-- Replacements arranged by blocks do not overlap and read as their blocks. -/
theorem splice_arranged {expression : String} (hl : Laid none 0 expression.toList ts)
    (h : Divided ts bs) {opens closes : List Replacement} {e : Block → Option String}
    {rs : List Replacement} (hrs : rs.mergeSort Replacement.le = arranged opens closes e bs)
    (hf : ∀ b ∈ bs, (changeBy opens closes e b).Fits b)
    (hj : bs.IsChain (Joins (changeBy opens closes e))) :
    rs.Pairwise Replacement.Apart ∧ ∃ ts', tokenize (splice expression rs) = .ok ts' ∧
      ts'.map Token.text = bs.flatMap fun b => (changeBy opens closes e b).lexemes b := by
  refine ⟨pairwise_apart h.inOrder hrs, ?_⟩
  rw [← h.tokens] at hl
  obtain ⟨out, hout, hs, -⟩ := @Laid.changed _ none [] _ bs hl hf hj
  obtain ⟨ts', ht, hts⟩ := hs.tokenize
  refine ⟨ts', ?_, hts⟩
  rw [splice, hrs]
  exact hout ▸ ht

theorem map_string {ts' : List Token} {l : List (List Char)} (h : ts'.map Token.text = l) :
    ts'.map Token.string = l.map String.ofList := by
  rw [← h, List.map_map]
  rfl

/-- A request of an expression in which a name follows every `$` reads as intended. -/
theorem request_reads_intended {expression : String} (bound : List Namespace)
    (h : tokenize expression = .ok ts) (hd : Dollars ts) (uriOf : String → String)
    (anchored : Bool) :
    let p := Plan.make expression bound ts
    let resolved := p.unbound.map fun x => (x, uriOf x)
    (p.replacements resolved anchored).Pairwise Replacement.Apart ∧
      ∃ ts', tokenize (p.request resolved anchored).text = .ok ts' ∧
        ts'.map Token.string = ts.flatMap (p.intended uriOf anchored ts) := by
  intro p resolved
  have hl := laid_of_tokensFrom h
  obtain ⟨bs, hdiv⟩ := exists_blocks hd
  have hb : Divided ts bs := ⟨hl.ordered.1, hl.isLexeme, hdiv.tokens, hdiv.valid⟩
  have hflat : ts.flatMap (p.intended uriOf anchored ts) =
      bs.flatMap fun b => b.tokens.flatMap (p.intended uriOf anchored ts) := by
    rw [← hdiv.tokens, List.flatMap_assoc]
  have hsort := @mergeSort_replacements p uriOf anchored ts bs hb hdiv rfl rfl rfl
  cases anchored with
  | true =>
    obtain ⟨hapart, ts', ht, hts⟩ := splice_arranged hl hb hsort
      (fun b hbs => fits_changeBy hb hbs (reads_edit hb hbs rfl)) (joins_changeBy hb)
    refine ⟨hapart, ts', ht, ?_⟩
    rw [map_string hts, hflat, List.map_flatMap]
    exact List.flatMap_congr fun b hbs => lexemes_eq_intended hb hdiv hbs rfl
  | false =>
    obtain ⟨hapart, ts', ht, hts⟩ := splice_arranged hl hb hsort
      (fun b hbs => fits_edit hb hbs rfl) (List.isChain_iff_forall_rel_of_append_cons_cons.2
        fun _ _ _ _ _ => ⟨nofun, nofun⟩)
    refine ⟨hapart, ts', ht, ?_⟩
    rw [map_string hts, hflat, List.map_flatMap]
    refine List.flatMap_congr fun b hbs => ?_
    show _ = b.tokens.flatMap (p.kept uriOf ts)
    rw [flatMap_kept hb hdiv hbs rfl]
    exact congrArg (List.map String.ofList) (List.append_nil _)

/-- A prefixed variable, a name and a wildcard without a namespace, and two context calls. -/
theorem request_reads_intended_references :
    let ts : List Token := [⟨.dollar, ['$'], 0⟩, ⟨.name, ['p'], 1⟩, ⟨.colon, [':'], 2⟩,
      ⟨.name, ['x'], 3⟩, ⟨.bar, ['|'], 4⟩, ⟨.name, ['q'], 5⟩, ⟨.colon, [':'], 6⟩,
      ⟨.star, ['*'], 7⟩, ⟨.slash, ['/'], 8⟩, ⟨.name, ['q'], 9⟩, ⟨.colon, [':'], 10⟩,
      ⟨.name, ['y'], 11⟩, ⟨.or, ['o', 'r'], 13⟩, ⟨.name, ['l', 'a', 'n', 'g'], 16⟩,
      ⟨.openParen, ['('], 20⟩, ⟨.name, ['n', 'a', 'm', 'e'], 21⟩, ⟨.openParen, ['('], 25⟩,
      ⟨.closeParen, [')'], 26⟩, ⟨.closeParen, [')'], 27⟩]
    let p := Plan.make "$p:x|q:*/q:y or lang(name())" [] ts
    let resolved := p.unbound.map fun x => (x, "")
    tokenize "$p:x|q:*/q:y or lang(name())" = .ok ts ∧ Dollars ts ∧
      (p.replacements resolved true).Pairwise Replacement.Apart ∧
      ∃ ts', tokenize (p.request resolved true).text = .ok ts' ∧
        ts'.map Token.string = ts.flatMap (p.intended (fun _ => "") true ts) := by
  intro ts p resolved
  have h : tokenize "$p:x|q:*/q:y or lang(name())" = .ok ts :=
    tokenize_of_readFrom (by decide +kernel)
  have hd : Dollars ts := by
    unfold Dollars
    decide
  exact ⟨h, hd, request_reads_intended [] h hd (fun _ => "") true⟩

end TreeQuery.Plan
