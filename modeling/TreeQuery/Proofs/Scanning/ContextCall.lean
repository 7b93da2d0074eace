import TreeQuery.Proofs.Scanning.Name

/-!
# Context calls are found

The scan for calls that look at the context node finds those that a tree has outside predicates
(`Expr.calls`), each with the parentheses around its own arguments, whatever these are. Main
statement: `contextCalls_found`.
-/

namespace TreeQuery.XPath

/-! ## Calls of trees -/

mutual

/-- The calls of a tree outside predicates. -/
def Expr.calls : Expr → List (Nat × Name × List Expr)
  | .binary _ a b => a.calls ++ shifted (a.symbols.length + 1) b.calls
  | .negate e | .group e => shifted 1 e.calls
  | .literal _ | .number _ | .variable _ | .relative .. | .absolute _ => []
  | .call n args => (0, n, args) :: shifted (n.symbols.length + 1) (argumentCalls args)
  | .filter e _ | .through e _ => e.calls

def argumentCalls : List Expr → List (Nat × Name × List Expr)
  | [] => []
  | e :: es => e.calls ++ shifted (e.symbols.length + 1) (argumentCalls es)

end

/-- A call whose value hangs on the context node without an argument that says so: `lang` always
does, the functions that stand for the context node do without arguments. -/
def contextUse? (call : Name × List Expr) : Option (Name × List Expr) :=
  if call.1 = ⟨none, "lang"⟩ ∨ looksAtContext call.1 call.2 = true then some call else none

/-- The tokens of a call: its name, its parentheses, and its arguments between them. -/
structure IsContextCall (call : Name × List Expr) (c : ContextCall) (us : List Token) : Prop where
  name : call.1.pfx = none ∧ c.name = call.1.localName
  tokens : ∃ n o close inside, us = n :: o :: (inside ++ [close]) ∧ n.string = c.name ∧
    o.kind = .openParen ∧ close.kind = .closeParen ∧ StandFor inside (argumentSymbols call.2) ∧
    n.start = c.start ∧ o.stop = c.inside ∧ close.stop = c.after

/-- Among some tokens the scan finds the context calls of a part of a tree. -/
def FindsCalls (last : Option Token) (us rest : List Token)
    (calls : List (Nat × Name × List Expr)) : Prop :=
  Finds (contextCallsFrom 0) IsContextCall last us rest (picked contextUse? calls)

theorem contextUse?_of_prefixed (p l : String) (args : List Expr) :
    contextUse? (⟨some p, l⟩, args) = none := by
  simp [contextUse?, looksAtContext]

theorem contextUse?_unprefixed (n : String) (args : List Expr) :
    contextUse? (⟨none, n⟩, args) =
      if n = "lang" ∨ n ∈ contextFunctions ∧ args = [] then some (⟨none, n⟩, args) else none := by
  simp [contextUse?, looksAtContext]

/-! ## Scans -/

section Scan

variable {last : Option Token} {us vs rest : List Token} {t o c : Token} {s : Symbol}
  {calls calls' : List (Nat × Name × List Expr)}

/-- All that counts of the token before is that it is no colon. -/
theorem contextCallsFrom_congr {last last' : Option Token} (h : ∀ l ∈ last, l.kind ≠ .colon)
    (h' : ∀ l ∈ last', l.kind ≠ .colon) (depth : Int) (ts : List Token) :
    contextCallsFrom depth last ts = contextCallsFrom depth last' ts := by
  have hany {last : Option Token} (h : ∀ l ∈ last, l.kind ≠ .colon) :
      last.any (·.kind == .colon) = false :=
    (Option.any_eq_false _ _).2 fun l hl => beq_false_of_ne (h l hl)
  cases ts with
  | nil => rfl
  | cons t ts =>
    have hcall : contextCall? last (t :: ts) = contextCall? last' (t :: ts) := by
      unfold contextCall?
      rw [hany h, hany h']
    rw [contextCallsFrom, contextCallsFrom, hcall]

theorem FindsCalls.append (h : FindsCalls last us (vs ++ rest) calls)
    (h' : FindsCalls (lastOf last us) vs rest calls') {n : Nat} (hn : us.length = n) :
    FindsCalls last (us ++ vs) rest (calls ++ shifted n calls') := by
  rw [FindsCalls, picked_append, picked_shifted]
  exact Finds.append h h' hn

theorem FindsCalls.after (h : FindsCalls last us (vs ++ rest) [])
    (h' : FindsCalls (lastOf last us) vs rest calls) {n : Nat} (hn : us.length = n) :
    FindsCalls last (us ++ vs) rest (shifted n calls) :=
  h.append h' hn

theorem FindsCalls.before (h : FindsCalls last us (vs ++ rest) calls)
    (h' : FindsCalls (lastOf last us) vs rest []) : FindsCalls last (us ++ vs) rest calls :=
  Finds.before h h'

theorem Quiet.findsCalls (h : Quiet last us rest) : FindsCalls last us rest [] :=
  Finds.nothing h.calls

/-- The steps of a path are no calls, whatever comes before them. -/
theorem findsCalls_steps (h : ∀ l : Token, l.kind = .slash → Quiet (some l) us rest)
    (hl : ∀ l ∈ last, l.kind ≠ .colon) : FindsCalls last us rest [] := by
  obtain ⟨l, hk⟩ : ∃ l : Token, l.kind = .slash := ⟨⟨.slash, [], 0⟩, rfl⟩
  have hslash : ∀ l' ∈ some l, l'.kind ≠ .colon := by
    rintro l' ⟨⟩
    rw [hk]
    exact nofun
  have hcalls := (h l hk).calls
  rw [contextCallsFrom_congr hslash hl] at hcalls
  refine Finds.nothing (hcalls.trans ?_)
  cases us with
  | nil => exact contextCallsFrom_congr hslash hl 0 rest
  | cons u us => rw [lastOf_cons, lastOf_cons]; rfl

theorem findsCalls_token (ht : t.symbol.plain = s.plain) (hn : s.kind ≠ .name)
    (ho : s.kind ≠ .openBracket) (hc : s.kind ≠ .closeBracket) : FindsCalls last [t] rest [] := by
  have hk {k : TokenKind} (hk : k ≠ .star ∧ k ≠ .times) (hs : s.kind ≠ k) : t.kind ≠ k :=
    (kind_eq_iff_of_plain ht hk).not.2 hs
  have htoken := (Scans.token (hk (by decide) ho) (hk (by decide) hc) last rest).calls
  rw [contextCall?_of_not_name (hk (by decide) hn)] at htoken
  exact Finds.nothing htoken

theorem FindsCalls.cons (ht : t.symbol.plain = s.plain) (hn : s.kind ≠ .name)
    (ho : s.kind ≠ .openBracket) (hc : s.kind ≠ .closeBracket)
    (h : FindsCalls (some t) us rest calls) : FindsCalls last (t :: us) rest (shifted 1 calls) :=
  (findsCalls_token ht hn ho hc).after h rfl

theorem not_colon_of_plain (ht : t.symbol.plain = s.plain) (hs : s.kind ≠ .colon) :
    ∀ l ∈ some t, l.kind ≠ .colon := by
  rintro l ⟨⟩
  exact (kind_eq_iff_of_plain ht (by decide)).not.2 hs

theorem FindsCalls.first {call : Name × List Expr} (ho : t.kind ≠ .openBracket)
    (hc : t.kind ≠ .closeBracket) (hcall : List.Forall₂ (fun k c => IsContextCall k c (t :: us))
      (contextUse? call).toList (contextCall? last (t :: (us ++ rest))).toList)
    (h : FindsCalls (some t) us rest calls) :
    FindsCalls last (t :: us) rest ((0, call) :: shifted 1 calls) := by
  obtain ⟨found, hscan, hfound⟩ := h
  have hpicked : picked contextUse? ((0, call) :: shifted 1 calls) =
      (contextUse? call).toList.map (0, ·) ++ shifted 1 (picked contextUse? calls) := by
    rw [← picked_shifted, picked, List.filterMap_cons]
    cases contextUse? call <;> rfl
  refine ⟨(contextCall? last (t :: (us ++ rest))).toList ++ found, ?_, ?_⟩
  · rw [lastOf_cons, List.append_assoc, ← hscan]
    exact (Scans.token ho hc last (us ++ rest)).calls
  · have hnil : Found IsContextCall [t] [] [] := .nil
    rw [hpicked]
    refine List.rel_append (List.forall₂_map_left_iff.2 (hcall.imp fun k c hk => ?_))
      (hnil.append hfound)
    exact ⟨_, List.prefix_rfl, hk⟩

/-- At the name of a function the scan finds a call exactly if it should. -/
theorem contextCall?_unprefixed {n : String} {args : List Expr} (rest : List Token)
    (ht : t.symbol.plain = (nameSymbol n).plain) (ho : o.kind = .openParen)
    (hc : c.kind = .closeParen) (hu : StandFor us (argumentSymbols args))
    (hl : ∀ l ∈ last, l.kind ≠ .colon) : contextCall? last (t :: o :: (us ++ c :: rest)) =
      if n = "lang" ∨ n ∈ contextFunctions ∧ args = [] then some ⟨n, t.start, o.stop, c.stop⟩
      else none := by
  have hstring : t.string = n :=
    string_of_text (text_of_plain ht (TokenKind.ne_of_isName (isName_nameSymbol n) rfl))
  have hempty : us = [] ↔ args = [] := by
    rw [← argumentSymbols_eq_nil_iff, ← List.length_eq_zero_iff, hu.length,
      List.length_eq_zero_iff]
  by_cases hk : t.kind = .name
  · have hpair : IsPair .openParen .closeParen := .inl ⟨rfl, rfl⟩
    rw [contextCall?_call rest hk ho hc (hu.nested hpair (arguments_nested hpair args)) hl, hstring]
    simp only [hempty]
  · -- none of the functions has a name that spells something else
    rw [contextCall?_of_not_name hk, if_neg]
    intro hn
    have hm : n ∈ "lang" :: contextFunctions := List.mem_cons.2 (hn.imp_right And.left)
    have hname : ∀ n ∈ "lang" :: contextFunctions, nameKind n.toList = .name := by decide
    exact hk ((kind_eq_iff_of_plain ht (by decide)).2 (hname n hm))

/-- A call whose name has no prefix, and the calls in its arguments. -/
theorem findsCalls_unprefixed {n : String} {args : List Expr}
    (ht : t.symbol.plain = (nameSymbol n).plain) (ho : o.symbol.plain = (sign .openParen "(").plain)
    (hc : c.symbol.plain = (sign .closeParen ")").plain) (hu : StandFor us (argumentSymbols args))
    (hl : ∀ l ∈ last, l.kind ≠ .colon) (h : FindsCalls (some t) (o :: (us ++ [c])) rest calls) :
    FindsCalls last (t :: o :: (us ++ [c])) rest ((0, ⟨none, n⟩, args) :: shifted 1 calls) := by
  have hok : o.kind = .openParen := (kind_eq_iff_of_plain ho (by decide)).2 rfl
  have hck : c.kind = .closeParen := (kind_eq_iff_of_plain hc (by decide)).2 rfl
  have hname : t.kind.isName = true := (isName_of_plain ht).trans (isName_nameSymbol n)
  have hstring : t.string = n :=
    string_of_text (text_of_plain ht (TokenKind.ne_of_isName (isName_nameSymbol n) rfl))
  have hcall := contextCall?_unprefixed rest ht hok hck hu hl
  refine .first (TokenKind.ne_of_isName hname rfl) (TokenKind.ne_of_isName hname rfl) ?_ h
  rw [contextUse?_unprefixed, List.cons_append, List.append_assoc, List.singleton_append, hcall]
  split
  · exact .cons ⟨⟨rfl, rfl⟩, t, o, c, us, rfl, hstring, hok, hck, hu, rfl, rfl, rfl⟩ .nil
  · exact .nil

end Scan

mutual

/-- The scan finds the context calls of an expression. -/
theorem Expr.findsCalls (e : Expr) {us : List Token} (hu : StandFor us e.symbols)
    {last : Option Token} (hl : ∀ l ∈ last, l.kind ≠ .colon) {rest : List Token}
    (hr : Follows rest) : FindsCalls last us rest e.calls := by
  match e with
  | .binary op a b =>
    rw [Expr.symbols] at hu
    rw [Expr.calls, ← shifted_shifted]
    obtain ⟨us, vs, rfl, ha, hv⟩ := standFor_append_iff.1 hu
    obtain ⟨o, vs, rfl, ho, hb⟩ := standFor_cons_iff.1 hv
    obtain ⟨-, hob, hcb, hop, hcolon, -⟩ := op.sign
    have hname : op.symbol.kind ≠ .name := by cases op <;> decide
    refine (a.findsCalls ha hl (follows_of_plain ho hop hcolon _)).append
      (.cons ho hname hob hcb ?_) ha.length
    exact b.findsCalls hb (not_colon_of_plain ho hcolon) hr
  | .negate e =>
    rw [Expr.symbols] at hu
    rw [Expr.calls]
    obtain ⟨o, us, rfl, ho, he⟩ := standFor_cons_iff.1 hu
    exact .cons ho nofun nofun nofun (e.findsCalls he (not_colon_of_plain ho nofun) hr)
  | .group e =>
    rw [Expr.symbols] at hu
    rw [Expr.calls]
    obtain ⟨o, us, rfl, ho, hu₁⟩ := standFor_cons_iff.1 hu
    obtain ⟨us, vs, rfl, he, hv⟩ := standFor_append_iff.1 hu₁
    obtain ⟨c, rfl, hc⟩ := standFor_singleton_iff.1 hv
    refine .cons ho nofun nofun nofun (.before ?_ (findsCalls_token hc nofun nofun nofun))
    exact e.findsCalls he (not_colon_of_plain ho nofun) (follows_of_plain hc nofun nofun _)
  | .literal s =>
    rw [Expr.symbols] at hu
    rw [Expr.calls]
    obtain ⟨t, rfl, ht⟩ := standFor_singleton_iff.1 hu
    exact findsCalls_token ht nofun nofun nofun
  | .number s =>
    rw [Expr.symbols] at hu
    rw [Expr.calls]
    obtain ⟨t, rfl, ht⟩ := standFor_singleton_iff.1 hu
    obtain ⟨-, ho, hc⟩ := sign_numeralKind s
    refine findsCalls_token ht ?_ ho hc
    show numeralKind s ≠ .name
    unfold numeralKind
    split <;> decide
  | .variable n =>
    rw [Expr.symbols] at hu
    rw [Expr.calls]
    obtain ⟨d, us, rfl, hd, hn⟩ := standFor_cons_iff.1 hu
    have hk : d.kind = .dollar := (kind_eq_iff_of_plain hd (by decide)).2 rfl
    have hname : Quiet (some d) us rest := Name.quiet hn (by rw [hk]; rfl) hr
    exact .cons hd nofun nofun nofun hname.findsCalls
  | .call n args =>
    rw [Expr.symbols] at hu
    rw [Expr.calls]
    obtain ⟨ns, vs, rfl, hn, hv⟩ := standFor_append_iff.1 hu
    obtain ⟨o, vs, rfl, ho, hv₁⟩ := standFor_cons_iff.1 hv
    obtain ⟨us, vs, rfl, hargs, hv₂⟩ := standFor_append_iff.1 hv₁
    obtain ⟨c, rfl, hc⟩ := standFor_singleton_iff.1 hv₂
    have hinside {last : Option Token} :
        FindsCalls last (o :: (us ++ [c])) rest (shifted 1 (argumentCalls args)) := by
      refine .cons ho nofun nofun nofun (.before ?_ (findsCalls_token hc nofun nofun nofun))
      exact arguments_findCalls args hargs (not_colon_of_plain ho nofun)
        (follows_of_plain hc nofun nofun _)
    obtain ⟨pfx, n⟩ := n
    cases pfx with
    | none =>
      obtain ⟨t, rfl, ht⟩ := standFor_singleton_iff.1 hn
      have hcall := findsCalls_unprefixed ht ho hc hargs hl hinside
      rwa [shifted_shifted] at hcall
    | some p =>
      have hname : FindsCalls last ns (o :: (us ++ [c]) ++ rest) [] := by
        have hlocal := isName_nameSymbol n
        refine findsCalls_steps (fun l hk => ?_) hl
        exact quiet_prefixed
          ⟨TokenKind.ne_of_isName hlocal rfl, TokenKind.ne_of_isName hlocal rfl⟩ hn
          (by rw [hk]; rfl) _
      rw [FindsCalls, picked, List.filterMap_cons, contextUse?_of_prefixed, ← shifted_shifted]
      exact hname.after hinside hn.length
  | .filter e p =>
    rw [Expr.symbols] at hu
    rw [Expr.calls]
    obtain ⟨us, vs, rfl, he, hv⟩ := standFor_append_iff.1 hu
    have hp : StandFor vs (predicateSymbols [p]) := by
      rw [predicateSymbols, predicateSymbols]
      exact hv
    refine .before (e.findsCalls he hl ?_) (predicates_quiet hp _ _).findsCalls
    exact hp.follows (predicates_follow [p]) hr
  | .relative first more =>
    rw [Expr.symbols] at hu
    rw [Expr.calls]
    obtain ⟨us, vs, rfl, hfirst, hmore⟩ := standFor_append_iff.1 hu
    refine findsCalls_steps (fun l hk => ?_) hl
    exact (Step.quiet hfirst (by rw [hk]; rfl) (hmore.follows (steps_follow more) hr)).append
      (Steps.quiet hmore _ hr)
  | .absolute .done =>
    rw [Expr.symbols] at hu
    rw [Expr.calls]
    obtain ⟨t, rfl, ht⟩ := standFor_singleton_iff.1 hu
    exact findsCalls_token ht nofun nofun nofun
  | .absolute (.next sep step more) =>
    rw [Expr.symbols] at hu
    · rw [Expr.calls]
      exact (Steps.quiet hu _ hr).findsCalls
    · nofun
  | .through e steps =>
    rw [Expr.symbols] at hu
    rw [Expr.calls]
    obtain ⟨us, vs, rfl, he, hsteps⟩ := standFor_append_iff.1 hu
    exact .before (e.findsCalls he hl (hsteps.follows (steps_follow steps) hr))
      (Steps.quiet hsteps _ hr).findsCalls

theorem arguments_findCalls (es : List Expr) {us : List Token}
    (hu : StandFor us (argumentSymbols es)) {last : Option Token}
    (hl : ∀ l ∈ last, l.kind ≠ .colon) {rest : List Token} (hr : Follows rest) :
    FindsCalls last us rest (argumentCalls es) := by
  match es with
  | [] =>
    rw [argumentSymbols] at hu
    rw [argumentCalls, standFor_nil_iff.1 hu]
    exact (Quiet.nil last rest).findsCalls
  | [e] =>
    rw [argumentSymbols] at hu
    rw [argumentCalls, argumentCalls, shifted, List.map_nil, List.append_nil]
    exact e.findsCalls hu hl hr
  | e :: e' :: es =>
    rw [argumentSymbols] at hu
    · rw [argumentCalls, ← shifted_shifted]
      obtain ⟨us, vs, rfl, he, hv⟩ := standFor_append_iff.1 hu
      obtain ⟨c, vs, rfl, hc, hes⟩ := standFor_cons_iff.1 hv
      refine (e.findsCalls he hl (follows_of_plain hc nofun nofun _)).append
        (.cons hc nofun nofun nofun ?_) he.length
      exact arguments_findCalls (e' :: es) hes (not_colon_of_plain hc nofun) hr
    · nofun

end

/-- In a text in which an expression is written, the scan finds exactly the calls outside predicates
of `lang`, and of the functions that stand for the context node when they have no argument, in
order. A call is found with the place of its name and with the places of its own parentheses. -/
theorem contextCalls_found {e : Expr} {text : String} (hs : Spaced e.symbols text.toList) :
    ∃ ts, tokenize text = .ok ts ∧ StandFor ts e.symbols ∧
      Found IsContextCall ts (picked contextUse? e.calls) (contextCalls ts) ∧
      (contextCalls ts).Pairwise (·.start < ·.start) := by
  obtain ⟨ts, hl, hu, -⟩ := (spaced_iff_laid none 0).1 hs
  have hfirst : ∀ l ∈ (none : Option Token), l.kind ≠ .colon := nofun
  have hfinds : FindsCalls none ts [] e.calls := e.findsCalls hu hfirst follows_nil
  exact ⟨ts, hl.tokensFrom_eq, hu, Finds.all hfinds fun _ => rfl,
    (contextCalls_sorted hl.ordered.1).imp And.left⟩

/-- A call with a call and a parenthesis as arguments, calls in predicates, and a function with a
prefix, of whose arguments one is a call. -/
theorem contextCalls_found_nested :
    let text := "lang( name( ) , ')' )[lang()] = p:lang(string(), a[name()])"
    let e : Expr := .binary .eq
      (.filter (.call ⟨none, "lang"⟩ [.call ⟨none, "name"⟩ [], .literal ")"])
        (.call ⟨none, "lang"⟩ []))
      (.call ⟨some "p", "lang"⟩ [.call ⟨none, "string"⟩ [],
        .relative (.along .implied (.name ⟨none, "a"⟩) [.call ⟨none, "name"⟩ []]) .done])
    Spaced e.symbols text.toList ∧ (picked contextUse? e.calls).map Prod.fst = [0, 2, 18] ∧
      ∃ ts, tokenize text = .ok ts ∧ StandFor ts e.symbols ∧
        Found IsContextCall ts (picked contextUse? e.calls) (contextCalls ts) ∧
        (contextCalls ts).Pairwise (·.start < ·.start) := by
  intro text e
  have hs : Spaced e.symbols
      "lang( name( ) , ')' )[lang()] = p:lang(string(), a[name()])".toList := by
    refine spaced_iff.2 ⟨_, tokenize_of_readFrom rfl, ?_, ?_⟩
    · simp only [e, Expr.symbols, argumentSymbols, predicateSymbols, Step.symbols, Steps.symbols]
      decide
    · unfold Glued
      decide
  refine ⟨hs, ?_, contextCalls_found hs⟩
  simp only [e, Expr.calls, argumentCalls, Expr.symbols, argumentSymbols]
  decide

end TreeQuery.XPath
