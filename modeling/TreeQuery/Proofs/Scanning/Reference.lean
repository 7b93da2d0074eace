import TreeQuery.Proofs.Lexing.Coverage
import TreeQuery.Proofs.Scanning.Name

/-!
# References are found

The scans for variables and for prefixed names find those that a tree has (`Expr.references`), even
if names are words that could be operators or node types. Main statement: `references_found`.
-/

namespace TreeQuery.XPath

/-! ## References of trees -/

def NodeTest.references : NodeTest → List (Nat × Reference)
  | any (some p) => [(0, .prefixed ⟨p, "*", .wildcard⟩)]
  | name n => n.references .name
  | _ => []

mutual

/-- The references of a tree, in predicates too. The prefix of a variable does not count apart. -/
def Expr.references : Expr → List (Nat × Reference)
  | .binary _ a b => a.references ++ shifted (a.symbols.length + 1) b.references
  | .negate e | .group e => shifted 1 e.references
  | .literal _ | .number _ => []
  | .variable n => [(0, .variable n)]
  | .call n args =>
    n.references .function ++ shifted (n.symbols.length + 1) (argumentReferences args)
  | .filter e p => e.references ++ shifted (e.symbols.length + 1) p.references
  | .relative first rest => first.references ++ shifted first.symbols.length rest.references
  | .absolute steps => steps.references
  | .through e steps => e.references ++ shifted e.symbols.length steps.references

def argumentReferences : List Expr → List (Nat × Reference)
  | [] => []
  | e :: es => e.references ++ shifted (e.symbols.length + 1) (argumentReferences es)

def predicateReferences : List Expr → List (Nat × Reference)
  | [] => []
  | p :: ps =>
    shifted 1 (p.references ++ shifted (p.symbols.length + 1) (predicateReferences ps))

def Step.references : Step → List (Nat × Reference)
  | .here | .up => []
  | .along axis t predicates => shifted axis.symbols.length
      (t.references ++ shifted t.symbols.length (predicateReferences predicates))

def Steps.references : Steps → List (Nat × Reference)
  | .done => []
  | .next _ step rest =>
    shifted 1 (step.references ++ shifted step.symbols.length rest.references)

end

/-! ## Trees do not begin with a colon -/

theorem head_append {ss ss' : List Symbol} (h : ∀ s ∈ ss.head?, s.kind ≠ .colon)
    (h' : ∀ s ∈ ss'.head?, s.kind ≠ .colon) : ∀ s ∈ (ss ++ ss').head?, s.kind ≠ .colon := by
  cases ss with
  | nil => exact h'
  | cons s ss => exact h

theorem head_cons {s : Symbol} (h : s.kind ≠ .colon) (ss : List Symbol) :
    ∀ s' ∈ (s :: ss).head?, s'.kind ≠ .colon := by
  rintro s' ⟨⟩
  exact h

theorem ne_colon_nameSymbol (s : String) : (nameSymbol s).kind ≠ .colon :=
  TokenKind.ne_of_isName (isName_nameSymbol s) rfl

theorem Name.head (n : Name) : ∀ s ∈ n.symbols.head?, s.kind ≠ .colon := by
  unfold Name.symbols
  split <;> exact head_cons (ne_colon_nameSymbol _) _

theorem NodeTest.head (t : NodeTest) : ∀ s ∈ t.symbols.head?, s.kind ≠ .colon := by
  cases t with
  | node | text | comment => exact head_cons (by decide) _
  | instruction target => cases target <;> exact head_cons (by decide) _
  | any pfx =>
    cases pfx with
    | none => exact head_cons (by decide) _
    | some p => exact head_cons (ne_colon_nameSymbol _) _
  | name n => exact n.head

theorem Steps.head (s : Steps) : ∀ t ∈ s.symbols.head?, t.kind ≠ .colon :=
  fun t ht => (steps_follow s t ht).2

theorem Step.head (s : Step) : ∀ t ∈ s.symbols.head?, t.kind ≠ .colon := by
  cases s with
  | here | up =>
    rw [Step.symbols]
    exact head_cons (by decide) _
  | along axis t predicates =>
    rw [Step.symbols]
    refine head_append (head_append ?_ t.head) fun s hs => (predicates_follow predicates s hs).2
    cases axis with
    | implied => exact nofun
    | atSign => exact head_cons (by decide) _
    | named a => exact head_cons (ne_colon_nameSymbol _) _

theorem Operator.ne_colon (op : Operator) : op.symbol.kind ≠ .colon := op.sign.2.2.2.2.1

theorem Expr.head (e : Expr) : ∀ s ∈ e.symbols.head?, s.kind ≠ .colon := by
  match e with
  | .binary op a b =>
    rw [Expr.symbols]
    exact head_append a.head (head_cons op.ne_colon _)
  | .negate _ | .group _ | .literal _ | .variable _ | .absolute .done =>
    rw [Expr.symbols]
    exact head_cons (by rintro ⟨⟩) _
  | .number s =>
    rw [Expr.symbols]
    refine head_cons ?_ _
    show numeralKind s ≠ .colon
    unfold numeralKind
    split <;> decide
  | .call n args =>
    rw [Expr.symbols]
    exact head_append n.head (head_cons (by decide) _)
  | .filter e p =>
    rw [Expr.symbols]
    exact head_append e.head (head_cons (by decide) _)
  | .relative first rest =>
    rw [Expr.symbols]
    exact head_append first.head rest.head
  | .absolute (.next sep step more) =>
    rw [Expr.symbols]
    · exact Steps.head _
    · simp
  | .through e steps =>
    rw [Expr.symbols]
    exact head_append e.head steps.head

theorem arguments_head (es : List Expr) : ∀ s ∈ (argumentSymbols es).head?, s.kind ≠ .colon := by
  rcases es with _ | ⟨e, _ | ⟨e', es⟩⟩
  · simp [argumentSymbols]
  · rw [argumentSymbols]
    exact e.head
  · rw [argumentSymbols]
    · exact head_append e.head (head_cons (by decide) _)
    · simp

/-! ## Expressions -/

theorem NodeTest.finds {t : NodeTest} {us rest : List Token} (hj : Joined us)
    (hu : StandFor us t.symbols) (hr : Follows rest) : FindsReferences us rest t.references := by
  have hname (u : Token) (hu : u.kind.isName = true) : nameUse u rest = .name := by
    rw [nameUse_of_isName hu, if_neg]
    cases rest with
    | nil => exact nofun
    | cons v rest => simpa using (hr v rfl).1
  cases t with
  | node | text | comment => exact hu.finds_nothing (by decide) hr.parted
  | instruction target =>
    cases target with
    | none => exact hu.finds_nothing (by decide) hr.parted
    | some s => exact hu.finds_nothing (by simp [NodeTest.symbols, nodeTypeSymbols, sign]) hr.parted
  | any pfx =>
    cases pfx with
    | none => exact hu.finds_nothing (by decide) hr.parted
    | some p => exact finds_prefixed hj hu (.inr rfl) fun u hk => nameUse_eq_wildcard_iff.2 hk
  | name n => exact Name.finds hj hu hr.parted hname

theorem AxisSpec.finds {a : AxisSpec} {us rest : List Token} (hu : StandFor us a.symbols)
    (hr : Parted rest) : FindsReferences us rest [] := by
  refine hu.finds_nothing ?_ hr
  cases a with
  | implied => decide
  | atSign => decide
  | named a => cases a <;> decide

theorem function_finds {n : Name} {us rest : List Token} {o : Token} (hj : Joined us)
    (hu : StandFor us n.symbols) (ho : o.symbol.plain = (sign .openParen "(").plain) :
    FindsReferences us (o :: rest) (n.references .function) := by
  have hok : o.kind = .openParen := (kind_eq_iff_of_plain ho (by decide)).2 rfl
  refine Name.finds hj hu (parted_cons (by rw [hok]; decide) _) fun u hu => ?_
  rw [nameUse_of_isName hu, if_pos]
  simp [hok]

mutual

/-- The scans find the references of an expression. -/
theorem Expr.finds (e : Expr) {us : List Token} (hu : StandFor us e.symbols) (hj : Joined us)
    {rest : List Token} (hr : Follows rest) : FindsReferences us rest e.references := by
  match e with
  | .binary op a b =>
    rw [Expr.symbols] at hu
    rw [Expr.references, ← shifted_shifted]
    obtain ⟨us, vs, rfl, ha, hv⟩ := standFor_append_iff.1 hu
    obtain ⟨o, vs, rfl, ho, hb⟩ := standFor_cons_iff.1 hv
    obtain ⟨-, -, -, hop, hcolon, -⟩ := op.sign
    have hdollar : op.symbol.kind ≠ .dollar := by cases op <;> decide
    refine (a.finds ha hj.of_append.1 (follows_of_plain ho hop hcolon _)).append
      (.cons ho hdollar (hb.parted b.head hr.parted) ?_) ha.length
    exact b.finds hb hj.of_append.2.of_cons hr
  | .negate e =>
    rw [Expr.symbols] at hu
    rw [Expr.references]
    obtain ⟨o, us, rfl, ho, he⟩ := standFor_cons_iff.1 hu
    exact .cons ho (by decide) (he.parted e.head hr.parted) (e.finds he hj.of_cons hr)
  | .group e =>
    rw [Expr.symbols] at hu
    rw [Expr.references]
    obtain ⟨o, us, rfl, ho, hu₁⟩ := standFor_cons_iff.1 hu
    obtain ⟨us, vs, rfl, he, hc⟩ := standFor_append_iff.1 hu₁
    have hf : Follows (vs ++ rest) := hc.follows (by decide) hr
    refine .cons ho (by decide) ?_ ((e.finds he hj.of_cons.of_append.1 hf).before
      (hc.finds_nothing (by decide) hr.parted))
    rw [List.append_assoc]
    exact he.parted e.head hf.parted
  | .literal s =>
    rw [Expr.symbols] at hu
    rw [Expr.references]
    exact hu.finds_nothing (by simp) hr.parted
  | .number s =>
    rw [Expr.symbols] at hu
    rw [Expr.references]
    refine hu.finds_nothing (fun s' hs => ?_) hr.parted
    rw [List.mem_singleton.1 hs]
    show numeralKind s ≠ .dollar ∧ numeralKind s ≠ .colon
    unfold numeralKind
    split <;> decide
  | .variable n =>
    rw [Expr.symbols] at hu
    rw [Expr.references]
    exact variable_finds hj hu hr.parted
  | .call n args =>
    rw [Expr.symbols] at hu
    rw [Expr.references, ← shifted_shifted]
    obtain ⟨ns, vs, rfl, hn, hv⟩ := standFor_append_iff.1 hu
    obtain ⟨o, vs, rfl, ho, hv₁⟩ := standFor_cons_iff.1 hv
    obtain ⟨us, vs, rfl, hargs, hc⟩ := standFor_append_iff.1 hv₁
    have hf : Follows (vs ++ rest) := hc.follows (by decide) hr
    refine (function_finds hj.of_append.1 hn ho).append (.cons ho (by decide) ?_
      (.before ?_ (hc.finds_nothing (by decide) hr.parted))) hn.length
    · rw [List.append_assoc]
      exact hargs.parted (arguments_head args) hf.parted
    · exact arguments_find args hargs hj.of_append.2.of_cons.of_append.1 hf
  | .filter e p =>
    rw [Expr.symbols] at hu
    rw [Expr.references, ← shifted_shifted]
    obtain ⟨us, vs, rfl, he, hv⟩ := standFor_append_iff.1 hu
    obtain ⟨o, vs, rfl, ho, hv₁⟩ := standFor_cons_iff.1 hv
    obtain ⟨vs, ws, rfl, hp, hc⟩ := standFor_append_iff.1 hv₁
    have hf : Follows (ws ++ rest) := hc.follows (by decide) hr
    refine (e.finds he hj.of_append.1 (follows_of_plain ho (by decide) (by decide) _)).append
      (.cons ho (by decide) ?_ (.before ?_ (hc.finds_nothing (by decide) hr.parted))) he.length
    · rw [List.append_assoc]
      exact hp.parted p.head hf.parted
    · exact p.finds hp hj.of_append.2.of_cons.of_append.1 hf
  | .relative first more =>
    rw [Expr.symbols] at hu
    rw [Expr.references]
    obtain ⟨us, vs, rfl, hfirst, hmore⟩ := standFor_append_iff.1 hu
    exact (first.finds hfirst hj.of_append.1 (hmore.follows (steps_follow more) hr)).append
      (more.finds hmore hj.of_append.2 hr) hfirst.length
  | .absolute .done =>
    rw [Expr.symbols] at hu
    rw [Expr.references, Steps.references]
    exact hu.finds_nothing (by decide) hr.parted
  | .absolute (.next sep step more) =>
    rw [Expr.symbols] at hu
    · rw [Expr.references]
      exact Steps.finds _ hu hj hr
    · nofun
  | .through e steps =>
    rw [Expr.symbols] at hu
    rw [Expr.references]
    obtain ⟨us, vs, rfl, he, hsteps⟩ := standFor_append_iff.1 hu
    exact (e.finds he hj.of_append.1 (hsteps.follows (steps_follow steps) hr)).append
      (steps.finds hsteps hj.of_append.2 hr) he.length

theorem arguments_find (es : List Expr) {us : List Token} (hu : StandFor us (argumentSymbols es))
    (hj : Joined us) {rest : List Token} (hr : Follows rest) :
    FindsReferences us rest (argumentReferences es) := by
  match es with
  | [] =>
    rw [argumentSymbols] at hu
    rw [argumentReferences]
    exact hu.finds_nothing nofun hr.parted
  | [e] =>
    rw [argumentSymbols] at hu
    rw [argumentReferences, argumentReferences, shifted, List.map_nil, List.append_nil]
    exact e.finds hu hj hr
  | e :: e' :: es =>
    rw [argumentSymbols] at hu
    · rw [argumentReferences, ← shifted_shifted]
      obtain ⟨us, vs, rfl, he, hv⟩ := standFor_append_iff.1 hu
      obtain ⟨c, vs, rfl, hc, hes⟩ := standFor_cons_iff.1 hv
      refine (e.finds he hj.of_append.1 (follows_of_plain hc (by decide) (by decide) _)).append
        (.cons hc (by decide) (hes.parted (arguments_head _) hr.parted) ?_) he.length
      exact arguments_find (e' :: es) hes hj.of_append.2.of_cons hr
    · nofun

theorem predicates_find (ps : List Expr) {us : List Token}
    (hu : StandFor us (predicateSymbols ps)) (hj : Joined us) {rest : List Token}
    (hr : Follows rest) : FindsReferences us rest (predicateReferences ps) := by
  match ps with
  | [] =>
    rw [predicateSymbols] at hu
    rw [predicateReferences]
    exact hu.finds_nothing nofun hr.parted
  | p :: ps =>
    rw [predicateSymbols] at hu
    rw [predicateReferences, ← shifted_shifted]
    obtain ⟨o, us, rfl, ho, hu₁⟩ := standFor_cons_iff.1 hu
    obtain ⟨us, vs, rfl, hp, hv⟩ := standFor_append_iff.1 hu₁
    obtain ⟨c, vs, rfl, hc, hps⟩ := standFor_cons_iff.1 hv
    have hfp : Follows (vs ++ rest) := hps.follows (predicates_follow ps) hr
    have hfc : Follows (c :: vs ++ rest) := follows_of_plain hc (by decide) (by decide) _
    refine .cons ho (by decide) ?_ ((p.finds hp hj.of_cons.of_append.1 hfc).append
      (.cons hc (by decide) hfp.parted ?_) hp.length)
    · rw [List.append_assoc]
      exact hp.parted p.head hfc.parted
    · exact predicates_find ps hps hj.of_cons.of_append.2.of_cons hr

theorem Step.finds (s : Step) {us : List Token} (hu : StandFor us s.symbols) (hj : Joined us)
    {rest : List Token} (hr : Follows rest) : FindsReferences us rest s.references := by
  match s with
  | .here | .up =>
    rw [Step.symbols] at hu
    rw [Step.references]
    exact hu.finds_nothing (by decide) hr.parted
  | .along axis t predicates =>
    rw [Step.symbols, List.append_assoc] at hu
    rw [Step.references]
    obtain ⟨us, vs, rfl, ha, hv⟩ := standFor_append_iff.1 hu
    obtain ⟨vs, ws, rfl, ht, hps⟩ := standFor_append_iff.1 hv
    have hf : Follows (ws ++ rest) := hps.follows (predicates_follow predicates) hr
    have hj := hj.of_append.2
    refine .after (AxisSpec.finds ha ?_) ((NodeTest.finds hj.of_append.1 ht hf).append
      (predicates_find predicates hps hj.of_append.2 hr) ht.length) ha.length
    rw [List.append_assoc]
    exact ht.parted t.head hf.parted

theorem Steps.finds (s : Steps) {us : List Token} (hu : StandFor us s.symbols) (hj : Joined us)
    {rest : List Token} (hr : Follows rest) : FindsReferences us rest s.references := by
  match s with
  | .done =>
    rw [Steps.symbols] at hu
    rw [Steps.references]
    exact hu.finds_nothing nofun hr.parted
  | .next sep step more =>
    rw [Steps.symbols] at hu
    rw [Steps.references]
    obtain ⟨o, us, rfl, ho, hu₁⟩ := standFor_cons_iff.1 hu
    obtain ⟨us, vs, rfl, hstep, hmore⟩ := standFor_append_iff.1 hu₁
    have hf : Follows (vs ++ rest) := hmore.follows (steps_follow more) hr
    have hj := hj.of_cons
    refine .cons ho (by cases sep <;> decide) ?_ ((step.finds hstep hj.of_append.1 hf).append
      (more.finds hmore hj.of_append.2 hr) hstep.length)
    rw [List.append_assoc]
    exact hstep.parted step.head hf.parted

end

/-! ## Texts -/

section Texts

variable {last : Option TokenKind} {cs : List Char} {us ts : List Token}

theorem Laid.stars {pos : Nat} (h : Laid last pos cs ts) :
    ts.IsChain fun a b => a.kind = .colon → b.kind ≠ .times := by
  induction h with
  | nil => exact .nil
  | @cons last pos k gap text rest ts blank lexeme ended next ih =>
    refine List.isChain_cons.2 ⟨fun u hu hk => ?_, ih⟩
    have hk : resolveStar last k = .colon := hk
    rw [hk] at next
    cases next with
    | nil => cases hu
    | @cons _ _ k' gap' text' rest' ts' blank' lexeme' ended' next' =>
      cases hu
      show resolveStar (some .colon) k' ≠ .times
      by_cases hs : k' = .star
      · rw [hs]
        exact nofun
      · rw [resolveStar_of_ne hs]
        exact lexeme'.ne_times

/-- What is written from one position to the other. -/
theorem Spans.extract {texts : List (List Char)} {start stop : Nat}
    (h : Spans us texts start stop) (hl : Laid last 0 cs ts) (hu : us <:+: ts) :
    start ≤ stop ∧ cs.extract start stop = texts.flatten := by
  obtain ⟨t, ht, rfl⟩ := Option.map_eq_some_iff.1 h.start
  obtain ⟨u, hlast, rfl⟩ := Option.map_eq_some_iff.1 h.stop
  rw [← h.texts, ← List.flatMap_def]
  exact hl.extract_run hu h.adjacent ht hlast

/-- A variable is written as a `$`, white space and the name. -/
theorem IsVariable.extract {n : Name} {r : VariableReference} (h : IsVariable n r us)
    (hl : Laid last 0 cs ts) (hu : us <:+: ts) :
    ∃ gap, Blank gap ∧ cs.extract r.start r.stop = '$' :: (gap ++ n.texts.flatten) := by
  obtain ⟨d, ns, first, rfl, hd, hstart, hspans⟩ := h.tokens
  obtain ⟨t, ht, rfl⟩ := Option.map_eq_some_iff.1 hspans.start
  obtain ⟨hle, hname⟩ := hspans.extract hl ((List.suffix_cons d ns).isInfix.trans hu)
  have hdollar := hl.extract d (hu.subset List.mem_cons_self)
  have hpair : [d, t] <:+: ts := by
    obtain ⟨ns, rfl⟩ := List.head?_eq_some_iff.1 ht
    exact (List.prefix_append [d, t] ns).isInfix.trans hu
  obtain ⟨hdt, hgap⟩ := hl.blank_between hpair
  have hdd : d.start ≤ d.stop := Nat.le_add_right _ _
  refine ⟨_, hgap, ?_⟩
  rw [← hstart, extract_split cs hdd (by omega), extract_split cs hdt hle, hdollar, hd, hname]
  rfl

theorem variableReferences_sublist (ts : List Token) :
    ((variableReferences ts).map VariableReference.start).Sublist (ts.map Token.start) := by
  fun_induction variableReferences ts with
  | case1 d n rest hd p l rest' hq hl ih => exact (ih.cons _).cons_cons _
  | case2 d n rest hd p l rest' hq hl ih =>
    obtain ⟨c, he, -⟩ := qualified?_eq_some_iff.1 hq
    rw [he]
    exact (((ih.cons _).cons _).cons _).cons_cons _
  | case3 d n rest hd hq ih => exact (ih.cons _).cons_cons _
  | case4 d n rest hd ih => exact ih.cons _
  | case5 => exact List.nil_sublist _

theorem qualifiedNames_sublist (ts : List Token) :
    ((qualifiedNames ts).map QualifiedName.start).Sublist (ts.map Token.start) := by
  fun_induction qualifiedNames ts with
  | case1 => exact List.nil_sublist _
  | case2 d rest hd p l rest' hq ih =>
    obtain ⟨c, rfl, -⟩ := qualified?_eq_some_iff.1 hq
    exact (((ih.cons _).cons _).cons _).cons _
  | case3 d rest hd hq ih => exact (ih.trans ((List.tail_sublist rest).map _)).cons _
  | case4 t rest hd p l rest' hq ih =>
    obtain ⟨c, he, -⟩ := qualified?_eq_some_iff.1 hq
    rw [he]
    exact ((ih.cons _).cons _).cons_cons _
  | case5 t rest hd hq ih => exact ih.cons _

end Texts

/-- A variable that is found in a text: its part of the text is a `$`, white space and its name. -/
structure VariableAt (cs : List Char) (n : Name) (r : VariableReference) (us : List Token) : Prop
    extends IsVariable n r us where
  written : ∃ gap, Blank gap ∧ cs.extract r.start r.stop = '$' :: (gap ++ n.texts.flatten)

/-- A prefixed name that is found in a text: its part of the text is the name. -/
structure PrefixedAt (cs : List Char) (n : PrefixedName) (q : QualifiedName) (us : List Token) :
    Prop extends IsPrefixed n q us where
  written : cs.extract q.start q.stop = n.pfx.toList ++ ':' :: n.localName.toList

/-- In a text in which an expression is written, the scans find exactly its variables and exactly
its prefixed names, wildcards and functions, in order, each with the part of the text where it is
written. -/
theorem references_found {e : Expr} {text : String} (hs : Spaced e.symbols text.toList) :
    ∃ ts, tokenize text = .ok ts ∧ StandFor ts e.symbols ∧
      Found (VariableAt text.toList) ts (picked Reference.variable? e.references)
        (variableReferences ts) ∧
      Found (PrefixedAt text.toList) ts (picked Reference.prefixed? e.references)
        (qualifiedNames ts) ∧
      ((variableReferences ts).map VariableReference.start).Pairwise (· < ·) ∧
      ((qualifiedNames ts).map QualifiedName.start).Pairwise (· < ·) := by
  obtain ⟨ts, hl, hu, hg⟩ := (spaced_iff_laid none 0).1 hs
  have hfollows : Follows [] := nofun
  have hfinds := e.finds hu ⟨hg, hl.stars⟩ hfollows
  have hreferences := hfinds.references.all fun _ => by simp [variableReferences]
  have hnames := hfinds.names.all fun _ => by simp [qualifiedNames]
  refine ⟨ts, hl.tokensFrom_eq, hu, hreferences.imp fun n r us hus h => ⟨h, h.extract hl hus⟩,
    hnames.imp fun n q us hus h => ⟨h, ?_⟩, ?_, ?_⟩
  · simpa using (h.tokens.extract hl hus).2
  · exact hl.ordered.1.starts.sublist (variableReferences_sublist ts)
  · exact hl.ordered.1.starts.sublist (qualifiedNames_sublist ts)

/-- Words that could be operators or node types as prefixes and names, a wildcard, a function, an
axis, a literal, and a `$` with white space after it. -/
theorem references_found_words :
    let text := "f:g($ p:and, child::text:node[q:* = 'a:b'])"
    let e : Expr := .call ⟨some "f", "g"⟩ [.variable ⟨some "p", "and"⟩,
      .relative (.along (.named .child) (.name ⟨some "text", "node"⟩)
        [.binary .eq (.relative (.along .implied (.any (some "q")) []) .done)
          (.literal "a:b")]) .done]
    Spaced e.symbols text.toList ∧ e.references.map Prod.fst = [0, 4, 11, 15] ∧
      ∃ ts, tokenize text = .ok ts ∧ StandFor ts e.symbols ∧
        Found (VariableAt text.toList) ts (picked Reference.variable? e.references)
          (variableReferences ts) ∧
        Found (PrefixedAt text.toList) ts (picked Reference.prefixed? e.references)
          (qualifiedNames ts) ∧
        ((variableReferences ts).map VariableReference.start).Pairwise (· < ·) ∧
        ((qualifiedNames ts).map QualifiedName.start).Pairwise (· < ·) := by
  intro text e
  have hs : Spaced e.symbols "f:g($ p:and, child::text:node[q:* = 'a:b'])".toList := by
    refine spaced_iff.2 ⟨_, tokenize_of_readFrom rfl, ?_, ?_⟩
    · simp only [e, Expr.symbols, argumentSymbols, predicateSymbols, Step.symbols, Steps.symbols]
      decide
    · unfold Glued
      decide
  refine ⟨hs, ?_, references_found hs⟩
  simp only [e, Expr.references, argumentReferences, predicateReferences, Step.references,
    Steps.references, Expr.symbols, Step.symbols, Steps.symbols, predicateSymbols]
  decide

end TreeQuery.XPath
