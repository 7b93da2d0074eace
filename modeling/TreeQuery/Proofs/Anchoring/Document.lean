import TreeQuery.Proofs.Anchoring.Anchors
import TreeQuery.Proofs.Anchoring.Glue
import TreeQuery.Proofs.Anchoring.Meaning
import TreeQuery.Proofs.Anchoring.Root
import TreeQuery.Proofs.Rewriting.Request
import TreeQuery.Query.Engine

/-!
# Expressions anchored at a document

An expression with the anchors of a plan reads as its anchored tree (`readsAs_anchored`), which has
at any node of a document the value that the expression has at the document. A path that selects
the root has the document for its value, and so no engine is asked for it.
-/

namespace TreeQuery.Plan

open XPath

/-! ## Anchored texts -/

section Texts

variable {expression : String} {ts : List Token}

theorem divided_single {pos : Nat} {cs : List Char} (h : Laid none pos cs ts) :
    Divided ts (ts.map Block.single) where
  ordered := h.ordered.1
  lexemes := h.isLexeme
  tokens := by
    rw [List.flatMap_map]
    exact List.flatMap_singleton' ts
  valid := by
    intro b hb
    obtain ⟨t, -, rfl⟩ := List.mem_map.1 hb
    trivial

theorem mergeSort_anchorsOf (h : Divided ts (ts.map Block.single)) :
    (anchorsOf ts).mergeSort Replacement.le =
      arranged (openings ts) (closings ts) (fun _ => none) (ts.map Block.single) := by
  refine mergeSort_eq_arranged h.inOrder (fun _ => openings_insertion)
    (fun _ => closings_insertion) (openings_start h) (closings_stop h)
    (filter_anchorsOf h.ordered) fun start stop hne => ?_
  have hnone : (ts.map Block.single).filterMap (editOf fun _ => none) = [] :=
    List.filterMap_eq_nil_iff.2 fun _ _ => rfl
  rw [hnone, List.filter_nil, List.filter_eq_nil_iff]
  intro r hr hs
  obtain ⟨hstart, hstop⟩ := Replacement.spans_iff.1 hs
  exact hne (hstart.symm.trans ((stop_of_mem_anchorsOf hr).symm.trans hstop))

/-- Nothing is put before a colon. -/
theorem start_ne_of_colon (h : Ordered ts) {t : Token} (ht : t ∈ ts) (hk : t.kind = .colon)
    {r : Replacement} (hr : r ∈ openings ts) : r.start ≠ t.start := by
  obtain ⟨us, u, vs, he, hs, hu⟩ : ∃ us u vs, ts = us ++ u :: vs ∧ r.start = u.start ∧
      u.kind ≠ .colon := by
    rcases mem_openings hr with ⟨hx, -⟩ | ⟨c, hc, rfl⟩
    · obtain ⟨us, u, vs, he, hs, hp⟩ := mem_relativePaths hx
      refine ⟨us, u, vs, he, hs.symm, fun hk => ?_⟩
      have hstep := (beginsPath_iff.1 hp).1
      rw [hk] at hstep
      cases hstep
    · obtain ⟨us, n, p, vs, he, hcall⟩ := mem_contextCalls hc
      obtain ⟨_, _, _, rfl⟩ := hcall.call
      refine ⟨us, n, p :: vs, he, rfl, ?_⟩
      rw [hcall.name]
      exact nofun
  intro hst
  obtain ⟨ws, zs, hw⟩ := List.append_of_mem ht
  obtain ⟨-, rfl, -⟩ := h.eq_of_start he hw (hs.symm.trans hst)
  exact hu hk

/-- What anchors put around tokens leaves colons alone. -/
theorem spares_anchors (h : Divided ts (ts.map Block.single)) {t : Token} (ht : t ∈ ts) :
    Spares (changeBy (openings ts) (closings ts) fun _ => none) t := by
  have hb : Block.single t ∈ ts.map Block.single := List.mem_map_of_mem ht
  refine ⟨fits_changeBy h hb nofun, fun s hs => ?_, rfl, fun s hs => ?_, fun hk => ?_⟩
  · rw [before_changeBy h.ordered] at hs
    rcases List.mem_append.1 hs with hs | hs
    · split at hs
      · exact .inl (List.mem_singleton.1 hs)
      · cases hs
    · exact .inr (mem_langTexts hs)
  · rcases after_changeBy h hb with ha | ⟨ha, -, -⟩
    · exact .inr (ha s hs)
    · rw [ha] at hs
      exact .inl (List.mem_singleton.1 hs)
  · refine List.map_eq_nil_iff.2 (List.filter_eq_nil_iff.2 fun r hr hspan => ?_)
    exact start_ne_of_colon h.ordered ht hk hr (Replacement.spans_iff.1 hspan).1

/-- With anchors, an expression is read as its tokens with what the anchors put around them. -/
theorem tokenize_anchored (h : tokenize expression = .ok ts) :
    ∃ ts', tokenize (splice expression (anchorsOf ts)) = .ok ts' ∧
      ts'.map Token.string = XPath.made (relativePaths ts) (contextCalls ts) ts ∧
      (Glued ts → Glued ts') := by
  have hl := laid_of_tokensFrom h
  have hb := divided_single hl
  have hsort := mergeSort_anchorsOf hb
  obtain ⟨-, ts', ht, hts⟩ := splice_arranged hl hb hsort
    (fun b hb' => fits_changeBy hb hb' nofun) (joins_changeBy hb)
  refine ⟨ts', ht, ?_, fun hg => ?_⟩
  · rw [map_string hts, List.flatMap_map, List.map_flatMap]
    refine List.flatMap_congr fun t ht => ?_
    rw [Change.lexemes, List.map_append, List.map_append, opened_eq hb.ordered, closed_eq]
    show opened ts t ++ [t.string] ++ closed ts t = opened ts t ++ t.string :: closed ts t
    rw [List.append_assoc]
    rfl
  · have hl' := laid_of_tokensFrom ht
    refine hl'.glued ?_
    rw [hts, splice, String.toList_ofList, hsort]
    exact (@tight_changed _ none [] _ _ hl hg fun t ht => spares_anchors hb ht).1

/-- With anchors, an expression reads as the anchored tree. -/
theorem readsAs_anchored {e : Expr} (h : tokenize expression = .ok ts) (he : e.Formed)
    (hr : ReadsAs ts e) : ∃ ts', tokenize (splice expression (anchorsOf ts)) = .ok ts' ∧
      ReadsAs ts' e.anchored := by
  have hl := laid_of_tokensFrom h
  obtain ⟨ts', ht, hts, hg⟩ := tokenize_anchored h
  have hsymbols := map_symbol_of_readsAs hl he hr
  have hs : Sound ts := ⟨hl.ordered.1, hl.isLexeme, hr.glued⟩
  have hstarts : Starts none := fun l hl => by cases hl
  have hfollows : Follows [] := fun t ht => by cases ht
  obtain ⟨R, C, ha⟩ := e.anchors he hsymbols hs hstarts hfollows
  have hR : relativePaths ts = R := by
    have h := ha.scans.paths
    rwa [List.append_nil, relativePathsFrom, List.append_nil] at h
  have hC : contextCalls ts = C := by
    have h := ha.scans.calls
    rwa [List.append_nil, contextCallsFrom, List.append_nil] at h
  refine ⟨ts', ht, ?_, hg hr.glued⟩
  rw [← ha.reads, ← hR, ← hC, ← hts, List.map_map]
  exact List.map_congr_left fun t ht' => (plainOf_string ((laid_of_tokensFrom ht).isLexeme t ht')).symm

end Texts

/-! ## Documents -/

/-- No engine is asked for a path that selects the root: its value is the document. -/
theorem results_of_selects {η σ ε : Type} {expression : String} {bound : List Namespace}
    {ts : List Token} {q : CompiledQuery η σ} (hq : q.plan = Plan.make expression bound ts)
    (engine : Engine η ε) {f : Forest} {id : NodeId} {n : Navigator} (s : ε)
    (hb : (Navigator.bind f (.node id)).run {} = (.ok (), n))
    (h : XPath.selectsRoot ts = true ∨ f.class? id = some .document ∧ XPath.selectsContext ts = true) :
    q.results engine f (.node id) s = (⟨(f.document? id).toList.map .node, none⟩, q, s) := by
  have hselects : (q.plan.selectsRoot ||
      (f.class? id == some .document && q.plan.selectsContext)) = true := by
    rw [hq]
    show (XPath.selectsRoot ts || (f.class? id == some .document && XPath.selectsContext ts)) = true
    rcases h with h | ⟨hd, h⟩
    · rw [h, Bool.true_or]
    · rw [hd, h, Bool.or_eq_true]
      exact .inr rfl
  rw [CompiledQuery.results, hb]
  exact if_pos hselects

/-- What anchors make of an expression reads as a tree that has, at any node of a document, the
value of the expression at the document; and paths that are said to select the root do so. -/
theorem anchors_preserve_value {expression : String} {ts : List Token} {e : Expr}
    (h : tokenize expression = .ok ts) (he : e.Formed) (hr : ReadsAs ts e) :
    (∃ ts' e', tokenize (splice expression (anchorsOf ts)) = .ok ts' ∧ ReadsAs ts' e' ∧
      e'.Formed ∧ ∀ (env : Environment) (n : XNode),
        (∀ v, valueAt env (documentNode env.documents n.place.document) e = some v →
          valueAt env n e' = some v) ∧
        (e.callsLang = false → valueAt env n e' =
          valueAt env (documentNode env.documents n.place.document) e)) ∧
    (∀ env n, XPath.selectsRoot ts = true →
      valueAt env n e = some (.nodes [documentNode env.documents n.place.document])) ∧
    (∀ env d, XPath.selectsContext ts = true → valueAt env (documentNode env.documents d) e =
      some (.nodes [documentNode env.documents d])) ∧
    (∀ (η σ ε : Type) (bound : List Namespace) (q : CompiledQuery η σ) (engine : Engine η ε)
      (f : Forest) (id : NodeId) (n : Navigator) (s : ε),
      q.plan = Plan.make expression bound ts →
      (Navigator.bind f (.node id)).run {} = (.ok (), n) →
      XPath.selectsRoot ts = true ∨ f.class? id = some .document ∧ XPath.selectsContext ts = true →
      q.results engine f (.node id) s =
        (⟨(f.document? id).toList.map .node, none⟩, q, s)) := by
  have hsymbols := map_symbol_of_readsAs (laid_of_tokensFrom h) he hr
  obtain ⟨ts', ht, hr'⟩ := readsAs_anchored h he hr
  refine ⟨⟨ts', e.anchored, ht, hr', e.formed_anchored he, fun env n => ?_⟩, fun env n hs => ?_,
    fun env d hs => ?_, fun η σ ε bound q engine f id n s hq hb hs => ?_⟩
  · exact ⟨fun v => valueAt_anchored, valueAt_anchored_eq⟩
  · exact valueAt_of_selectsRoot he hsymbols hs env n
  · exact valueAt_of_selectsContext he hsymbols hs env _
  · exact results_of_selects hq engine s hb hs

/-- A context call, a relative path and a call of `lang`. -/
theorem anchors_preserve_value_calls :
    let ts : List Token := [⟨.name, ['n', 'a', 'm', 'e'], 0⟩, ⟨.openParen, ['('], 4⟩,
      ⟨.closeParen, [')'], 5⟩, ⟨.equality, ['='], 6⟩, ⟨.name, ['a'], 7⟩,
      ⟨.and, ['a', 'n', 'd'], 9⟩, ⟨.name, ['l', 'a', 'n', 'g'], 13⟩, ⟨.openParen, ['('], 17⟩,
      ⟨.literal, ['\'', 'x', '\''], 18⟩, ⟨.closeParen, [')'], 21⟩]
    let e : Expr := .binary .and
      (.binary .eq (.call ⟨none, "name"⟩ [])
        (.relative (.along .implied (.name ⟨none, "a"⟩) []) .done))
      (.call ⟨none, "lang"⟩ [.literal "x"])
    tokenize "name()=a and lang('x')" = .ok ts ∧ e.Formed ∧ ReadsAs ts e ∧
      ∃ ts' e', tokenize (splice "name()=a and lang('x')" (anchorsOf ts)) = .ok ts' ∧
        ReadsAs ts' e' ∧ e'.Formed ∧ ∀ (env : Environment) (n : XNode) (v : XValue),
          valueAt env (documentNode env.documents n.place.document) e = some v →
            valueAt env n e' = some v := by
  intro ts e
  have h : tokenize "name()=a and lang('x')" = .ok ts :=
    tokenize_of_readFrom (by decide +kernel)
  have he : e.Formed := by
    simp only [e, Expr.Formed, AllFormed, Step.Formed, Steps.Formed, NodeTest.Formed,
      Name.Formed, Name.IsFunction, IsPlainName]
    decide
  have hr : ReadsAs ts e := by
    constructor
    · simp only [e, Expr.symbols, argumentSymbols, predicateSymbols, Step.symbols, Steps.symbols]
      decide
    · unfold Glued
      decide
  obtain ⟨ts', e', ht, hr', he', hv⟩ := (anchors_preserve_value h he hr).1
  exact ⟨h, he, hr, ts', e', ht, hr', he', fun env n v => (hv env n).1 v⟩

end TreeQuery.Plan