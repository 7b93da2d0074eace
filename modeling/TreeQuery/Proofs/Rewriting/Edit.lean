import TreeQuery.Proofs.Lexing.Name
import TreeQuery.Proofs.Rewriting.Fitting

/-!
# What references become

A prefixed variable reference becomes a name of the engine, and a prefixed name whose prefix stands
for nothing becomes its local name or a test for no namespace. Each of them can stand where the
reference stood (`reads_edit`), and the replacements of a plan are these edits and its anchors
(`mergeSort_replacements`).
-/

namespace TreeQuery.XPath

/-! ## Texts in the place of references -/

theorem lexemesOf_of_isLexeme {k : TokenKind} {s : String} (h : IsLexeme k s.toList) :
    lexemesOf s = [s.toList] := by
  have hs : Spelled s.toList [s.toList] := by
    have := Spelled.lexeme_append h Blank.nil.ended (.nil .nil)
    rwa [List.append_nil] at this
  exact hs.lexemesOf_eq

/-- A name can stand for names. -/
theorem reads_name {first last : Token} {k : TokenKind} {s : String} (hf : first.IsLexeme)
    (hfn : first.isName = true) (hln : last.isName = true) (h : IsLexeme k s.toList)
    (hk : k.isName = true) : Reads first last s.toList (lexemesOf s) where
  front he := ended_of_names (hf.of_isName hfn) h hfn hk he
  spelled hs he := by
    rw [lexemesOf_of_isLexeme h]
    exact hs.lexeme_append h (he.of_isName hln hk)

theorem toList_dollar (s : String) : ("$" ++ s).toList = '$' :: s.toList := by
  rw [String.toList_append]
  rfl

theorem Spelled.dollar {rest : List Char} {us : List (List Char)} (h : Spelled rest us) :
    Spelled ('$' :: rest) (['$'] :: us) :=
  h.lexeme_append (⟨rfl, by decide⟩ : IsLexeme .dollar ['$']) (ended_of_never fun _ => rfl)

theorem lexemesOf_dollar {k : TokenKind} {s : String} (h : IsLexeme k s.toList) :
    lexemesOf ("$" ++ s) = [['$'], s.toList] := by
  have hs : Spelled ("$" ++ s).toList [['$'], s.toList] := by
    have := (Spelled.lexeme_append h Blank.nil.ended (.nil .nil)).dollar
    rwa [List.append_nil, ← toList_dollar] at this
  exact hs.lexemesOf_eq

/-- A variable can stand for anything that begins with a `$` and ends in a name. -/
theorem reads_variable {first last : Token} {k : TokenKind} {s : String}
    (hln : last.isName = true) (h : IsLexeme k s.toList) (hk : k.isName = true) :
    Reads first last ("$" ++ s).toList (lexemesOf ("$" ++ s)) where
  front _ := by
    rw [toList_dollar]
    exact ended_standsAlone rfl
  spelled hs he := by
    rw [lexemesOf_dollar h, toList_dollar]
    exact (hs.lexeme_append h (he.of_isName hln hk)).dollar

theorem lexemesOf_wildcard : lexemesOf "*[namespace-uri()='']" =
    ["*", "[", "namespace-uri", "(", ")", "=", "''", "]"].map String.toList := by
  have h := spelled_wildcard (.nil .nil)
  rw [List.append_nil, List.append_nil] at h
  exact h.lexemesOf_eq

theorem reads_wildcard {first last : Token} : Reads first last "*[namespace-uri()='']".toList
    (lexemesOf "*[namespace-uri()='']") where
  front _ := ended_standsAlone (by decide)
  spelled hs _ := by
    rw [lexemesOf_wildcard]
    exact spelled_wildcard hs

end TreeQuery.XPath

/-! ## Names of the engine -/

namespace TreeQuery.Plan

open XPath

theorem isLexeme_freshVariable (n : Nat) :
    ∃ k, k.isName = true ∧ IsLexeme k (freshVariable n).toList := by
  have ht : (freshVariable n).toList = '_' :: ("_xpv".toList ++
      (List.replicate (2 - (Nat.toDigits 10 n).length) '0' ++ Nat.toDigits 10 n)) := by
    simp only [freshVariable, String.toList_append, String.toList_ofList]
    rfl
  refine ⟨_, nameKind_isName _, ht ▸ isLexeme_nameKind (by decide) (by decide) fun d hd => ?_⟩
  rcases List.mem_append.1 hd with hd | hd
  · have hall : "_xpv".toList.all Text.isNameChar = true := by decide
    exact List.all_eq_true.1 hall d hd
  · refine isNameChar_of_isDigit ?_
    rcases List.mem_append.1 hd with hd | hd
    · rw [List.eq_of_mem_replicate hd]
      rfl
    · exact Nat.isDigit_of_mem_toDigits (by decide) (by decide) hd

/-- Prefixed variables have numbered names. -/
def Numbered (known : List EngineVariable) : Prop :=
  ∀ v ∈ known, v.pfx.isSome = true → ∃ n, v.engineName = freshVariable n

theorem numbered_addVariable {known : List EngineVariable} (h : Numbered known)
    (r : VariableReference) : Numbered (addVariable known r) := by
  unfold addVariable
  split
  · exact h
  · intro v hv hp
    rcases List.mem_append.1 hv with hv | hv
    · exact h v hv hp
    · cases List.mem_singleton.1 hv
      refine ⟨known.length, if_neg fun hn => ?_⟩
      rw [Option.isNone_iff_eq_none.1 hn] at hp
      cases hp

theorem numbered_variablesOf (rs : List VariableReference) : Numbered (variablesOf rs) := by
  have h (known : List EngineVariable) (hk : Numbered known) :
      Numbered (rs.foldl addVariable known) := by
    induction rs generalizing known with
    | nil => exact hk
    | cons r rs ih => exact ih _ (numbered_addVariable hk r)
  exact h [] (by simp [Numbered])

theorem isLexeme_engineName (rs : List VariableReference) {r : VariableReference} {k : TokenKind}
    (hp : r.pfx.isSome = true) (hk : k.isName = true) (hr : IsLexeme k r.name.toList) :
    ∃ k, k.isName = true ∧ IsLexeme k (engineName (variablesOf rs) r).toList := by
  unfold engineName
  cases h : findVariable? (variablesOf rs) r.pfx r.name with
  | none => exact ⟨k, hk, hr⟩
  | some v =>
    have hv := List.find?_some h
    rw [Bool.and_eq_true, beq_iff_eq] at hv
    obtain ⟨n, hn⟩ := numbered_variablesOf rs v (List.mem_of_find?_eq_some h) (hv.1 ▸ hp)
    show ∃ k, k.isName = true ∧ IsLexeme k v.engineName.toList
    rw [hn]
    exact isLexeme_freshVariable n

/-! ## References of blocks -/

/-- Whether a name has a prefix that neither the query nor a scope maps to a namespace. -/
def isUnresolved (p : Plan) (uriOf : String → String) (q : QualifiedName) : Bool :=
  p.unbound.contains q.pfx && uriOf q.pfx == ""

variable {p : Plan} {uriOf : String → String} {anchored : Bool} {ts : List Token}
  {bs : List Block} {b : Block}

/-- The name of a block, if it is one that loses its prefix. -/
def dropped? (p : Plan) (uriOf : String → String) (b : Block) : Option QualifiedName :=
  b.qualifiedName?.filter fun q => q.use != .function && p.isUnresolved uriOf q

theorem dropped?_span {q : QualifiedName} (h : dropped? p uriOf b = some q) :
    q.start = b.start ∧ q.stop = b.stop := by
  have hq := (Option.filter_eq_some_iff.1 h).1
  cases b with
  | name => cases hq; exact ⟨rfl, rfl⟩
  | _ => cases hq

theorem reference?_span {r : VariableReference} (h : b.reference? = some r) :
    r.start = b.start ∧ r.stop = b.stop := by
  cases b with
  | reference => cases h; exact ⟨rfl, rfl⟩
  | _ => cases h

/-! ## Edits -/

/-- What stands in the place of a block. -/
def edit (p : Plan) (uriOf : String → String) (b : Block) : Option String :=
  (b.reference?.map fun r => "$" ++ engineName p.engineVariables r).or
    ((dropped? p uriOf b).map fun q =>
      if q.use = .wildcard then noNamespaceWildcard else q.localName)

theorem edit_reference {d q c l : Token} : edit p uriOf (.reference d q c l) =
    some ("$" ++ engineName p.engineVariables ⟨some q.string, l.string, d.start, l.stop⟩) := rfl

/-- The replacement that renames a variable. -/
def variableRename (p : Plan) (r : VariableReference) : Replacement :=
  ⟨r.start, r.stop, "$" ++ engineName p.engineVariables r⟩

/-- The replacement that drops a prefix. -/
def prefixDrop (q : QualifiedName) : Replacement :=
  ⟨q.start, q.stop, if q.use = .wildcard then noNamespaceWildcard else q.localName⟩

theorem editOf_edit (b : Block) : editOf (edit p uriOf) b =
    (b.reference?.map (variableRename p)).or ((dropped? p uriOf b).map prefixDrop) := by
  cases hr : b.reference? with
  | some r =>
    obtain ⟨hs, he⟩ := reference?_span hr
    simp [editOf, edit, hr, variableRename, hs, he]
  | none =>
    cases hq : dropped? p uriOf b with
    | none => simp [editOf, edit, hr, hq]
    | some q =>
      obtain ⟨hs, he⟩ := dropped?_span hq
      simp [editOf, edit, hr, hq, prefixDrop, hs, he]

/-- What is listed apart for different blocks may as well be listed block by block. -/
theorem filter_filterMap_or {f g : Block → Option Replacement}
    (hf : ∀ b r, f b = some r → r.start = b.start) (hg : ∀ b r, g b = some r → r.start = b.start)
    (hfg : ∀ b, f b = none ∨ g b = none) (h : InOrder bs) (start stop : Nat) :
    (bs.filterMap f).filter (Replacement.spans start stop) ++
        (bs.filterMap g).filter (Replacement.spans start stop) =
      (bs.filterMap fun b => (f b).or (g b)).filter (Replacement.spans start stop) := by
  induction bs with
  | nil => rfl
  | cons b bs ih =>
    have ih := ih h.of_cons
    rw [List.filterMap_cons, List.filterMap_cons, List.filterMap_cons]
    cases hfb : f b with
    | some r =>
      have hgb : g b = none := by
        rcases hfg b with hn | hn
        · rw [hfb] at hn
          cases hn
        · exact hn
      rw [hgb]
      simp only [Option.some_or, List.filter_cons]
      split
      · rw [List.cons_append, ih]
      · exact ih
    | none =>
      cases hgb : g b with
      | none => exact ih
      | some r =>
        simp only [Option.none_or, List.filter_cons]
        split
        · -- No later block starts here.
          rename_i hs
          have hnone : (bs.filterMap f).filter (Replacement.spans start stop) = [] := by
            rw [List.filter_eq_nil_iff]
            intro r' hr' hs'
            obtain ⟨b', hb', hr'⟩ := List.mem_filterMap.1 hr'
            have := (List.pairwise_cons.1 h.sorted).1 b' hb'
            have := h.proper b List.mem_cons_self
            have := hf b' r' hr'
            have := hg b r hgb
            have := (Replacement.spans_iff.1 hs).1
            have := (Replacement.spans_iff.1 hs').1
            omega
          rw [hnone, List.nil_append] at ih ⊢
          rw [ih]
        · exact ih

theorem isDropped_resolved (l : List String) (pfx : String) :
    isDropped (l.map fun x => (x, uriOf x)) pfx = (l.contains pfx && uriOf pfx == "") := by
  induction l with
  | nil => rfl
  | cons x l ih =>
    unfold isDropped at ih ⊢
    rw [List.map_cons, List.lookup_cons, List.contains_cons]
    by_cases hx : pfx = x
    · subst hx
      simp
    · rw [beq_false_of_ne hx]
      simpa using ih

theorem filterMap_dropPrefix? (names : List QualifiedName) :
    (names.filter fun q => isDropped (p.unbound.map fun x => (x, uriOf x)) q.pfx).filterMap
        dropPrefix? =
      (names.filter fun q => q.use != .function && p.isUnresolved uriOf q).map prefixDrop := by
  simp only [isDropped_resolved]
  rw [← List.filterMap_eq_map, List.filterMap_filter, List.filterMap_filter]
  refine List.filterMap_congr fun q _ => ?_
  rw [isUnresolved]
  cases p.unbound.contains q.pfx && uriOf q.pfx == "" with
  | false => simp
  | true => cases hu : q.use <;> simp [dropPrefix?, prefixDrop, hu]

/-- The replacements of a plan are those of the references of blocks, and its anchors. -/
theorem replacements_eq (hd : Division ts bs)
    (hr : p.renames = renamesOf p.engineVariables (variableReferences ts))
    (hn : p.names = qualifiedNames ts) :
    p.replacements (p.unbound.map fun x => (x, uriOf x)) anchored =
      bs.filterMap (fun b => b.reference?.map (variableRename p)) ++
        (if anchored then p.anchors else []) ++
          bs.filterMap (fun b => (dropped? p uriOf b).map prefixDrop) := by
  have hrename : p.renames = bs.filterMap fun b => b.reference?.map (variableRename p) := by
    rw [hr, renamesOf, ← hd.references, List.map_filterMap]
    rfl
  have hdrop : (p.names.filter fun q =>
      isDropped (p.unbound.map fun x => (x, uriOf x)) q.pfx).filterMap dropPrefix? =
        bs.filterMap fun b => (dropped? p uriOf b).map prefixDrop := by
    rw [filterMap_dropPrefix?, hn, ← hd.names, List.filter_filterMap, List.map_filterMap]
    rfl
  rw [replacements, hrename, hdrop]

theorem variableRename_span {r : Replacement}
    (h : b.reference?.map (variableRename p) = some r) : r.start = b.start ∧ r.stop = b.stop := by
  obtain ⟨v, hv, rfl⟩ := Option.map_eq_some_iff.1 h
  exact reference?_span hv

theorem prefixDrop_span {r : Replacement}
    (h : (dropped? p uriOf b).map prefixDrop = some r) : r.start = b.start ∧ r.stop = b.stop := by
  obtain ⟨q, hq, rfl⟩ := Option.map_eq_some_iff.1 h
  exact dropped?_span hq

theorem filter_self {f : Block → Option Replacement}
    (hf : ∀ {b r}, f b = some r → r.start = b.start ∧ r.stop = b.stop) (h : InOrder bs)
    (position : Nat) : (bs.filterMap f).filter (Replacement.spans position position) = [] := by
  rw [List.filter_eq_nil_iff]
  intro r hr hs
  obtain ⟨b, hb, hr⟩ := List.mem_filterMap.1 hr
  have := h.proper b hb
  have := hf hr
  have := Replacement.spans_iff.1 hs
  omega

theorem mergeSort_replacements (h : Divided ts bs) (hd : Division ts bs)
    (hr : p.renames = renamesOf p.engineVariables (variableReferences ts))
    (hn : p.names = qualifiedNames ts) (ha : p.anchors = anchorsOf ts) :
    (p.replacements (p.unbound.map fun x => (x, uriOf x)) anchored).mergeSort Replacement.le =
      arranged (if anchored then openings ts else []) (if anchored then closings ts else [])
        (edit p uriOf) bs := by
  have hopen : ∀ r ∈ if anchored then openings ts else [],
      r = .insertion r.start r.text ∧ ∃ b ∈ bs, b.start = r.start := by
    intro r hr
    split at hr
    · exact ⟨openings_insertion hr, openings_start h r hr⟩
    · cases hr
  have hclose : ∀ r ∈ if anchored then closings ts else [],
      r = .insertion r.start r.text ∧ ∃ b ∈ bs, b.stop = r.start := by
    intro r hr
    split at hr
    · exact ⟨closings_insertion hr, closings_stop h r hr⟩
    · cases hr
  refine mergeSort_eq_arranged h.inOrder (fun r hr => (hopen r hr).1) (fun r hr => (hclose r hr).1)
    (fun r hr => (hopen r hr).2) (fun r hr => (hclose r hr).2) (fun position => ?_)
    fun start stop hne => ?_
  · rw [replacements_eq hd hr hn, List.filter_append, List.filter_append,
      filter_self variableRename_span h.inOrder, filter_self prefixDrop_span h.inOrder,
      List.nil_append, List.append_nil, ha]
    split
    · exact filter_anchorsOf h.ordered position
    · rfl
  · have hanchors : (if anchored then p.anchors else []).filter (Replacement.spans start stop) =
        [] := by
      rw [List.filter_eq_nil_iff]
      intro r hr hs
      split at hr
      · have := stop_of_mem_anchorsOf (ha ▸ hr)
        have := Replacement.spans_iff.1 hs
        omega
      · cases hr
    rw [replacements_eq hd hr hn, List.filter_append, List.filter_append, hanchors,
      List.append_nil, filter_filterMap_or (fun _ _ hb => (variableRename_span hb).1)
        (fun _ _ hb => (prefixDrop_span hb).1) (fun b => ?_) h.inOrder, ← funext editOf_edit]
    cases b with
    | reference => exact .inr rfl
    | _ => exact .inl rfl

theorem isLexeme_local (h : Divided ts bs) (hb : b ∈ bs) {q c : Token}
    (hq : isQualified q c b.last = true) (hstar : b.last.kind ≠ .star) :
    b.last.isName = true ∧ IsLexeme b.last.kind b.last.string.toList := by
  have hn : b.last.isName = true := by
    obtain ⟨-, -, hl | hl, -⟩ := isQualified_iff.1 hq
    · exact hl
    · exact absurd hl hstar
  rw [Token.string, String.toList_ofList]
  exact ⟨hn, (h.lexemes _ (h.last_mem hb)).of_isName hn⟩

theorem isLexeme_reference (h : Divided ts bs) {d q c l : Token} (hb : .reference d q c l ∈ bs)
    (hp : p.engineVariables = variablesOf (variableReferences ts)) :
    l.isName = true ∧ ∃ k, k.isName = true ∧ IsLexeme k (engineName p.engineVariables
      ⟨some q.string, l.string, d.start, l.stop⟩).toList := by
  obtain ⟨-, hq, hstar⟩ := h.valid _ hb
  obtain ⟨hn, hl⟩ := isLexeme_local h hb hq hstar
  rw [hp]
  exact ⟨hn, isLexeme_engineName _ rfl (Token.isName_eq l ▸ hn) hl⟩

theorem reads_edit (h : Divided ts bs) (hb : b ∈ bs)
    (hp : p.engineVariables = variablesOf (variableReferences ts)) :
    ∀ s ∈ edit p uriOf b, Reads b.first b.last s.toList (lexemesOf s) := by
  intro s hs
  cases b with
  | single t => cases hs
  | reference d q c l =>
    cases hs
    obtain ⟨hn, k, hk, hlex⟩ := isLexeme_reference h hb hp
    exact reads_variable hn hlex hk
  | name q c l use =>
    obtain ⟨hq, hw⟩ := h.valid _ hb
    obtain ⟨n, hn, rfl⟩ := Option.map_eq_some_iff.1 hs
    cases (Option.filter_eq_some_iff.1 hn).1
    split
    · exact reads_wildcard
    · rename_i hne
      obtain ⟨hln, hll⟩ := isLexeme_local h hb hq fun hl => hne (hw.2 hl)
      exact reads_name (h.lexemes _ (h.first_mem hb)) (isQualified_iff.1 hq).1 hln hll
        (Token.isName_eq l ▸ hln)

theorem fits_edit (h : Divided ts bs) (hb : b ∈ bs)
    (hp : p.engineVariables = variablesOf (variableReferences ts)) :
    (changeBy [] [] (edit p uriOf) b).Fits b where
  before := .inl nofun
  instead := reads_edit h hb hp
  after := .inl nofun

end TreeQuery.Plan
