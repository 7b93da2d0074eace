import TreeQuery.Proofs.Handles.Verbatim
import TreeQuery.Proofs.Path.Selected
import TreeQuery.Proofs.Path.Written
import TreeQuery.Proofs.Scanning.Name

/-!
# Absolute paths are asked as they are

The path of a node needs no bindings and no anchor: the scans find nothing in it, whatever words the
names in the tree are and whatever the URIs hold, so an engine is asked for the very path. Main
statement: `absolutePath_passesThrough`.
-/

namespace TreeQuery

open XPath

/-! ## Scans along absolute paths -/

namespace XPath

theorem absolute_quiet {steps : Steps} {ts : List Token}
    (hu : StandFor ts (Expr.absolute steps).symbols) : Quiet none ts [] := by
  cases steps with
  | done =>
    rw [Expr.symbols] at hu
    obtain ⟨t, rfl, ht⟩ := standFor_singleton_iff.1 hu
    have hk : t.kind = .slash := (kind_eq_iff_of_plain ht (by decide)).2 rfl
    refine quiet_sign ?_ ?_ ?_ _ _ <;> rw [hk]
    · rfl
    · decide
    · decide
  | next sep step more =>
    rw [Expr.symbols] at hu
    · exact Steps.quiet hu none follows_nil
    · rintro ⟨⟩

/-- In an absolute path without `$` and colons the scans find nothing. -/
theorem findsNothing_of_absolute {steps : Steps} {ts : List Token}
    (hu : StandFor ts (Expr.absolute steps).symbols)
    (hfree : ∀ s ∈ (Expr.absolute steps).symbols, s.kind ≠ .dollar ∧ s.kind ≠ .colon) :
    FindsNothing ts := by
  have hquiet := absolute_quiet hu
  have hnone : FindsReferences ts [] [] := hu.finds_nothing hfree nofun
  have hreferences := hnone.references.all fun _ => by simp [variableReferences]
  have hnames := hnone.names.all fun _ => by simp [qualifiedNames]
  have hpaths := hquiet.paths
  have hcalls := hquiet.calls
  rw [List.append_nil] at hpaths hcalls
  exact ⟨List.forall₂_nil_left_iff.1 hreferences, List.forall₂_nil_left_iff.1 hnames, hpaths,
    hcalls⟩

end XPath

theorem AbsolutePath.selects {path : AbsolutePath} {ts : List Token}
    (hu : StandFor ts path.tree.symbols) :
    (selectsRoot ts = true ↔ path = []) ∧ selectsContext ts = false := by
  cases path with
  | nil =>
    rw [AbsolutePath.tree, AbsolutePath.steps, Expr.symbols] at hu
    obtain ⟨t, rfl, ht⟩ := standFor_singleton_iff.1 hu
    have hk : t.kind = .slash := (kind_eq_iff_of_plain ht (by decide)).2 rfl
    rw [selectsRoot, selectsContext, List.map_singleton, hk]
    exact ⟨iff_of_true rfl rfl, rfl⟩
  | cons s path =>
    obtain ⟨x, xs, hx, -, -, hdot⟩ := s.symbols_eq_cons
    have hsymbols : (AbsolutePath.tree (s :: path)).symbols =
        sign .slash "/" :: x :: (xs ++ (AbsolutePath.steps path).symbols) := by
      rw [AbsolutePath.tree, AbsolutePath.steps, Expr.symbols, Steps.symbols, hx]
      · rfl
      · rintro ⟨⟩
    rw [hsymbols] at hu
    obtain ⟨t, vs, rfl, ht, hv⟩ := standFor_cons_iff.1 hu
    obtain ⟨u, ws, rfl, hu, -⟩ := standFor_cons_iff.1 hv
    have hk : t.kind = .slash := (kind_eq_iff_of_plain ht (by decide)).2 rfl
    have hne : u.kind ≠ .dot := (kind_eq_iff_of_plain hu (by decide)).not.2 hdot
    rw [selectsRoot, selectsContext, List.map_cons, List.map_cons, hk]
    refine ⟨iff_of_false ?_ (List.cons_ne_nil _ _), rfl⟩
    split
    · next h => cases (List.cons.inj h).2
    · next h => exact absurd (List.cons.inj (List.cons.inj h).2).1 hne
    · exact Bool.false_ne_true

/-- The tokens of a path, which show that it can be asked for as it is. -/
structure AbsolutePath.IsVerbatim (path : AbsolutePath) (ts : List Token) : Prop where
  tokens : tokenize path.render = .ok ts
  nothing : FindsNothing ts
  root : selectsRoot ts = true ↔ path = []
  context : selectsContext ts = false

/-- A path that can be read as it is written needs no bindings and no anchor. -/
theorem AbsolutePath.exists_isVerbatim {path : AbsolutePath} (h : ∀ s ∈ path, s.IsLegible) :
    ∃ ts, path.IsVerbatim ts := by
  have hself := AbsolutePath.selfContained h
  obtain ⟨ts, hl, hu, -⟩ := (spaced_iff_laid none 0).1 hself.spaced
  obtain ⟨hroot, hcontext⟩ := AbsolutePath.selects hu
  rw [List.map_eq_nil_iff] at hroot
  exact ⟨ts, hl.tokensFrom_eq, findsNothing_of_absolute hu hself.free, hroot, hcontext⟩

/-- In a tree whose names are read as names, whatever words these are, the path of a node is read,
the scans find nothing in it, and it selects the root only if the node is a document. So a query of
it leaves no prefix unbound, its engine is given the very path whatever it is evaluated against, and
is asked whenever the node is no document. A position of too many digits could not be written in a
path to begin with. -/
theorem absolutePath_passesThrough {f : Forest} {id : NodeId} {path : AbsolutePath} (hb : f.Built)
    (hpath : f.absolutePath (.node id) = .ok path)
    (hnames : ∀ x, f.root x = f.root id → ∀ name ∈ f.name? x, IsNameText name)
    (hshort : ∀ s ∈ path, ∀ n ∈ s.position?, IsShort n) :
    (∃ ts, tokenize path.render = .ok ts ∧ variableReferences ts = [] ∧ qualifiedNames ts = [] ∧
      relativePaths ts = [] ∧ contextCalls ts = [] ∧
      (selectsRoot ts = true ↔ f.class? id = some .document)) ∧
    ∀ {η σ ε : Type} (e : Engine η ε) (query : Query σ), query.expression = path.render →
      CompiledQuery.PassesThrough e query (f.class? id = some .document) := by
  have hlegible : ∀ s ∈ path, s.IsLegible := fun s hs => by
    refine ⟨hshort s hs, fun name hn => ?_⟩
    obtain ⟨x, hx, hname⟩ := hb.wellFormed.name_of_path hpath hs hn
    exact hnames x hx name hname
  obtain ⟨ts, h⟩ := AbsolutePath.exists_isVerbatim hlegible
  have hdocument : path = [] ↔ f.class? id = some .document := by
    rcases Forest.absolutePath_eq_ok hpath with ⟨hd, rfl⟩ | ⟨hd, s, rfl, -⟩
    · exact iff_of_true rfl hd
    · exact iff_of_false (List.append_ne_nil_of_right_ne_nil _ (List.cons_ne_nil _ _)) hd
  have hroot := h.root.trans hdocument
  refine ⟨⟨ts, h.tokens, h.nothing.references, h.nothing.names, h.nothing.paths, h.nothing.calls,
    hroot⟩, fun e query hq => ?_⟩
  exact CompiledQuery.passesThrough h.nothing (hq ▸ h.tokens) hroot.1 h.context e

/-- Names that are operators and node types elsewhere, and a URI with everything that has a meaning
in expressions. -/
theorem absolutePath_passesThrough_words :
    let p : Namespace := ⟨"p", "'\"$x:y(", by decide, by decide, by decide⟩
    let f : Forest := ⟨#[⟨none, .element ⟨"or", Namespace.none, [], [], [1, 2]⟩⟩,
      ⟨some 0, .element ⟨"text", p, [], [], []⟩⟩, ⟨some 0, .element ⟨"text", p, [], [3], []⟩⟩,
      ⟨some 2, .attr "div" "v" Namespace.none⟩]⟩
    let path : AbsolutePath := [.element (.plain "or") none,
      .element (.expanded "text" "'\"$x:y(") (some 2), .attr (.plain "div")]
    f.absolutePath (.node 3) = .ok path ∧
      (∃ ts, tokenize path.render = .ok ts ∧ variableReferences ts = [] ∧ qualifiedNames ts = [] ∧
        relativePaths ts = [] ∧ contextCalls ts = [] ∧
        (selectsRoot ts = true ↔ f.class? 3 = some .document)) ∧
      ∀ {η σ ε : Type} (e : Engine η ε) (query : Query σ), query.expression = path.render →
        CompiledQuery.PassesThrough e query (f.class? 3 = some .document) := by
  intro p f path
  have hbuilt : f.Built := by
    have h := Forest.Built.element .empty
      (rfl : Forest.newElement _ (some "or") Namespace.none = .ok (_, 0))
    have h := h.element (rfl : Forest.newElement _ (some "text") p = .ok (_, 1))
    have h := h.element (rfl : Forest.newElement _ (some "text") p = .ok (_, 2))
    have h := h.setAttribute
      (rfl : Forest.setAttribute _ 2 (some "div") (.text "v") Namespace.none = .ok (_, 3))
    have h := h.extend 0 [.node 1, .node 2]
    cbv at h
    exact h
  have hor : IsNameText "or" := ⟨⟨nameKind ['o', 'r'], ['o', 'r'], 0⟩,
    tokenize_of_readFrom rfl, rfl⟩
  have htext : IsNameText "text" := ⟨⟨nameKind ['t', 'e', 'x', 't'], ['t', 'e', 'x', 't'], 0⟩,
    tokenize_of_readFrom rfl, rfl⟩
  have hdiv : IsNameText "div" := ⟨⟨nameKind ['d', 'i', 'v'], ['d', 'i', 'v'], 0⟩,
    tokenize_of_readFrom rfl, rfl⟩
  have hnames : ∀ x, f.root x = f.root 3 → ∀ name ∈ f.name? x, IsNameText name := by
    intro x _ name hn
    rcases x with _ | _ | _ | _ | x <;> cases hn
    · exact hor
    · exact htext
    · exact htext
    · exact hdiv
  have hshort : ∀ s ∈ path, ∀ n ∈ s.position?, IsShort n := by
    unfold IsShort
    decide
  exact ⟨rfl, absolutePath_passesThrough hbuilt rfl hnames hshort⟩

end TreeQuery
