import TreeQuery.Proofs.Anchoring.Anchors
import TreeQuery.Proofs.Grammar.Spacing
import TreeQuery.Proofs.Scanning.Place

/-!
# Relative paths are found

The scan for relative paths finds those that a tree has outside predicates (`Expr.paths`), wherever
white space stands in the text of the tree. Main statement: `relativePaths_found`.
-/

namespace TreeQuery.XPath

mutual

/-- The relative paths of a tree that are evaluated against the context node itself. -/
def Expr.paths : Expr → List (Nat × Step × Steps)
  | .binary _ a b => a.paths ++ shifted (a.symbols.length + 1) b.paths
  | .negate e | .group e => shifted 1 e.paths
  | .literal _ | .number _ | .variable _ | .absolute _ => []
  | .call n args => shifted (n.symbols.length + 1) (argumentPaths args)
  | .filter e _ | .through e _ => e.paths
  | .relative first rest => [(0, first, rest)]

def argumentPaths : List Expr → List (Nat × Step × Steps)
  | [] => []
  | e :: es => e.paths ++ shifted (e.symbols.length + 1) (argumentPaths es)

end

/-- The tokens of a path that starts at a position. -/
structure IsPathAt (path : Step × Steps) (start : Nat) (us : List Token) : Prop where
  symbols : us.map Token.symbol = path.1.symbols ++ path.2.symbols
  start : us.head?.map Token.start = some start

/-- Among some tokens the scan finds the paths of a part of a tree. -/
abbrev FindsPaths (last : Option Token) (us rest : List Token)
    (paths : List (Nat × Step × Steps)) : Prop :=
  Finds (relativePathsFrom 0) IsPathAt last us rest paths

section Scan

variable {last : Option Token} {us vs rest : List Token} {ps : List (Nat × Step × Steps)}
  {calls : List ContextCall}

theorem Scans.findsPaths (h : Scans last us rest [] calls) : FindsPaths last us rest [] :=
  .nothing h.paths

theorem findsPaths_cons {t : Token} {s : Symbol} (ht : t.symbol = s)
    (h : beginsStep s.kind = false) (ho : s.kind ≠ .openBracket) (hc : s.kind ≠ .closeBracket)
    (hp : FindsPaths (some t) us rest ps) : FindsPaths last (t :: us) rest (shifted 1 ps) :=
  (quiet_symbol ht h ho hc last (us ++ rest)).findsPaths.after hp rfl

theorem length_of_symbols {ss : List Symbol} (h : us.map Token.symbol = ss) :
    us.length = ss.length := by
  rw [← h, List.length_map]

theorem relative_findsPaths {first : Step} {steps : Steps} (hf : first.Formed)
    (hu : us.map Token.symbol = first.symbols ++ steps.symbols) (hl : Starts last)
    (hr : Follows rest) : FindsPaths last us rest [(0, first, steps)] := by
  have hu' := hu
  obtain ⟨vs, ws, rfl, hfirst, hsteps⟩ := List.map_eq_append_iff.1 hu'
  have hfollows : Follows (ws ++ rest) := .append hsteps (steps_follow steps) hr
  have hbegins : BeginsStep (vs ++ ws) rest := (Step.begins hf hfirst hfollows).append
  have hscans := scans_path hl hbegins fun l hk =>
    (Step.quiet (standFor_of_symbols hfirst) (by rw [hk]; rfl) hfollows).append
      (Steps.quiet (standFor_of_symbols hsteps) _ hr)
  obtain ⟨t, us, hus, -⟩ := hbegins
  rw [hus] at hscans hu ⊢
  exact ⟨_, hscans.paths, .single ⟨hu, rfl⟩⟩

theorem function_findsPaths {n : Name} {args : List Expr} {o c : Token} (hf : n.IsFunction)
    (hn : us.map Token.symbol = n.symbols) (hs : Sound us) (ho : o.kind = .openParen)
    (hc : c.kind = .closeParen) (hargs : vs.map Token.symbol = argumentSymbols args)
    (hl : Starts last) : FindsPaths last us (o :: (vs ++ [c]) ++ rest) [] := by
  obtain ⟨pfx, n⟩ := n
  cases pfx with
  | none =>
    obtain ⟨t, rfl, ht⟩ := List.map_eq_singleton_iff.1 hn
    have hnested : Nested .openParen .closeParen (vs.map Token.kind) := by
      rw [map_kind_of_symbols hargs]
      exact arguments_nested (.inl ⟨rfl, rfl⟩) args
    exact (scans_function rest ((kind_of_symbol ht).trans hf) ho hc hnested hl).findsPaths
  | some p => exact (hf.quiet hn hs last ho _).findsPaths

end Scan

mutual

/-- The scan finds the relative paths of an expression. -/
theorem Expr.findsPaths (e : Expr) (h : e.Formed) {us : List Token}
    (hu : us.map Token.symbol = e.symbols) (hs : Sound us) {last : Option Token}
    (hl : Starts last) {rest : List Token} (hr : Follows rest) :
    FindsPaths last us rest e.paths := by
  match e with
  | .binary op a b =>
    rw [Expr.Formed] at h
    rw [Expr.symbols] at hu
    rw [Expr.paths, ← shifted_shifted]
    obtain ⟨us, vs, rfl, ha, hv⟩ := List.map_eq_append_iff.1 hu
    obtain ⟨o, vs, rfl, ho, hb⟩ := List.map_eq_cons_iff.1 hv
    obtain ⟨hsign, hob, hcb, hop, hcolon, hstarts⟩ := op.sign
    refine (a.findsPaths h.1 ha hs.of_append.1 hl (follows_symbol ho hop hcolon _)).append
      (findsPaths_cons ho hsign hob hcb ?_) (length_of_symbols ha)
    exact b.findsPaths h.2.1 hb hs.of_append.2.of_cons.2 (starts_some ho hstarts) hr
  | .negate e =>
    rw [Expr.Formed] at h
    rw [Expr.symbols] at hu
    rw [Expr.paths]
    obtain ⟨o, us, rfl, ho, he⟩ := List.map_eq_cons_iff.1 hu
    refine findsPaths_cons ho rfl nofun nofun ?_
    exact e.findsPaths h.1 he hs.of_cons.2 (starts_some ho rfl) hr
  | .group e =>
    rw [Expr.Formed] at h
    rw [Expr.symbols] at hu
    rw [Expr.paths]
    obtain ⟨o, us, rfl, ho, hu₁⟩ := List.map_eq_cons_iff.1 hu
    obtain ⟨us, vs, rfl, he, hv⟩ := List.map_eq_append_iff.1 hu₁
    obtain ⟨c, rfl, hc⟩ := List.map_eq_singleton_iff.1 hv
    refine findsPaths_cons ho rfl nofun nofun (.before ?_ ?_)
    · exact e.findsPaths h he hs.of_cons.2.of_append.1 (starts_some ho rfl)
        (follows_symbol hc nofun nofun _)
    · exact (quiet_symbol hc rfl nofun nofun _ _).findsPaths
  | .literal s =>
    rw [Expr.symbols] at hu
    rw [Expr.paths]
    obtain ⟨t, rfl, ht⟩ := List.map_eq_singleton_iff.1 hu
    exact (quiet_symbol ht rfl nofun nofun _ _).findsPaths
  | .number s =>
    rw [Expr.symbols] at hu
    rw [Expr.paths]
    obtain ⟨t, rfl, ht⟩ := List.map_eq_singleton_iff.1 hu
    obtain ⟨hsign, ho, hc⟩ := sign_numeralKind s
    exact (quiet_symbol ht hsign ho hc _ _).findsPaths
  | .variable n =>
    rw [Expr.Formed] at h
    rw [Expr.symbols] at hu
    rw [Expr.paths]
    obtain ⟨d, us, rfl, hd, hn⟩ := List.map_eq_cons_iff.1 hu
    have hdollar : startsPath d.kind = false := by
      rw [kind_of_symbol hd]
      rfl
    have hname := (Name.quiet (standFor_of_symbols hn) hdollar hr).findsPaths
    exact findsPaths_cons hd rfl nofun nofun hname
  | .call n args =>
    rw [Expr.Formed] at h
    rw [Expr.symbols] at hu
    rw [Expr.paths, ← shifted_shifted]
    obtain ⟨ns, vs, rfl, hn, hv⟩ := List.map_eq_append_iff.1 hu
    obtain ⟨o, vs, rfl, ho, hv₁⟩ := List.map_eq_cons_iff.1 hv
    obtain ⟨us, vs, rfl, hargs, hv₂⟩ := List.map_eq_append_iff.1 hv₁
    obtain ⟨c, rfl, hc⟩ := List.map_eq_singleton_iff.1 hv₂
    refine .after ?_ (findsPaths_cons ho rfl nofun nofun (.before ?_ ?_)) (length_of_symbols hn)
    · exact function_findsPaths h.1 hn hs.of_append.1 (kind_of_symbol ho) (kind_of_symbol hc) hargs
        hl
    · exact arguments_findPaths args h.2 hargs hs.of_append.2.of_cons.2.of_append.1
        (starts_some ho rfl) (follows_symbol hc nofun nofun rest)
    · exact (quiet_symbol hc rfl nofun nofun _ _).findsPaths
  | .filter e p =>
    rw [Expr.Formed] at h
    rw [Expr.symbols] at hu
    rw [Expr.paths]
    obtain ⟨us, vs, rfl, he, hv⟩ := List.map_eq_append_iff.1 hu
    have hp : vs.map Token.symbol = predicateSymbols [p] := by
      rw [predicateSymbols, predicateSymbols]
      exact hv
    refine .before (e.findsPaths h.1 he hs.of_append.1 hl ?_)
      (predicates_quiet (standFor_of_symbols hp) _ _).findsPaths
    exact .append hp (predicates_follow [p]) hr
  | .relative first rest =>
    rw [Expr.Formed] at h
    rw [Expr.symbols] at hu
    rw [Expr.paths]
    exact relative_findsPaths h.1 hu hl hr
  | .absolute .done =>
    rw [Expr.symbols] at hu
    rw [Expr.paths]
    obtain ⟨t, rfl, ht⟩ := List.map_eq_singleton_iff.1 hu
    exact (quiet_symbol ht rfl nofun nofun _ _).findsPaths
  | .absolute (.next sep step more) =>
    rw [Expr.Formed] at h
    rw [Expr.symbols] at hu
    · rw [Expr.paths]
      exact (Steps.quiet (standFor_of_symbols hu) _ hr).findsPaths
    · nofun
  | .through e steps =>
    rw [Expr.Formed] at h
    rw [Expr.symbols] at hu
    rw [Expr.paths]
    obtain ⟨us, vs, rfl, he, hv⟩ := List.map_eq_append_iff.1 hu
    refine .before (e.findsPaths h.1 he hs.of_append.1 hl ?_)
      (Steps.quiet (standFor_of_symbols hv) _ hr).findsPaths
    exact .append hv (steps_follow steps) hr

theorem arguments_findPaths (es : List Expr) (h : AllFormed es) {us : List Token}
    (hu : us.map Token.symbol = argumentSymbols es) (hs : Sound us) {last : Option Token}
    (hl : Starts last) {rest : List Token} (hr : Follows rest) :
    FindsPaths last us rest (argumentPaths es) := by
  match es with
  | [] =>
    rw [argumentSymbols] at hu
    rw [argumentPaths, List.map_eq_nil_iff.1 hu]
    exact (Quiet.nil last rest).findsPaths
  | [e] =>
    rw [AllFormed] at h
    rw [argumentSymbols] at hu
    rw [argumentPaths, argumentPaths, shifted, List.map_nil, List.append_nil]
    exact e.findsPaths h.1 hu hs hl hr
  | e :: e' :: es =>
    rw [AllFormed] at h
    rw [argumentSymbols] at hu
    · rw [argumentPaths, ← shifted_shifted]
      obtain ⟨us, vs, rfl, he, hv⟩ := List.map_eq_append_iff.1 hu
      obtain ⟨c, vs, rfl, hc, hes⟩ := List.map_eq_cons_iff.1 hv
      refine (e.findsPaths h.1 he hs.of_append.1 hl (follows_symbol hc nofun nofun _)).append
        (findsPaths_cons hc rfl nofun nofun ?_) (length_of_symbols he)
      exact arguments_findPaths (e' :: es) h.2 hes hs.of_append.2.of_cons.2 (starts_some hc rfl) hr
    · nofun

end

/-- In a text in which an expression is written, the scan finds exactly the relative paths of the
expression outside predicates, in order. -/
theorem relativePaths_found {e : Expr} {text : String} (h : e.Formed)
    (hs : Spaced e.symbols text.toList) : ∃ ts, tokenize text = .ok ts ∧
      ts.map Token.symbol = e.symbols ∧ Found IsPathAt ts e.paths (relativePaths ts) ∧
        (relativePaths ts).Pairwise (· < ·) := by
  obtain ⟨ts, ht, hr⟩ := spaced_iff.1 hs
  have hl := laid_of_tokensFrom ht
  have hsymbols := map_symbol_of_readsAs hl h hr
  have hsound : Sound ts := ⟨hl.ordered.1, hl.isLexeme, hr.glued⟩
  have hfirst : Starts none := nofun
  have hfollows : Follows [] := nofun
  have hfinds := e.findsPaths h hsymbols hsound hfirst hfollows
  exact ⟨ts, ht, hsymbols, hfinds.all fun _ => rfl, relativePaths_sorted hl.ordered.1⟩

/-- A step after a multiplication sign, an argument with a predicate and a path that goes on from
an expression. -/
theorem relativePaths_found_operands :
    let step (n : String) (ps : List Expr) : Step := .along .implied (.name ⟨none, n⟩) ps
    let e : Expr := .binary .eq
      (.binary .times (.number "2") (.relative (.along .implied (.any none) []) .done))
      (.call ⟨none, "count"⟩ [.relative (step "a" [.relative (step "b" []) .done]) .done,
        .through (.group (.relative (step "c" []) .done)) (.next .slash (step "d" []) .done)])
    e.Formed ∧ Spaced e.symbols "2 * * = count(a [b], (c)/d)".toList ∧
      e.paths.map Prod.fst = [2, 6, 12] ∧
        ∃ ts, tokenize "2 * * = count(a [b], (c)/d)" = .ok ts ∧ ts.map Token.symbol = e.symbols ∧
          Found IsPathAt ts e.paths (relativePaths ts) ∧ (relativePaths ts).Pairwise (· < ·) := by
  intro step e
  have he : e.Formed := by
    simp only [e, step, Expr.Formed, AllFormed, Step.Formed, Steps.Formed, NodeTest.Formed,
      Name.Formed, Name.IsFunction, IsPlainName, ne_eq, reduceCtorEq, not_false_eq_true]
    decide
  have hs : Spaced e.symbols "2 * * = count(a [b], (c)/d)".toList := by
    refine spaced_iff.2 ⟨_, tokenize_of_readFrom rfl, ?_, ?_⟩
    · simp only [e, step, Expr.symbols, argumentSymbols, predicateSymbols, Step.symbols,
        Steps.symbols]
      decide
    · unfold Glued
      decide
  refine ⟨he, hs, ?_, relativePaths_found he hs⟩
  simp only [e, step, Expr.paths, argumentPaths, Expr.symbols, predicateSymbols, Step.symbols,
    Steps.symbols]
  decide

end TreeQuery.XPath
