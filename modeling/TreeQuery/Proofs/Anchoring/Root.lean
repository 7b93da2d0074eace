import TreeQuery.Proofs.Grammar.Star
import TreeQuery.XPath.ContextUse
import TreeQuery.XPath.Evaluate

/-!
# Paths that stay

Tokens that select the root, or stay at the context, read only as paths of `.` steps. Such a path
leads from the root or from the context to nothing but itself.
-/

namespace TreeQuery.XPath

/-- Steps `/.` and no others. -/
def Steps.Stays : Steps → Prop
  | .done => True
  | .next .slash .here rest => rest.Stays
  | _ => False

/-- Slashes and dots. -/
def StaysKind (k : TokenKind) : Prop := k = .slash ∨ k = .dot

theorem evaluateSteps_of_stays (env : Environment) (ns : List XNode) {s : Steps} (h : s.Stays) :
    evaluateSteps env ns s = some ns := by
  match s with
  | .done => rw [evaluateSteps]
  | .next .slash .here rest =>
    rw [evaluateSteps, evaluateStep]
    exact evaluateSteps_of_stays env ns h
  | .next .doubleSlash _ _ | .next .slash .up _ | .next .slash (.along ..) _ => cases h

theorem not_staysKind_nameSymbol (n : String) : ¬StaysKind (nameSymbol n).kind := by
  have hn : (nameSymbol n).kind.isName = true := nameKind_isName n.toList
  rintro (hk | hk) <;> rw [hk] at hn <;> cases hn

/-- Every node test has a symbol that no path that stays has. -/
theorem NodeTest.exists_symbol (t : NodeTest) : ∃ s ∈ t.symbols, ¬StaysKind s.kind := by
  have hnode : ¬StaysKind .nodeType := nofun
  cases t with
  | node | text | comment => exact ⟨_, List.mem_cons_self, hnode⟩
  | instruction target => cases target <;> exact ⟨_, List.mem_cons_self, hnode⟩
  | any pfx =>
    cases pfx with
    | none => exact ⟨_, List.mem_cons_self, nofun⟩
    | some p => exact ⟨_, List.mem_cons_self, not_staysKind_nameSymbol p⟩
  | name n =>
    rw [NodeTest.symbols, Name.symbols]
    split <;> exact ⟨_, List.mem_cons_self, not_staysKind_nameSymbol _⟩

theorem Step.eq_here {s : Step} (h : ∀ t ∈ s.symbols, StaysKind t.kind) : s = .here := by
  cases s with
  | here => rfl
  | up =>
    rw [Step.symbols] at h
    rcases h _ List.mem_cons_self with hk | hk <;> cases hk
  | along axis t predicates =>
    rw [Step.symbols] at h
    obtain ⟨s, hs, hk⟩ := t.exists_symbol
    exact absurd (h s (List.mem_append_left _ (List.mem_append_right _ hs))) hk

theorem Steps.stays {s : Steps} (h : ∀ t ∈ s.symbols, StaysKind t.kind) : s.Stays := by
  match s with
  | .done => trivial
  | .next sep step rest =>
    rw [Steps.symbols] at h
    obtain ⟨hsep, h⟩ := List.forall_mem_cons.1 h
    obtain ⟨hstep, hrest⟩ := List.forall_mem_append.1 h
    cases Step.eq_here hstep
    cases sep with
    | slash =>
      show rest.Stays
      exact Steps.stays hrest
    | doubleSlash => rcases hsep with hk | hk <;> cases hk

/-- What binds more tightly than paths has a symbol that no path that stays has. -/
theorem Expr.exists_symbol {e : Expr} (h : 10 ≤ e.level) :
    ∃ s ∈ e.symbols, ¬StaysKind s.kind := by
  match e with
  | .binary op a b =>
    have hop : op.level ≤ 8 := by cases op <;> decide
    have h : 10 ≤ op.level := h
    omega
  | .negate _ | .relative .. | .absolute _ | .through .. => simp [Expr.level] at h
  | .group _ | .literal _ | .variable _ =>
    rw [Expr.symbols]
    exact ⟨_, List.mem_cons_self, nofun⟩
  | .number s =>
    rw [Expr.symbols]
    refine ⟨_, List.mem_cons_self, ?_⟩
    show ¬StaysKind (numeralKind s)
    unfold numeralKind
    split <;> exact nofun
  | .call .. | .filter .. =>
    rw [Expr.symbols]
    exact ⟨_, List.mem_append_right _ List.mem_cons_self, nofun⟩

theorem Expr.stays {e : Expr} (he : e.Formed) (h : ∀ t ∈ e.symbols, StaysKind t.kind) :
    (∃ steps, e = .absolute steps ∧ steps.Stays) ∨
      ∃ steps, e = .relative .here steps ∧ steps.Stays := by
  by_cases hl : 10 ≤ e.level
  · obtain ⟨s, hs, hk⟩ := Expr.exists_symbol hl
    exact absurd (h s hs) hk
  · cases e with
    | binary op a b =>
      rw [Expr.symbols] at h
      have := h _ (List.mem_append_right _ List.mem_cons_self)
      cases op <;> rcases this with hk | hk <;> cases hk
    | negate e =>
      rw [Expr.symbols] at h
      rcases h _ List.mem_cons_self with hk | hk <;> cases hk
    | relative first rest =>
      rw [Expr.symbols] at h
      obtain ⟨hfirst, hrest⟩ := List.forall_mem_append.1 h
      cases Step.eq_here hfirst
      exact .inr ⟨rest, rfl, Steps.stays hrest⟩
    | absolute steps =>
      refine .inl ⟨steps, rfl, ?_⟩
      cases steps with
      | done => trivial
      | next sep step rest =>
        rw [Expr.symbols] at h
        · exact Steps.stays h
        · rintro ⟨⟩
    | through e steps =>
      rw [Expr.Formed] at he
      rw [Expr.symbols] at h
      obtain ⟨s, hs, hk⟩ := Expr.exists_symbol he.2.1
      exact absurd (h s (List.mem_append_left _ hs)) hk
    | _ => simp [Expr.level] at hl

/-! ## Selecting the root -/

theorem staysKind_of_onlyDots {ks : List TokenKind} (h : onlyDots ks = true) :
    ∀ k ∈ ks, StaysKind k := by
  match ks with
  | [] => exact nofun
  | .slash :: .dot :: rest =>
    rw [onlyDots] at h
    intro k hk
    rcases List.mem_cons.1 hk with rfl | hk
    · exact .inl rfl
    · rcases List.mem_cons.1 hk with rfl | hk
      · exact .inr rfl
      · exact staysKind_of_onlyDots h k hk

theorem head_of_selectsRoot {ts : List Token} (h : selectsRoot ts = true) :
    (ts.map Token.kind).head? = some .slash ∧ ∀ k ∈ ts.map Token.kind, StaysKind k := by
  unfold selectsRoot at h
  split at h
  · next hk =>
    rw [hk]
    exact ⟨rfl, fun k hk => .inl (List.mem_singleton.1 hk)⟩
  · next rest hk =>
    rw [hk]
    have hdots : onlyDots (.slash :: .dot :: rest) = true := h
    exact ⟨rfl, staysKind_of_onlyDots hdots⟩
  · cases h

theorem head_of_selectsContext {ts : List Token} (h : selectsContext ts = true) :
    (ts.map Token.kind).head? = some .dot ∧ ∀ k ∈ ts.map Token.kind, StaysKind k := by
  unfold selectsContext at h
  split at h
  · next rest hk =>
    rw [hk]
    exact ⟨rfl, List.forall_mem_cons.2 ⟨.inr rfl, staysKind_of_onlyDots h⟩⟩
  · cases h

theorem head_absolute {steps : Steps} (h : steps.Stays) :
    ((Expr.absolute steps).symbols.map Symbol.kind).head? = some .slash := by
  match steps with
  | .done =>
    rw [Expr.symbols]
    rfl
  | .next .slash .here rest =>
    rw [Expr.symbols, Steps.symbols]
    · rfl
    · nofun

theorem head_here (steps : Steps) :
    ((Expr.relative .here steps).symbols.map Symbol.kind).head? = some .dot := by
  rw [Expr.symbols, Step.symbols]
  rfl

theorem sorted_singleton (n : XNode) : sorted (.nodes [n]) = .nodes [n] := rfl

section Selecting

variable {ts : List Token} {e : Expr} (he : e.Formed) (hs : ts.map Token.symbol = e.symbols)

include he hs

theorem stays_of_kinds {k : TokenKind} (hk : (ts.map Token.kind).head? = some k)
    (h : ∀ k ∈ ts.map Token.kind, StaysKind k) :
    (∃ steps, e = .absolute steps ∧ steps.Stays ∧ k = .slash) ∨
      ∃ steps, e = .relative .here steps ∧ steps.Stays ∧ k = .dot := by
  have hkinds : ts.map Token.kind = e.symbols.map Symbol.kind := by
    rw [← hs, List.map_map]
    rfl
  rw [hkinds] at hk h
  rcases Expr.stays he fun s hs => h _ (List.mem_map_of_mem hs) with ⟨steps, rfl, hst⟩ |
    ⟨steps, rfl, hst⟩
  · rw [head_absolute hst] at hk
    exact .inl ⟨steps, rfl, hst, (Option.some_inj.1 hk).symm⟩
  · rw [head_here] at hk
    exact .inr ⟨steps, rfl, hst, (Option.some_inj.1 hk).symm⟩

/-- Tokens that are said to select the root select the root and nothing else. -/
theorem valueAt_of_selectsRoot (h : selectsRoot ts = true) (env : Environment) (n : XNode) :
    valueAt env n e = some (.nodes [documentNode env.documents n.place.document]) := by
  obtain ⟨hhead, hkinds⟩ := head_of_selectsRoot h
  rcases stays_of_kinds he hs hhead hkinds with ⟨steps, rfl, hst, -⟩ | ⟨steps, -, -, hk⟩
  · rw [valueAt, evaluate, evaluateSteps_of_stays _ _ hst, Option.map_some, Option.map_some,
      sorted_singleton]
  · cases hk

/-- Tokens that are said to stay at the context select the context and nothing else. -/
theorem valueAt_of_selectsContext (h : selectsContext ts = true) (env : Environment) (n : XNode) :
    valueAt env n e = some (.nodes [n]) := by
  obtain ⟨hhead, hkinds⟩ := head_of_selectsContext h
  rcases stays_of_kinds he hs hhead hkinds with ⟨steps, -, -, hk⟩ | ⟨steps, rfl, hst, -⟩
  · cases hk
  · rw [valueAt, evaluate, evaluateStep]
    simp only [evaluateSteps_of_stays _ _ hst, Option.map_some, sorted_singleton]

end Selecting

end TreeQuery.XPath
