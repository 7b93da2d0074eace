import Mathlib.Data.List.TakeWhile
import TreeQuery.Proofs.Lexing.Layout
import TreeQuery.Proofs.Splicing
import TreeQuery.Query.Plan

/-!
# Where anchors stand

Relative paths and context calls are found in the order of the tokens, each at a token that its
neighbours tell apart. What an anchor inserts stands before a token (`Plan.openings`) or after one
(`Plan.closings`); where both meet, what stands after a token comes first.
-/

namespace TreeQuery.XPath

/-! ## Relative paths -/

theorem mem_relativePathsFrom {depth : Int} {last : Option Token} {ts : List Token} {x : Nat}
    (h : x ∈ relativePathsFrom depth last ts) : ∃ us t vs, ts = us ++ t :: vs ∧ t.start = x ∧
      beginsPath (us.getLast?.or last) t vs = true := by
  induction ts generalizing depth last with
  | nil => cases h
  | cons t ts ih =>
    have hrest (h : x ∈ relativePathsFrom (depthAfter depth t) (some t) ts) :
        ∃ us u vs, t :: ts = us ++ u :: vs ∧ u.start = x ∧
          beginsPath (us.getLast?.or last) u vs = true := by
      obtain ⟨us, u, vs, rfl, hx, hb⟩ := ih h
      refine ⟨t :: us, u, vs, rfl, hx, ?_⟩
      rw [List.getLast?_cons]
      cases hl : us.getLast? with
      | none => rwa [hl] at hb
      | some a => rwa [hl] at hb
    simp only [relativePathsFrom] at h
    split at h
    · rename_i hc
      rcases List.mem_cons.1 h with rfl | h
      · exact ⟨[], t, ts, rfl, rfl, (Bool.and_eq_true_iff.1 hc).2⟩
      · exact hrest h
    · exact hrest h

theorem relativePathsFrom_sublist (depth : Int) (last : Option Token) (ts : List Token) :
    (relativePathsFrom depth last ts).Sublist (ts.map Token.start) := by
  induction ts generalizing depth last with
  | nil => exact .slnil
  | cons t ts ih =>
    simp only [relativePathsFrom]
    split
    · exact (ih _ _).cons_cons _
    · exact (ih _ _).cons _

theorem relativePaths_sorted {ts : List Token} (h : Ordered ts) :
    (relativePaths ts).Pairwise (· < ·) :=
  h.starts.sublist (relativePathsFrom_sublist 0 none ts)

/-- A relative path begins at a token that can begin a step, calls no function and stands first or
after a token that an operand follows. -/
theorem mem_relativePaths {ts : List Token} {x : Nat} (h : x ∈ relativePaths ts) :
    ∃ us t vs, ts = us ++ t :: vs ∧ t.start = x ∧ beginsPath us.getLast? t vs = true := by
  obtain ⟨us, t, vs, he, hx, hb⟩ := mem_relativePathsFrom h
  exact ⟨us, t, vs, he, hx, by rwa [Option.or_none] at hb⟩

theorem beginsPath_iff {last : Option Token} {t : Token} {ts : List Token} :
    beginsPath last t ts = true ↔ beginsStep t.kind = true ∧
      (∀ l ∈ last, startsPath l.kind = true) ∧ callsFunction (t :: ts) = false := by
  simp [beginsPath, Option.all_eq_true, and_assoc]

/-! ## Context calls -/

theorem closing?_mem {depth : Nat} {ts : List Token} {t : Token} (h : closing? depth ts = some t) :
    t ∈ ts ∧ t.kind = .closeParen := by
  fun_induction closing? depth ts
  case case1 => cases h
  case case2 ih => exact ⟨List.mem_cons_of_mem _ (ih h).1, (ih h).2⟩
  case case3 hk =>
    cases h
    exact ⟨List.mem_cons_self, hk⟩
  case case4 ih => exact ⟨List.mem_cons_of_mem _ (ih h).1, (ih h).2⟩
  case case5 ih => exact ⟨List.mem_cons_of_mem _ (ih h).1, (ih h).2⟩

/-- A call stands at the tokens `n` and `p`, of which `last` comes before and `vs` after. -/
structure CallAt (last : Option Token) (n p : Token) (vs : List Token) (c : ContextCall) :
    Prop where
  name : n.kind = .name
  paren : p.kind = .openParen
  notLocal : ∀ l ∈ last, l.kind ≠ .colon
  call : ∃ close ∈ vs, close.kind = .closeParen ∧ c = ⟨n.string, n.start, p.stop, close.stop⟩
  bare : c.name ≠ "lang" → ∀ v ∈ vs.head?, v.kind = .closeParen

theorem contextCall?_eq_some {last : Option Token} {ts : List Token} {c : ContextCall}
    (h : contextCall? last ts = some c) : ∃ n p vs, ts = n :: p :: vs ∧ CallAt last n p vs c := by
  unfold contextCall? at h
  split at h
  · rename_i n p vs
    split at h
    · rename_i hc
      simp only [Bool.and_eq_true, beq_iff_eq, Bool.not_eq_true', Option.any_eq_false] at hc
      obtain ⟨⟨hn, hp⟩, hl⟩ := hc
      split at h
      · cases h
      · rename_i close hclose
        split at h
        · rename_i hb
          cases h
          refine ⟨n, p, vs, rfl, hn, hp, by simpa using hl, ?_, fun hne v hv => ?_⟩
          · obtain ⟨hm, hk⟩ := closing?_mem hclose
            exact ⟨close, hm, hk, rfl⟩
          · rw [Option.mem_def] at hv
            simp only [Bool.or_eq_true, beq_iff_eq, hne, false_or, Bool.and_eq_true, hv,
              Option.any_some] at hb
            exact hb.2
        · cases h
    · cases h
  · cases h

theorem contextCallsFrom_cons (depth : Int) (last : Option Token) (t : Token) (ts : List Token) :
    contextCallsFrom depth last (t :: ts) = contextCallsFrom (depthAfter depth t) (some t) ts ∨
      ∃ c, contextCall? last (t :: ts) = some c ∧
        contextCallsFrom depth last (t :: ts) =
          c :: contextCallsFrom (depthAfter depth t) (some t) ts := by
  simp only [contextCallsFrom]
  split
  · split
    · rename_i c hc
      exact .inr ⟨c, hc, rfl⟩
    · exact .inl rfl
  · exact .inl rfl

theorem mem_contextCallsFrom {depth : Int} {last : Option Token} {ts : List Token}
    {c : ContextCall} (h : c ∈ contextCallsFrom depth last ts) :
    ∃ us n p vs, ts = us ++ n :: p :: vs ∧ CallAt (us.getLast?.or last) n p vs c := by
  induction ts generalizing depth last with
  | nil => cases h
  | cons t ts ih =>
    have hrest (h : c ∈ contextCallsFrom (depthAfter depth t) (some t) ts) :
        ∃ us n p vs, t :: ts = us ++ n :: p :: vs ∧ CallAt (us.getLast?.or last) n p vs c := by
      obtain ⟨us, n, p, vs, rfl, hc⟩ := ih h
      refine ⟨t :: us, n, p, vs, rfl, ?_⟩
      rw [List.getLast?_cons]
      cases hl : us.getLast? with
      | none => rwa [hl] at hc
      | some a => rwa [hl] at hc
    rcases contextCallsFrom_cons depth last t ts with he | ⟨c', hc', he⟩
    · exact hrest (he ▸ h)
    · rw [he] at h
      rcases List.mem_cons.1 h with rfl | h
      · obtain ⟨n, p, vs, ht, hc⟩ := contextCall?_eq_some hc'
        exact ⟨[], n, p, vs, ht, hc⟩
      · exact hrest h

theorem contextCallsFrom_sublist (depth : Int) (last : Option Token) (ts : List Token) :
    ((contextCallsFrom depth last ts).map ContextCall.start).Sublist (ts.map Token.start) ∧
      ((contextCallsFrom depth last ts).map ContextCall.inside).Sublist
        (ts.tail.map Token.stop) := by
  induction ts generalizing depth last with
  | nil => exact ⟨.slnil, .slnil⟩
  | cons t ts ih =>
    obtain ⟨hs, hi⟩ := ih (depthAfter depth t) (some t)
    rcases contextCallsFrom_cons depth last t ts with he | ⟨c, hc, he⟩
    · rw [he]
      exact ⟨hs.cons _, hi.trans ((List.tail_sublist ts).map _)⟩
    · obtain ⟨n, p, vs, ht, hc⟩ := contextCall?_eq_some hc
      obtain ⟨close, -, -, rfl⟩ := hc.call
      cases ht
      rw [he]
      exact ⟨hs.cons_cons _, hi.cons_cons _⟩

theorem contextCalls_sorted {ts : List Token} (h : Ordered ts) :
    (contextCalls ts).Pairwise fun c c' => c.start < c'.start ∧ c.inside < c'.inside := by
  obtain ⟨hs, hi⟩ := contextCallsFrom_sublist 0 none ts
  have hi' := hi.trans ((List.tail_sublist ts).map _)
  exact (List.pairwise_map.1 (h.starts.sublist hs)).and (List.pairwise_map.1 (h.stops.sublist hi'))

/-- A context call stands at an unprefixed name before a parenthesis. -/
theorem mem_contextCalls {ts : List Token} {c : ContextCall} (h : c ∈ contextCalls ts) :
    ∃ us n p vs, ts = us ++ n :: p :: vs ∧ CallAt us.getLast? n p vs c := by
  obtain ⟨us, n, p, vs, he, hc⟩ := mem_contextCallsFrom h
  exact ⟨us, n, p, vs, he, by rwa [Option.or_none] at hc⟩

theorem start_lt_of_mem_contextCalls {ts : List Token} {c : ContextCall} (ho : Ordered ts)
    (h : c ∈ contextCalls ts) : c.start < c.inside ∧ c.start < c.after := by
  obtain ⟨us, n, p, vs, rfl, hc⟩ := mem_contextCalls h
  obtain ⟨close, hm, -, rfl⟩ := hc.call
  have hn := List.pairwise_cons.1 (List.pairwise_append.1 ho.sorted).2.1
  have hpn := hn.1 p List.mem_cons_self
  have hcn := hn.1 close (List.mem_cons_of_mem _ hm)
  have hnp := ho.proper n (by simp)
  have hpp := ho.proper p (by simp)
  have hcp := ho.proper close (by simp [hm])
  constructor
  · show n.start < p.stop
    omega
  · show n.start < close.stop
    omega

end TreeQuery.XPath

/-! ## Insertions -/

namespace TreeQuery.Plan

open XPath

/-- What a call puts before its name. -/
def openingOf (c : ContextCall) : List Replacement :=
  if c.name = "lang" then [.insertion c.start "(false() and "] else []

/-- What a call puts after one of its parentheses. -/
def closingOf (c : ContextCall) : Replacement :=
  if c.name = "lang" then .insertion c.after ")" else .insertion c.inside "/"

/-- What anchors put before tokens. -/
def openings (ts : List Token) : List Replacement :=
  (relativePaths ts).map (.insertion · "/") ++ (contextCalls ts).flatMap openingOf

/-- What anchors put after tokens. -/
def closings (ts : List Token) : List Replacement := (contextCalls ts).map closingOf

theorem anchorCall_eq (c : ContextCall) : anchorCall c = openingOf c ++ [closingOf c] := by
  unfold anchorCall openingOf closingOf
  split <;> rfl

theorem mem_openingOf {c : ContextCall} {r : Replacement} (h : r ∈ openingOf c) :
    r = .insertion c.start "(false() and " := by
  unfold openingOf at h
  split at h
  · exact List.mem_singleton.1 h
  · cases h

theorem closingOf_eq (c : ContextCall) :
    closingOf c = .insertion c.after ")" ∨ closingOf c = .insertion c.inside "/" := by
  unfold closingOf
  split
  · exact .inl rfl
  · exact .inr rfl

theorem mem_openings {ts : List Token} {r : Replacement} (h : r ∈ openings ts) :
    (r.start ∈ relativePaths ts ∧ r = .insertion r.start "/") ∨
      ∃ c ∈ contextCalls ts, r = .insertion c.start "(false() and " := by
  rcases List.mem_append.1 h with h | h
  · obtain ⟨x, hx, rfl⟩ := List.mem_map.1 h
    exact .inl ⟨hx, rfl⟩
  · obtain ⟨c, hc, h⟩ := List.mem_flatMap.1 h
    exact .inr ⟨c, hc, mem_openingOf h⟩

theorem openings_insertion {ts : List Token} {r : Replacement} (h : r ∈ openings ts) :
    r = .insertion r.start r.text := by
  rcases mem_openings h with ⟨-, he⟩ | ⟨c, -, rfl⟩
  · rw [he]
    rfl
  · rfl

theorem closings_insertion {ts : List Token} {r : Replacement} (h : r ∈ closings ts) :
    r = .insertion r.start r.text := by
  obtain ⟨c, -, rfl⟩ := List.mem_map.1 h
  rcases closingOf_eq c with he | he <;> rw [he] <;> rfl

theorem stop_of_mem_anchorsOf {ts : List Token} {r : Replacement} (h : r ∈ anchorsOf ts) :
    r.stop = r.start := by
  rcases List.mem_append.1 h with h | h
  · obtain ⟨x, -, rfl⟩ := List.mem_map.1 h
    rfl
  · obtain ⟨c, -, h⟩ := List.mem_flatMap.1 h
    rw [anchorCall_eq] at h
    rcases List.mem_append.1 h with h | h
    · rw [mem_openingOf h]
      rfl
    · rw [List.mem_singleton.1 h]
      rcases closingOf_eq c with he | he <;> rw [he] <;> rfl

/-- Where two calls meet, what closes the first comes before what opens the second. -/
theorem filter_anchorCalls {cs : List ContextCall}
    (hs : cs.Pairwise fun c c' => c.start < c'.start ∧ c.inside < c'.inside)
    (hp : ∀ c ∈ cs, c.start < c.inside ∧ c.start < c.after) (position : Nat) :
    (cs.flatMap anchorCall).filter (Replacement.spans position position) =
      (cs.map closingOf).filter (Replacement.spans position position) ++
        (cs.flatMap openingOf).filter (Replacement.spans position position) := by
  induction cs with
  | nil => rfl
  | cons c cs ih =>
    obtain ⟨hc, hs⟩ := List.pairwise_cons.1 hs
    have hlater : ∀ c' ∈ c :: cs, c.start < (closingOf c').start := by
      intro c' hc'
      have hpc := hp c' hc'
      have hle : c.start ≤ c'.start := by
        rcases List.mem_cons.1 hc' with rfl | hc'
        · exact Nat.le_refl _
        · exact Nat.le_of_lt (hc c' hc').1
      rcases closingOf_eq c' with he | he <;> rw [he]
      · exact Nat.lt_of_le_of_lt hle hpc.2
      · exact Nat.lt_of_le_of_lt hle hpc.1
    rw [List.flatMap_cons, anchorCall_eq, List.filter_append, List.filter_append,
      ih hs (List.forall_mem_cons.1 hp).2, List.flatMap_cons, List.filter_append]
    by_cases ho : (openingOf c).filter (Replacement.spans position position) = []
    · rw [ho, List.nil_append, List.nil_append, ← List.append_assoc, ← List.filter_append]
      rfl
    · obtain ⟨r, hr⟩ := List.exists_mem_of_ne_nil _ ho
      obtain ⟨hr, hspan⟩ := List.mem_filter.1 hr
      have hstart : c.start = position := by
        rw [mem_openingOf hr] at hspan
        exact (Replacement.spans_iff.1 hspan).1
      have hnone : ((c :: cs).map closingOf).filter (Replacement.spans position position) = [] := by
        rw [List.filter_eq_nil_iff]
        intro r hr hspan
        obtain ⟨c', hc', rfl⟩ := List.mem_map.1 hr
        have := hlater c' hc'
        have := (Replacement.spans_iff.1 hspan).1
        omega
      rw [List.map_cons, List.filter_cons] at hnone
      split at hnone
      · cases hnone
      · rename_i hn
        rw [List.map_cons, List.filter_cons_of_neg hn, List.filter_cons_of_neg hn, hnone]
        simp

/-- No parenthesis ends where a relative path starts. -/
theorem closings_of_relativePath {ts : List Token} (ho : Ordered ts) {position : Nat}
    (h : position ∈ relativePaths ts) :
    (closings ts).filter (Replacement.spans position position) = [] := by
  obtain ⟨us, t, vs, he, ht, hb⟩ := mem_relativePaths h
  obtain ⟨hstep, hlast, -⟩ := beginsPath_iff.1 hb
  rw [List.filter_eq_nil_iff]
  intro r hr hspan
  obtain ⟨c, hc, rfl⟩ := List.mem_map.1 hr
  obtain ⟨us', n, p, vs', he', hcall⟩ := mem_contextCalls hc
  obtain ⟨close, hm, hk, hceq⟩ := hcall.call
  have hspan := (Replacement.spans_iff.1 hspan).1
  by_cases hl : c.name = "lang"
  · -- The closing parenthesis would be right before the path.
    have hstop : close.stop = t.start := by
      rw [ht, ← hspan, closingOf, if_pos hl, hceq]
      rfl
    have hlast' := (he ▸ ho).getLast?_of_stop (u := close) (by rw [← he, he']; simp [hm]) hstop
    have := hlast close hlast'
    rw [hk] at this
    cases this
  · -- The parenthesis that closes the call would be the start of the path.
    have hstop : p.stop = t.start := by
      rw [ht, ← hspan, closingOf, if_neg hl, hceq]
      rfl
    rw [← List.singleton_append, ← List.append_assoc] at he'
    have hvs := ho.eq_cons_of_stop he he' hstop
    have := hcall.bare hl t (by rw [hvs]; rfl)
    rw [this] at hstep
    cases hstep

/-- The anchors at one position: what stands after a token, then what stands before one. -/
theorem filter_anchorsOf {ts : List Token} (ho : Ordered ts) (position : Nat) :
    (anchorsOf ts).filter (Replacement.spans position position) =
      (closings ts).filter (Replacement.spans position position) ++
        (openings ts).filter (Replacement.spans position position) := by
  have hcalls := filter_anchorCalls (contextCalls_sorted ho)
    (fun c hc => start_lt_of_mem_contextCalls ho hc) position
  rw [anchorsOf, List.filter_append, hcalls, openings, List.filter_append]
  by_cases h : position ∈ relativePaths ts
  · have hnone := closings_of_relativePath ho h
    rw [closings] at hnone ⊢
    rw [hnone, List.nil_append, List.nil_append]
  · have hnone : ((relativePaths ts).map (Replacement.insertion · "/")).filter
        (Replacement.spans position position) = [] := by
      rw [List.filter_eq_nil_iff]
      intro r hr hspan
      obtain ⟨x, hx, rfl⟩ := List.mem_map.1 hr
      exact h ((Replacement.spans_iff.1 hspan).1 ▸ hx)
    rw [hnone, List.nil_append, List.nil_append]
    rfl

end TreeQuery.Plan
