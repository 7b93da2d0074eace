import TreeQuery.Proofs.Rewriting.Anchor
import TreeQuery.Proofs.Rewriting.Arrangement

/-!
# Anchors at blocks

Every anchor stands at an end of a block, and none makes lexemes merge: a slash is put where an
operand begins or between two parentheses, and the rest begins and ends with what is part of no
other lexeme.
-/

namespace TreeQuery.XPath

/-- Tokens that lie in a text, and blocks they divide into. -/
structure Divided (ts : List Token) (bs : List Block) : Prop where
  ordered : Ordered ts
  lexemes : ∀ t ∈ ts, t.IsLexeme
  tokens : bs.flatMap Block.tokens = ts
  valid : ∀ b ∈ bs, b.Valid

theorem Divided.inOrder {ts : List Token} {bs : List Block} (h : Divided ts bs) : InOrder bs :=
  (h.tokens ▸ h.ordered).blocks

theorem Divided.first_mem {ts : List Token} {bs : List Block} (h : Divided ts bs) {b : Block}
    (hb : b ∈ bs) : b.first ∈ ts :=
  h.tokens ▸ List.mem_flatMap.2 ⟨b, hb, b.first_mem⟩

theorem Divided.last_mem {ts : List Token} {bs : List Block} (h : Divided ts bs) {b : Block}
    (hb : b ∈ bs) : b.last ∈ ts :=
  h.tokens ▸ List.mem_flatMap.2 ⟨b, hb, b.last_mem⟩

theorem Divided.split_first {ts : List Token} {bs : List Block} (h : Divided ts bs) {b : Block}
    {bs₁ bs₂ : List Block} (hb : bs = bs₁ ++ b :: bs₂) :
    ∃ vs, ts = bs₁.flatMap Block.tokens ++ b.first :: vs := by
  rw [← h.tokens, hb, List.flatMap_append, List.flatMap_cons]
  obtain ⟨t, us, ht⟩ := List.exists_cons_of_ne_nil b.tokens_ne_nil
  have := b.head?_tokens
  rw [ht] at this ⊢
  cases this
  exact ⟨_, rfl⟩

theorem noSlash_of_kind {t : Token} (h : t.IsLexeme) (hk : t.kind ≠ .slash)
    (hk' : t.kind ≠ .doubleSlash) : NoSlash t.text := by
  obtain ⟨last, k, ht, hl⟩ := h
  intro c hc
  rw [extendedBy]
  refine beq_false_of_ne fun he => ?_
  obtain ⟨cs, hcs⟩ : ∃ cs, t.text = '/' :: cs := by
    rw [he] at hc
    exact List.head?_eq_some_iff.1 hc
  have hr := hl.reads
  rw [hcs] at hr
  have hr : oneOrTwo .slash .doubleSlash '/' '/' cs = (k, '/' :: cs) := Option.some_inj.1 hr
  unfold oneOrTwo at hr
  split at hr
  · cases hr
    exact hk' ht
  · cases hr
    exact hk ht

/-! ## Relative paths and calls at blocks -/

variable {ts : List Token} {bs : List Block}

theorem not_interior_of_relativePath {us vs : List Token} {t : Token}
    (hb : beginsPath us.getLast? t vs = true) : ¬Interior us.getLast? t vs.head? := by
  obtain ⟨hstep, hlast, -⟩ := beginsPath_iff.1 hb
  rintro (hk | ⟨a, ha, hk⟩ | ⟨⟨a, ha, hk⟩, -⟩)
  · rw [hk] at hstep
    cases hstep
  · have := hlast a ha
    rw [hk] at this
    cases this
  · have := hlast a ha
    rw [hk] at this
    cases this

theorem not_interior_of_call {us vs : List Token} {n p : Token} {c : ContextCall}
    (h : CallAt us.getLast? n p vs c) : ¬Interior us.getLast? n (p :: vs).head? := by
  rintro (hk | ⟨a, ha, hk⟩ | ⟨-, ⟨d, hd, hk⟩⟩)
  · rw [h.name] at hk
    cases hk
  · exact h.notLocal a ha hk
  · cases hd
    rw [h.paren] at hk
    cases hk

theorem start_of_relativePath (h : Divided ts bs) {x : Nat} (hx : x ∈ relativePaths ts) :
    ∃ b ∈ bs, b.start = x := by
  obtain ⟨us, t, vs, he, rfl, hp⟩ := mem_relativePaths hx
  rcases first_or_interior h.valid (h.tokens.trans he) with ⟨b, hb, rfl⟩ | hi
  · exact ⟨b, hb, rfl⟩
  · exact absurd hi (not_interior_of_relativePath hp)

theorem start_of_call (h : Divided ts bs) {c : ContextCall} (hc : c ∈ contextCalls ts) :
    ∃ b ∈ bs, b.start = c.start := by
  obtain ⟨us, n, p, vs, he, hcall⟩ := mem_contextCalls hc
  obtain ⟨_, _, _, rfl⟩ := hcall.call
  rcases first_or_interior h.valid (h.tokens.trans he) with ⟨b, hb, rfl⟩ | hi
  · exact ⟨b, hb, rfl⟩
  · exact absurd hi (not_interior_of_call hcall)

theorem last_of_paren (h : Divided ts bs) {t : Token} (ht : t ∈ ts)
    (hk : t.kind = .openParen ∨ t.kind = .closeParen) : ∃ b ∈ bs, b.last = t := by
  rcases last_or_prefix h.valid (h.tokens ▸ ht) with hl | hn | hc | hd
  · exact hl
  · rw [Token.isName_eq] at hn
    rcases hk with hk | hk <;> rw [hk] at hn <;> cases hn
  · rcases hk with hk | hk <;> rw [hk] at hc <;> cases hc
  · rcases hk with hk | hk <;> rw [hk] at hd <;> cases hd

end TreeQuery.XPath

namespace TreeQuery.Plan

open XPath

variable {ts : List Token} {bs : List Block}

theorem openings_start (h : Divided ts bs) :
    ∀ r ∈ openings ts, ∃ b ∈ bs, b.start = r.start := by
  intro r hr
  rcases mem_openings hr with ⟨hx, -⟩ | ⟨c, hc, rfl⟩
  · exact start_of_relativePath h hx
  · exact start_of_call h hc

theorem exists_paren {ts : List Token} {c : ContextCall} (h : c ∈ contextCalls ts) :
    ∃ t ∈ ts, (closingOf c).start = t.stop ∧
      ((c.name = "lang" ∧ t.kind = .closeParen) ∨
        (c.name ≠ "lang" ∧ t.kind = .openParen ∧ c.inside = t.stop)) := by
  obtain ⟨us, n, p, vs, rfl, hcall⟩ := mem_contextCalls h
  obtain ⟨close, hm, hk, rfl⟩ := hcall.call
  by_cases hl : n.string = "lang"
  · refine ⟨close, by simp [hm], ?_, .inl ⟨hl, hk⟩⟩
    rw [closingOf, if_pos hl]
    rfl
  · refine ⟨p, by simp, ?_, .inr ⟨hl, hcall.paren, rfl⟩⟩
    rw [closingOf, if_neg hl]
    rfl

theorem closings_stop (h : Divided ts bs) : ∀ r ∈ closings ts, ∃ b ∈ bs, b.stop = r.start := by
  intro r hr
  obtain ⟨c, hc, rfl⟩ := List.mem_map.1 hr
  obtain ⟨t, ht, hs, hk⟩ := exists_paren hc
  have hk : t.kind = .openParen ∨ t.kind = .closeParen := by
    rcases hk with hk | hk
    · exact .inr hk.2
    · exact .inl hk.2.1
  obtain ⟨b, hb, rfl⟩ := last_of_paren h ht hk
  exact ⟨b, hb, hs.symm⟩

/-! ## What stands at one block -/

theorem eq_singleton {α : Type} {l : List α} {a : α} {f : α → Nat} {n : Nat}
    (hs : l.Pairwise fun a b => f a < f b) (ha : a ∈ l) (hl : ∀ b ∈ l, f b = n) : l = [a] := by
  cases l with
  | nil => cases ha
  | cons b l =>
    cases l with
    | nil => rw [List.mem_singleton.1 ha]
    | cons c l =>
      have hlt := (List.pairwise_cons.1 hs).1 c List.mem_cons_self
      rw [hl b List.mem_cons_self, hl c (by simp)] at hlt
      exact absurd hlt (Nat.lt_irrefl n)

/-- At a relative path stands one slash. -/
theorem filter_relativePaths (h : Ordered ts) (position : Nat) :
    ((relativePaths ts).map (Replacement.insertion · "/")).filter
        (Replacement.spans position position) =
      if position ∈ relativePaths ts then [.insertion position "/"] else [] := by
  have hf : (fun x => (Replacement.insertion x "/").spans position position) = (· == position) := by
    funext x
    simp [Replacement.spans, Replacement.insertion]
  rw [List.filter_map]
  show ((relativePaths ts).filter fun x => (Replacement.insertion x "/").spans _ _).map _ = _
  rw [hf]
  split
  · rename_i hx
    have hs := (relativePaths_sorted h).sublist (List.filter_sublist (p := (· == position)))
    rw [eq_singleton hs (List.mem_filter.2 ⟨hx, BEq.rfl⟩)
      fun b hb => eq_of_beq (List.mem_filter.1 hb).2]
    rfl
  · rename_i hx
    have hn : (relativePaths ts).filter (· == position) = [] :=
      List.filter_eq_nil_iff.2 fun x hx' he => hx (eq_of_beq he ▸ hx')
    rw [hn]
    rfl

/-- Where a call without arguments opens stands one slash. -/
theorem filter_closings_inside (h : Ordered ts) {c : ContextCall} (hc : c ∈ contextCalls ts)
    (hl : c.name ≠ "lang") :
    (closings ts).filter (Replacement.spans c.inside c.inside) = [.insertion c.inside "/"] := by
  have hs := (contextCalls_sorted h).imp And.right
  have hf := hs.sublist (List.filter_sublist
    (p := fun c' => (closingOf c').spans c.inside c.inside))
  have hmem : ∀ c' ∈ (contextCalls ts).filter fun c' => (closingOf c').spans c.inside c.inside,
      c'.inside = c.inside := by
    intro c' hc'
    obtain ⟨hc', hs'⟩ := List.mem_filter.1 hc'
    obtain ⟨t, ht, hstop, hk⟩ := exists_paren hc
    obtain ⟨t', ht', hstop', hk'⟩ := exists_paren hc'
    rcases hk with ⟨hl', -⟩ | ⟨-, hk, hi⟩
    · exact absurd hl' hl
    · obtain rfl : t' = t := h.eq_of_stop ht' ht (by rw [← hstop', (Replacement.spans_iff.1 hs').1, hi])
      rcases hk' with ⟨-, hk'⟩ | ⟨-, -, hi'⟩
      · rw [hk] at hk'
        cases hk'
      · rw [hi', hi]
  rw [closings, List.filter_map]
  show ((contextCalls ts).filter fun c' => (closingOf c').spans c.inside c.inside).map _ = _
  rw [eq_singleton hf (List.mem_filter.2 ⟨hc, ?_⟩) hmem, List.map_singleton, closingOf, if_neg hl]
  rw [closingOf, if_neg hl]
  exact Replacement.spans_self _

variable {edit : Block → Option String} {b : Block}

theorem mem_langTexts {s : String} {position : Nat}
    (h : s ∈ (((contextCalls ts).flatMap openingOf).filter
      (Replacement.spans position position)).map Replacement.text) : s = "(false() and " := by
  obtain ⟨r, hr, rfl⟩ := List.mem_map.1 h
  obtain ⟨c, -, hr⟩ := List.mem_flatMap.1 (List.mem_filter.1 hr).1
  rw [mem_openingOf hr]
  rfl

/-- Before a block stands a slash if it begins a relative path, then what opens calls. -/
theorem before_changeBy (h : Ordered ts) :
    (changeBy (openings ts) (closings ts) edit b).before =
      (if b.start ∈ relativePaths ts then ["/"] else []) ++
        (((contextCalls ts).flatMap openingOf).filter
          (Replacement.spans b.start b.start)).map Replacement.text := by
  show ((openings ts).filter _).map _ = _
  rw [openings, List.filter_append, filter_relativePaths h, List.map_append]
  split <;> rfl

theorem relativePath_of_roots (h : Ordered ts)
    (hr : (changeBy (openings ts) (closings ts) edit b).Roots) :
    b.start ∈ relativePaths ts := by
  by_contra hn
  rw [Change.Roots, before_changeBy h, if_neg hn, List.nil_append] at hr
  have := mem_langTexts (List.mem_of_mem_head? hr)
  revert this
  decide

/-- After a block stands a slash if it is the parenthesis of a call without arguments. -/
theorem after_changeBy (h : Divided ts bs) (hb : b ∈ bs) :
    (∀ s ∈ (changeBy (openings ts) (closings ts) edit b).after, s = ")") ∨
      (changeBy (openings ts) (closings ts) edit b).after = ["/"] ∧ b.last.kind = .openParen ∧
        ∃ c ∈ contextCalls ts, c.name ≠ "lang" ∧ c.inside = b.stop := by
  by_cases hc : ∃ c ∈ contextCalls ts, c.name ≠ "lang" ∧ c.inside = b.stop
  · obtain ⟨c, hc, hl, hi⟩ := hc
    refine .inr ⟨?_, ?_, c, hc, hl, hi⟩
    · show ((closings ts).filter (Replacement.spans b.stop b.stop)).map _ = _
      rw [← hi, filter_closings_inside h.ordered hc hl]
      rfl
    · obtain ⟨t, ht, -, ⟨hl', -⟩ | ⟨-, hk, hi'⟩⟩ := exists_paren hc
      · exact absurd hl' hl
      · rwa [h.ordered.eq_of_stop (h.last_mem hb) ht (hi.symm.trans hi')]
  · refine .inl fun s hs => ?_
    obtain ⟨r, hr, rfl⟩ := List.mem_map.1 hs
    obtain ⟨hr, hspan⟩ := List.mem_filter.1 hr
    obtain ⟨c, hc', rfl⟩ := List.mem_map.1 hr
    by_cases hl : c.name = "lang"
    · rw [closingOf, if_pos hl]
      rfl
    · rw [closingOf, if_neg hl] at hspan
      exact absurd ⟨c, hc', hl, (Replacement.spans_iff.1 hspan).1⟩ hc

theorem fits_changeBy (h : Divided ts bs) (hb : b ∈ bs)
    (hedit : ∀ s ∈ edit b, Reads b.first b.last s.toList (lexemesOf s)) :
    (changeBy (openings ts) (closings ts) edit b).Fits b where
  before := by
    rw [before_changeBy h.ordered]
    split
    · rename_i hx
      obtain ⟨us, t, vs, he, ht, hp⟩ := mem_relativePaths hx
      refine .inr ⟨_, rfl, fun s hs => mem_langTexts hs ▸ detached_falseAnd, ?_⟩
      obtain rfl : b.first = t := by
        obtain ⟨bs₁, bs₂, hbs⟩ := List.append_of_mem hb
        obtain ⟨ws, hw⟩ := h.split_first hbs
        exact (h.ordered.eq_of_start hw he ht.symm).2.1
      have hstep := (beginsPath_iff.1 hp).1
      refine noSlash_of_kind (h.lexemes _ (h.first_mem hb)) ?_ ?_ <;> intro hk <;>
        rw [hk] at hstep <;> cases hstep
    · exact .inl fun s hs => mem_langTexts hs ▸ detached_falseAnd
  instead := hedit
  after := by
    rcases after_changeBy h hb with ha | ⟨ha, hk, -⟩
    · exact .inl fun s hs => ha s hs ▸ detached_closeParen
    · refine .inr ⟨ha, ?_⟩
      rw [hk]
      decide

theorem joins_changeBy (h : Divided ts bs) :
    bs.IsChain (Joins (changeBy (openings ts) (closings ts) edit)) := by
  refine List.isChain_iff_forall_rel_of_append_cons_cons.2 fun b b' bs₁ bs₂ hbs => ?_
  have hb : b ∈ bs := by simp [hbs]
  have hb' : b' ∈ bs := by simp [hbs]
  have hlast : ((bs₁ ++ [b]).flatMap Block.tokens).getLast? = some b.last := by
    rw [List.flatMap_append, List.flatMap_singleton, List.getLast?_append, b.getLast?_tokens]
    rfl
  obtain ⟨vs, hsplit⟩ := h.split_first (hbs.trans (List.append_cons bs₁ b (b' :: bs₂)))
  -- After the parenthesis of a call without arguments comes the other parenthesis.
  have hclose (c : ContextCall) (hc : c ∈ contextCalls ts) (hl : c.name ≠ "lang")
      (hi : c.inside = b.stop) : b'.first.kind = .closeParen := by
    obtain ⟨us, n, p, ws, he, hcall⟩ := mem_contextCalls hc
    have hp : c.inside = p.stop := by
      obtain ⟨_, _, _, rfl⟩ := hcall.call
      rfl
    obtain rfl : p = b.last :=
      h.ordered.eq_of_stop (by rw [he]; simp) (h.last_mem hb) (hp.symm.trans hi)
    obtain ⟨xs, hxs⟩ := List.getLast?_eq_some_iff.1 hlast
    rw [hxs, List.append_assoc] at hsplit
    rw [← List.singleton_append, ← List.append_assoc] at he
    have hws := (h.ordered.eq_of_start he hsplit rfl).2.2
    exact hcall.bare hl _ (by rw [hws]; rfl)
  constructor
  · intro hr
    obtain ⟨us, t, ws, he, ht, hp⟩ := mem_relativePaths (relativePath_of_roots h.ordered hr)
    obtain ⟨hu, rfl, -⟩ := h.ordered.eq_of_start hsplit he ht.symm
    obtain ⟨hstep, hstarts, -⟩ := beginsPath_iff.1 hp
    have := hstarts b.last (by rw [← hu, hlast]; rfl)
    refine ⟨fun hk => ?_, fun ha => ?_⟩
    · rw [hk] at this
      cases this
    · rcases after_changeBy h hb with hall | ⟨-, -, c, hc, hl, hi⟩
      · rw [ha] at hall
        exact absurd (hall "/" (by simp)) (by decide)
      · rw [hclose c hc hl hi] at hstep
        cases hstep
  · intro ha
    rcases after_changeBy h hb with hall | ⟨-, -, c, hc, hl, hi⟩
    · rw [ha] at hall
      exact absurd (hall "/" (by simp)) (by decide)
    · refine noSlash_of_kind (h.lexemes _ (h.first_mem hb')) ?_ ?_ <;>
        rw [hclose c hc hl hi] <;> decide

end TreeQuery.Plan
