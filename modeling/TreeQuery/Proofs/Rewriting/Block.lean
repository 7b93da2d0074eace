import Mathlib.Data.List.Chain
import TreeQuery.Proofs.Lexing.Layout
import TreeQuery.XPath.Reference

/-!
# Tokens that belong together

The two scans for references each skip over what they find. `exists_blocks` reads both off one
division of the tokens into blocks: a prefixed variable reference, a prefixed name, or a token by
itself. It needs a name after every `$`, since the scans go on at different tokens otherwise.
-/

namespace TreeQuery.XPath

theorem isQualified_iff {p c l : Token} : isQualified p c l = true ↔
    p.isName = true ∧ c.kind = .colon ∧ (l.isName = true ∨ l.kind = .star) ∧
      p.stop = c.start ∧ c.stop = l.start := by
  simp [isQualified, and_assoc]

theorem qualified?_eq_some_iff {ts rest : List Token} {p l : Token} :
    qualified? ts = some (p, l, rest) ↔
      ∃ c, ts = p :: c :: l :: rest ∧ isQualified p c l = true := by
  unfold qualified?
  constructor
  · intro h
    split at h
    · split at h
      · rename_i c _ _ hq
        cases h
        exact ⟨c, rfl, hq⟩
      · cases h
    · cases h
  · rintro ⟨c, rfl, hq⟩
    simp [hq]

theorem Token.kind_ne_of_isName {t : Token} {k : TokenKind} (h : t.isName = true)
    (hk : ∀ u : Token, u.kind = k → u.isName = false) : t.kind ≠ k := by
  intro he
  rw [hk t he] at h
  cases h

theorem Token.isName_of_dollar (t : Token) (h : t.kind = .dollar) : t.isName = false := by
  simp [Token.isName, h]

theorem variableReferences_cons {t : Token} {ts : List Token} (h : t.kind ≠ .dollar) :
    variableReferences (t :: ts) = variableReferences ts := by
  cases ts with
  | nil => rw [variableReferences, variableReferences] <;> simp
  | cons n ts =>
    rw [variableReferences]
    simp [h]

theorem local_ne_dollar {p c l : Token} (h : isQualified p c l = true) : l.kind ≠ .dollar := by
  obtain ⟨-, -, hl | hl, -⟩ := isQualified_iff.1 h
  · exact l.kind_ne_of_isName hl Token.isName_of_dollar
  · rw [hl]
    decide

theorem variableReferences_qualified {p c l : Token} {ts : List Token}
    (h : isQualified p c l = true) :
    variableReferences (p :: c :: l :: ts) = variableReferences ts := by
  obtain ⟨hp, hc, -⟩ := isQualified_iff.1 h
  rw [variableReferences_cons (p.kind_ne_of_isName hp Token.isName_of_dollar),
    variableReferences_cons (by rw [hc]; decide), variableReferences_cons (local_ne_dollar h)]

theorem nameUse_eq_wildcard_iff {l : Token} {rest : List Token} :
    nameUse l rest = .wildcard ↔ l.kind = .star := by
  unfold nameUse
  split
  · rename_i h
    exact iff_of_true rfl (eq_of_beq h)
  · rename_i h
    refine iff_of_false ?_ fun hk => h (by rw [hk]; rfl)
    split <;> exact nofun

/-! ## Blocks -/

/-- Tokens that are replaced together, if at all. -/
inductive Block where
  | single (t : Token)
  | reference (d p c l : Token)
  | name (p c l : Token) (use : NameUse)

namespace Block

def tokens : Block → List Token
  | single t => [t]
  | reference d p c l => [d, p, c, l]
  | name p c l _ => [p, c, l]

def first : Block → Token
  | single t => t
  | reference d _ _ _ => d
  | name p _ _ _ => p

def last : Block → Token
  | single t => t
  | reference _ _ _ l => l
  | name _ _ l _ => l

def start (b : Block) : Nat := b.first.start

def stop (b : Block) : Nat := b.last.stop

/-- The tokens are what the block takes them for. -/
def Valid : Block → Prop
  | single _ => True
  | reference d p c l => d.kind = .dollar ∧ isQualified p c l = true ∧ l.kind ≠ .star
  | name p c l use => isQualified p c l = true ∧ (use = .wildcard ↔ l.kind = .star)

def reference? : Block → Option VariableReference
  | reference d p _ l => some ⟨some p.string, l.string, d.start, l.stop⟩
  | _ => none

def qualifiedName? : Block → Option QualifiedName
  | name p _ l use => some ⟨p.string, l.string, use, p.start, l.stop⟩
  | _ => none

theorem first_mem (b : Block) : b.first ∈ b.tokens := by
  cases b <;> exact List.mem_cons_self

theorem last_mem (b : Block) : b.last ∈ b.tokens := by
  cases b <;> simp [last, tokens]

theorem tokens_ne_nil (b : Block) : b.tokens ≠ [] :=
  List.ne_nil_of_mem b.first_mem

theorem head?_tokens (b : Block) : b.tokens.head? = some b.first := by
  cases b <;> rfl

theorem getLast?_tokens (b : Block) : b.tokens.getLast? = some b.last := by
  cases b <;> rfl

theorem tokens_singles (ts : List Token) : (ts.map single).flatMap tokens = ts := by
  rw [List.flatMap_map]
  exact List.flatMap_singleton' ts

end Block

/-- Blocks that are not empty and follow each other. -/
structure InOrder (bs : List Block) : Prop where
  sorted : bs.Pairwise fun b b' => b.stop ≤ b'.start
  proper : ∀ b ∈ bs, b.start < b.stop

theorem InOrder.of_cons {b : Block} {bs : List Block} (h : InOrder (b :: bs)) : InOrder bs :=
  ⟨(List.pairwise_cons.1 h.sorted).2, (List.forall_mem_cons.1 h.proper).2⟩

theorem Block.bounds {b : Block} (h : Ordered b.tokens) {t : Token} (ht : t ∈ b.tokens) :
    b.start ≤ t.start ∧ t.stop ≤ b.stop := by
  constructor
  · obtain ⟨u, us, hu⟩ := List.exists_cons_of_ne_nil b.tokens_ne_nil
    have hf := b.head?_tokens
    rw [hu] at h ht hf
    cases hf
    rcases List.mem_cons.1 ht with rfl | ht
    · exact Nat.le_refl _
    · exact Nat.le_of_lt (h.start_lt ht)
  · obtain ⟨us, hu⟩ := List.getLast?_eq_some_iff.1 b.getLast?_tokens
    rw [hu] at h ht
    rcases List.mem_append.1 ht with ht | ht
    · have hle := (List.pairwise_append.1 h.sorted).2.2 t ht b.last List.mem_cons_self
      have hlt := h.proper b.last (by simp)
      exact Nat.le_of_lt (Nat.lt_of_le_of_lt hle hlt)
    · rw [List.mem_singleton.1 ht]
      exact Nat.le_refl _

theorem Block.start_lt_stop {b : Block} (h : Ordered b.tokens) : b.start < b.stop :=
  Nat.lt_of_lt_of_le (h.proper _ b.first_mem) (bounds h b.first_mem).2

theorem Ordered.block {bs : List Block} (h : Ordered (bs.flatMap Block.tokens)) {b : Block}
    (hb : b ∈ bs) : Ordered b.tokens :=
  ⟨(List.pairwise_flatMap.1 h.sorted).1 b hb,
    fun t ht => h.proper t (List.mem_flatMap.2 ⟨b, hb, ht⟩)⟩

theorem Ordered.blocks {bs : List Block} (h : Ordered (bs.flatMap Block.tokens)) : InOrder bs where
  sorted := (List.pairwise_flatMap.1 h.sorted).2.imp fun hb =>
    hb _ (Block.last_mem _) _ (Block.first_mem _)
  proper _ hb := Block.start_lt_stop (h.block hb)

/-! ## Tokens within blocks -/

/-- Where a token can stand that is not the first of its block: it is a colon or follows one, or it
stands between a `$` and a colon. -/
def Interior (before : Option Token) (t : Token) (after : Option Token) : Prop :=
  t.kind = .colon ∨ (∃ a ∈ before, a.kind = .colon) ∨
    (∃ a ∈ before, a.kind = .dollar) ∧ ∃ c ∈ after, c.kind = .colon

theorem Block.interior {b : Block} (hb : b.Valid) {us vs : List Token} {t : Token}
    (h : b.tokens = us ++ t :: vs) (hu : us ≠ []) (rest : List Token) :
    Interior us.getLast? t (vs ++ rest).head? := by
  obtain ⟨u, us, rfl⟩ := List.exists_cons_of_ne_nil hu
  cases b with
  | single x => simp [tokens] at h
  | reference d p c l =>
    obtain ⟨hd, hq, -⟩ := hb
    have hc := (isQualified_iff.1 hq).2.1
    rcases us with _ | ⟨u₂, _ | ⟨u₃, _ | ⟨u₄, us⟩⟩⟩
    · cases h
      exact .inr (.inr ⟨⟨_, rfl, hd⟩, ⟨_, rfl, hc⟩⟩)
    · cases h
      exact .inl hc
    · cases h
      exact .inr (.inl ⟨_, rfl, hc⟩)
    · simp [tokens] at h
  | name p c l use =>
    have hc := (isQualified_iff.1 hb.1).2.1
    rcases us with _ | ⟨u₂, _ | ⟨u₃, us⟩⟩
    · cases h
      exact .inl hc
    · cases h
      exact .inr (.inl ⟨_, rfl, hc⟩)
    · simp [tokens] at h

theorem Interior.of_cons {us : List Token} {t u : Token} {after : Option Token}
    (h : Interior us.getLast? t after) : Interior (u :: us).getLast? t after := by
  rw [List.getLast?_cons]
  rcases h with hk | ⟨a, ha, hk⟩ | ⟨⟨a, ha, hk⟩, hc⟩
  · exact .inl hk
  · exact .inr (.inl ⟨a, by rw [ha]; rfl, hk⟩)
  · exact .inr (.inr ⟨⟨a, by rw [ha]; rfl, hk⟩, hc⟩)

theorem Interior.of_append (ws : List Token) {us : List Token} {t : Token} {after : Option Token}
    (h : Interior us.getLast? t after) : Interior (ws ++ us).getLast? t after := by
  induction ws with
  | nil => exact h
  | cons w ws ih => exact ih.of_cons

/-- A token is the first of its block, or its neighbours tell that it is not. -/
theorem first_or_interior {bs : List Block} (hv : ∀ b ∈ bs, b.Valid) {us vs : List Token}
    {t : Token} (h : bs.flatMap Block.tokens = us ++ t :: vs) :
    (∃ b ∈ bs, b.first = t) ∨ Interior us.getLast? t vs.head? := by
  induction bs generalizing us with
  | nil => simp at h
  | cons b bs ih =>
    obtain ⟨hb, hv⟩ := List.forall_mem_cons.1 hv
    rw [List.flatMap_cons, List.append_eq_append_iff] at h
    rcases h with ⟨ws, rfl, hr⟩ | ⟨ws, hbt, hr⟩
    · rcases ih hv hr with ⟨b', hb', ht⟩ | hi
      · exact .inl ⟨b', List.mem_cons_of_mem _ hb', ht⟩
      · exact .inr (hi.of_append _)
    · cases ws with
      | nil =>
        rcases @ih hv [] hr.symm with ⟨b', hb', ht⟩ | hi
        · exact .inl ⟨b', List.mem_cons_of_mem _ hb', ht⟩
        · exact .inr (by simpa using hi.of_append us)
      | cons w ws =>
        obtain ⟨rfl, hvs⟩ := List.cons.inj hr
        by_cases hu : us = []
        · refine .inl ⟨b, List.mem_cons_self, ?_⟩
          have := b.head?_tokens
          rw [hbt, hu] at this
          exact (Option.some_inj.1 this).symm
        · rw [hvs]
          exact .inr (Block.interior hb hbt hu _)

/-- A token that is not the last of its block is part of a reference's prefix. -/
theorem last_or_prefix {bs : List Block} (hv : ∀ b ∈ bs, b.Valid) {t : Token}
    (h : t ∈ bs.flatMap Block.tokens) :
    (∃ b ∈ bs, b.last = t) ∨ t.isName = true ∨ t.kind = .colon ∨ t.kind = .dollar := by
  obtain ⟨b, hb, ht⟩ := List.mem_flatMap.1 h
  have hvb := hv b hb
  cases b with
  | single x =>
    cases List.mem_singleton.1 ht
    exact .inl ⟨_, hb, rfl⟩
  | reference d p c l =>
    obtain ⟨hd, hq, -⟩ := hvb
    obtain ⟨hp, hc, -⟩ := isQualified_iff.1 hq
    simp only [Block.tokens, List.mem_cons, List.not_mem_nil, or_false] at ht
    rcases ht with rfl | rfl | rfl | rfl
    · exact .inr (.inr (.inr hd))
    · exact .inr (.inl hp)
    · exact .inr (.inr (.inl hc))
    · exact .inl ⟨_, hb, rfl⟩
  | name p c l use =>
    obtain ⟨hp, hc, -⟩ := isQualified_iff.1 hvb.1
    simp only [Block.tokens, List.mem_cons, List.not_mem_nil, or_false] at ht
    rcases ht with rfl | rfl | rfl
    · exact .inr (.inl hp)
    · exact .inr (.inr (.inl hc))
    · exact .inl ⟨_, hb, rfl⟩

/-! ## Division into blocks -/

/-- A division of tokens into blocks, with the references that are found among them. -/
structure Division (ts : List Token) (bs : List Block) : Prop where
  tokens : bs.flatMap Block.tokens = ts
  valid : ∀ b ∈ bs, b.Valid
  references : bs.filterMap Block.reference? = (variableReferences ts).filter (·.pfx.isSome)
  names : bs.filterMap Block.qualifiedName? = qualifiedNames ts

theorem Division.singles {ts : List Token} {bs : List Block} (h : Division ts bs)
    (us : List Token)
    (hr : (variableReferences (us ++ ts)).filter (·.pfx.isSome) =
      (variableReferences ts).filter (·.pfx.isSome))
    (hn : qualifiedNames (us ++ ts) = qualifiedNames ts) :
    Division (us ++ ts) (us.map .single ++ bs) where
  tokens := by
    rw [List.flatMap_append, h.tokens, Block.tokens_singles]
  valid := by
    intro b hb
    rcases List.mem_append.1 hb with hb | hb
    · obtain ⟨u, -, rfl⟩ := List.mem_map.1 hb
      trivial
    · exact h.valid b hb
  references := by
    rw [hr, ← h.references, List.filterMap_append]
    simp [Block.reference?]
  names := by
    rw [hn, ← h.names, List.filterMap_append]
    simp [Block.qualifiedName?]

theorem qualified?_of_isQualified {p c l : Token} {ts : List Token}
    (h : isQualified p c l = true) : qualified? (p :: c :: l :: ts) = some (p, l, ts) :=
  qualified?_eq_some_iff.2 ⟨c, rfl, h⟩

theorem variableReferences_reference {d p c l : Token} {ts : List Token}
    (hd : d.kind = .dollar) (h : isQualified p c l = true) (hl : l.kind ≠ .star) :
    variableReferences (d :: p :: c :: l :: ts) =
      ⟨some p.string, l.string, d.start, l.stop⟩ :: variableReferences ts := by
  have hp := (isQualified_iff.1 h).1
  rw [variableReferences, if_pos (by simp [hd, hp])]
  split
  · rename_i hs
    rw [qualified?_of_isQualified h] at hs
    cases hs
    rw [if_neg (by simpa using hl)]
  · rename_i hs
    rw [qualified?_of_isQualified h] at hs
    cases hs

/-- A variable whose name ends before a `:*`. -/
theorem variableReferences_star {d p c l : Token} {ts : List Token} (hd : d.kind = .dollar)
    (h : isQualified p c l = true) (hl : l.kind = .star) :
    variableReferences (d :: p :: c :: l :: ts) =
      ⟨none, p.string, d.start, p.stop⟩ :: variableReferences ts := by
  obtain ⟨hp, hc, -⟩ := isQualified_iff.1 h
  have hr : variableReferences (c :: l :: ts) = variableReferences ts := by
    rw [variableReferences_cons (by rw [hc]; decide), variableReferences_cons (by rw [hl]; decide)]
  rw [variableReferences, if_pos (by simp [hd, hp])]
  split
  · rename_i hs
    rw [qualified?_of_isQualified h] at hs
    cases hs
    rw [if_pos (by simpa using hl), hr]
  · rw [hr]

theorem variableReferences_unprefixed {d n : Token} {ts : List Token} (hd : d.kind = .dollar)
    (hn : n.isName = true) (h : qualified? (n :: ts) = none) :
    variableReferences (d :: n :: ts) =
      ⟨none, n.string, d.start, n.stop⟩ :: variableReferences ts := by
  rw [variableReferences, if_pos (by simp [hd, hn])]
  split
  · rename_i hs
    rw [h] at hs
    cases hs
  · rfl

theorem qualifiedNames_name {p c l : Token} {ts : List Token} (hp : p.kind ≠ .dollar)
    (h : isQualified p c l = true) :
    qualifiedNames (p :: c :: l :: ts) =
      ⟨p.string, l.string, nameUse l ts, p.start, l.stop⟩ :: qualifiedNames ts := by
  rw [qualifiedNames, if_neg (by simpa using hp)]
  split
  · rename_i hs
    rw [qualified?_of_isQualified h] at hs
    cases hs
    rfl
  · rename_i hs
    rw [qualified?_of_isQualified h] at hs
    cases hs

theorem qualifiedNames_reference {d p c l : Token} {ts : List Token} (hd : d.kind = .dollar)
    (h : isQualified p c l = true) :
    qualifiedNames (d :: p :: c :: l :: ts) = qualifiedNames ts := by
  rw [qualifiedNames, if_pos (by simpa using hd)]
  split
  · rename_i hs
    rw [qualified?_of_isQualified h] at hs
    cases hs
    rfl
  · rename_i hs
    rw [qualified?_of_isQualified h] at hs
    cases hs

theorem qualifiedNames_unprefixed {d : Token} {ts : List Token} (hd : d.kind = .dollar)
    (h : qualified? ts = none) : qualifiedNames (d :: ts) = qualifiedNames ts.tail := by
  rw [qualifiedNames, if_pos (by simpa using hd)]
  split
  · rename_i hs
    rw [h] at hs
    cases hs
  · rfl

theorem qualifiedNames_cons {t : Token} {ts : List Token} (ht : t.kind ≠ .dollar)
    (h : qualified? (t :: ts) = none) : qualifiedNames (t :: ts) = qualifiedNames ts := by
  rw [qualifiedNames, if_neg (by simpa using ht)]
  split
  · rename_i hs
    rw [h] at hs
    cases hs
  · rfl

/-- A name after every `$`. -/
def Dollars (ts : List Token) : Prop :=
  ts.IsChain fun a b => a.kind = .dollar → b.isName = true

theorem Dollars.of_append (us : List Token) {ts : List Token} (h : Dollars (us ++ ts)) :
    Dollars ts :=
  (List.isChain_append.1 h).2.1

theorem exists_blocks {ts : List Token} (h : Dollars ts) : ∃ bs, Division ts bs := by
  fun_induction qualifiedNames ts
  case case1 => exact ⟨[], rfl, by simp, by simp [variableReferences], by simp [qualifiedNames]⟩
  case case2 d rest hd p l rest' hq ih =>
    obtain ⟨c, rfl, hv⟩ := qualified?_eq_some_iff.1 hq
    obtain ⟨bs, hb⟩ := ih (h.of_append [d, p, c, l])
    have hd := eq_of_beq hd
    by_cases hl : l.kind = .star
    · refine ⟨_, hb.singles [d, p, c, l] ?_ (qualifiedNames_reference hd hv)⟩
      show (variableReferences (d :: p :: c :: l :: rest')).filter _ = _
      rw [variableReferences_star hd hv hl]
      rfl
    · refine ⟨.reference d p c l :: bs, ?_, ?_, ?_, ?_⟩
      · exact congrArg ([d, p, c, l] ++ ·) hb.tokens
      · exact List.forall_mem_cons.2 ⟨⟨hd, hv, hl⟩, hb.valid⟩
      · rw [variableReferences_reference hd hv hl]
        exact congrArg (_ :: ·) hb.references
      · rw [qualifiedNames_reference hd hv]
        exact hb.names
  case case3 d rest hd hq ih =>
    have hd := eq_of_beq hd
    cases rest with
    | nil =>
      obtain ⟨bs, hb⟩ := ih .nil
      refine ⟨_, hb.singles [d] ?_ (qualifiedNames_unprefixed hd hq)⟩
      simp [variableReferences]
    | cons n rest =>
      have hn := (List.isChain_cons_cons.1 h).1 hd
      obtain ⟨bs, hb⟩ := ih (h.of_append [d, n])
      refine ⟨_, hb.singles [d, n] ?_ (qualifiedNames_unprefixed hd hq)⟩
      show (variableReferences (d :: n :: rest)).filter _ = _
      rw [variableReferences_unprefixed hd hn hq]
      rfl
  case case4 p rest hd p' l rest' hq ih =>
    obtain ⟨c, he, hv⟩ := qualified?_eq_some_iff.1 hq
    cases he
    obtain ⟨bs, hb⟩ := ih (h.of_append [p, c, l])
    refine ⟨.name p c l (nameUse l rest') :: bs, ?_, ?_, ?_, ?_⟩
    · exact congrArg ([p, c, l] ++ ·) hb.tokens
    · exact List.forall_mem_cons.2 ⟨⟨hv, nameUse_eq_wildcard_iff⟩, hb.valid⟩
    · rw [variableReferences_qualified hv]
      exact hb.references
    · rw [qualifiedNames_name (by simpa using hd) hv]
      exact congrArg (_ :: ·) hb.names
  case case5 t rest hd hq ih =>
    have hd : t.kind ≠ .dollar := by simpa using hd
    obtain ⟨bs, hb⟩ := ih (h.of_append [t])
    refine ⟨_, hb.singles [t] ?_ (qualifiedNames_cons hd hq)⟩
    show (variableReferences (t :: rest)).filter _ = _
    rw [variableReferences_cons hd]

end TreeQuery.XPath
