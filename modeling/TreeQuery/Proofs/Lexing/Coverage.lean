import TreeQuery.Proofs.Lexing.Rule

/-!
# What is read of a text

A scan goes along a text token by token until the text ends or no further token can be read
(`exists_scan`). What it has passed by then is covered by its tokens but for white space (`Covers`),
and would be read as these tokens by itself. Main statement: `tokenize_accounts`.
-/

namespace TreeQuery.XPath

variable {last : Option TokenKind} {pos : Nat} {cs rest : List Char} {ts : List Token}
  {fault : Failure}

/-! ## Scans -/

/-- A scan of the text `cs`, which begins at `pos` and follows a token of kind `last`, finds the
tokens `ts` and comes to `rest`. -/
inductive Scan : Option TokenKind → Nat → List Char → List Token → List Char → Prop where
  | start {last : Option TokenKind} {pos : Nat} {cs : List Char} : Scan last pos cs [] cs
  | skip {last : Option TokenKind} {pos : Nat} {c : Char} {cs rest : List Char}
      {ts : List Token} (space : Text.isSpace c = true) (next : Scan last (pos + 1) cs ts rest) :
      Scan last pos (c :: cs) ts rest
  | read {last : Option TokenKind} {pos : Nat} {k : TokenKind} {t cs rest : List Char}
      {ts : List Token} (lexeme : lexeme? (t ++ cs) = some (k, t))
      (short : ¬(k = .integer ∧ maxDigits < t.length))
      (next : Scan (some (resolveStar last k)) (pos + t.length) cs ts rest) :
      Scan last pos (t ++ cs) (⟨resolveStar last k, t, pos⟩ :: ts) rest

theorem mem_spaces_iff {c : Char} : c ∈ [' ', '\t', '\r', '\n'] ↔ Text.isSpace c = true := by
  simp [Text.isSpace, or_assoc]

theorem lexeme?_eq_integer_iff {t : List Char} : lexeme? cs = some (.integer, t) ↔
    t ≠ [] ∧ (∀ c ∈ t, Text.isDigit c = true) ∧
      ∃ more, cs = t ++ more ∧ ∀ c ∈ more.head?, Text.isDigit c = false ∧ c ≠ '.' := by
  constructor
  · intro h
    obtain ⟨more, rfl⟩ := lexeme?_isPrefix h
    obtain ⟨ht, he⟩ := lexeme?_append_iff.1 h
    refine ⟨lexeme?_ne_nil ht, ?_, more, rfl, fun c hc => ?_⟩
    · have hr := rule_of_lexeme? ht 0
      generalize Token.value _ = v at hr
      cases hr with
      | sign spelled => cases spelled
      | integer filled digits => exact digits
    · simpa [extendedBy] using he c hc
  · rintro ⟨hne, hd, more, rfl, hm⟩
    obtain ⟨c, t, rfl⟩ := List.exists_cons_of_ne_nil hne
    have hc := hd c List.mem_cons_self
    have hq : (c == '"' || c == '\'') = false := by
      rw [Bool.or_eq_false_iff]
      constructor <;> refine beq_false_of_ne ?_ <;> rintro rfl <;> revert hc <;> decide
    rw [← numeral_stop hd hm, List.cons_append, lexeme?, hq, if_neg Bool.false_ne_true, if_pos hc]

/-- How a scan that has come to `rest` at `pos`, and has found `ts`, ends. -/
inductive Ending (pos : Nat) (rest : List Char) (ts : List Token) :
    Except Failure (List Token) → Prop where
  | complete (empty : rest = []) : Ending pos rest ts (.ok ts)
  /-- Text begins here that is no white space, and that no rule applies to. -/
  | unknown {c : Char} (filled : rest.head? = some c) (solid : c ∉ [' ', '\t', '\r', '\n'])
      (unread : ∀ k t v, Rule k t v → ¬t <+: rest) :
      Ending pos rest ts (.error (.unknownText (String.ofList (rest.take 10)) pos))
  /-- An integer begins here that has more digits than can be read. -/
  | long {ds more : List Char} (split : rest = ds ++ more)
      (digits : ∀ c ∈ ds, Text.isDigit c = true)
      (ended : ∀ c ∈ more.head?, Text.isDigit c = false ∧ c ≠ '.')
      (long : maxDigits < ds.length) : Ending pos rest ts (.error (.tooManyDigits ds.length))

theorem Ending.skip {answer : Except Failure (List Token)} {n m : Nat}
    (h : Ending (pos + n + m) rest ts answer) : Ending (pos + (n + m)) rest ts answer := by
  rwa [← Nat.add_assoc]

theorem Ending.cons {answer : Except Failure (List Token)} (h : Ending pos rest ts answer)
    (t : Token) : Ending pos rest (t :: ts) (answer.map (t :: ·)) := by
  cases h with
  | complete empty => exact .complete empty
  | unknown filled solid unread => exact .unknown filled solid unread
  | long split digits ended long => exact .long split digits ended long

/-- Every text is scanned to its end, or to a place where no token can be read. -/
theorem exists_scan (last : Option TokenKind) (pos : Nat) (cs : List Char) :
    ∃ ts before rest, cs = before ++ rest ∧ Scan last pos cs ts rest ∧
      Ending (pos + before.length) rest ts (tokensFrom last pos cs) := by
  fun_induction tokensFrom last pos cs with
  | case1 => exact ⟨[], [], [], rfl, .start, .complete rfl⟩
  | case2 last pos c cs hc ih =>
    obtain ⟨ts, before, rest, rfl, hs, hend⟩ := ih
    refine ⟨ts, c :: before, rest, rfl, hs.skip hc, ?_⟩
    rw [List.length_cons, Nat.add_comm before.length]
    exact hend.skip
  | case3 last pos c cs hc hl =>
    refine ⟨[], [], c :: cs, rfl, .start, .unknown rfl ?_ (lexeme?_eq_none_iff.1 hl)⟩
    rwa [mem_spaces_iff]
  | case4 last pos c cs hc k t hl hlong =>
    obtain ⟨rfl, hlong⟩ := hlong
    obtain ⟨-, hd, more, hsplit, hm⟩ := lexeme?_eq_integer_iff.1 hl
    exact ⟨[], [], c :: cs, rfl, .start, .long hsplit hd hm hlong⟩
  | case5 last pos c cs hc k t hl hshort kind ih =>
    obtain ⟨ts, before, rest, hdrop, hs, hend⟩ := ih
    obtain ⟨tail, htail⟩ := lexeme?_isPrefix hl
    rw [← htail] at hl hdrop hs hend ⊢
    rw [List.drop_left] at hdrop hs hend
    subst hdrop
    refine ⟨⟨kind, t, pos⟩ :: ts, t ++ before, rest, by rw [List.append_assoc], .read hl hshort hs,
      ?_⟩
    rw [List.drop_left, List.length_append]
    exact hend.skip.cons _

/-- What a scan has passed is laid out as the tokens it has found. -/
theorem Scan.laid (h : Scan last pos cs ts rest) :
    ∃ before, cs = before ++ rest ∧ Laid last pos before ts := by
  induction h with
  | start => exact ⟨[], rfl, .nil .nil⟩
  | skip space _ ih =>
    obtain ⟨before, rfl, hl⟩ := ih
    exact ⟨_ :: before, rfl, hl.blank_append space⟩
  | @read last pos k t cs rest ts lexeme short _ ih =>
    obtain ⟨before, rfl, hl⟩ := ih
    obtain ⟨hlexeme, hended⟩ := lexeme?_append_iff.1 lexeme
    have hended' : Ended k t before := by
      cases before with
      | nil => exact Blank.nil.ended
      | cons c before => exact hended
    have hfirst : Laid last pos ([] ++ t ++ before) (⟨resolveStar last k, t, pos⟩ :: ts) :=
      .cons .nil ⟨hlexeme, short⟩ hended' hl
    exact ⟨t ++ before, by rw [List.append_assoc], hfirst⟩

/-! ## Coverage -/

/-- Tokens that stand in a text one after the other with nothing but white space outside them, each
written by the rule of its kind. -/
structure Covers (cs : List Char) (ts : List Token) : Prop where
  sorted : ts.Pairwise fun a b => a.stop ≤ b.start
  proper : ∀ t ∈ ts, t.start < t.stop ∧ t.stop ≤ cs.length
  written : ∀ t ∈ ts, Rule t.kind (cs.extract t.start t.stop) t.value
  blank : ∀ i c, cs[i]? = some c → (∀ t ∈ ts, i < t.start ∨ t.stop ≤ i) →
    c ∈ [' ', '\t', '\r', '\n']

theorem extract_append (before t after : List Char) :
    (before ++ t ++ after).extract before.length (before.length + t.length) = t := by
  rw [List.extract_eq_take_drop, List.append_assoc, List.drop_left, Nat.add_sub_cancel_left,
    List.take_left]

theorem Laid.extract_after {pre : List Char} (h : Laid last pre.length cs ts) :
    ∀ t ∈ ts, (pre ++ cs).extract t.start t.stop = t.text := by
  generalize hpos : pre.length = pos at h
  induction h generalizing pre with
  | nil => exact nofun
  | @cons last pos k gap text rest ts blank lexeme ended next ih =>
    have hpre : pre ++ (gap ++ text ++ rest) = pre ++ gap ++ text ++ rest := by
      simp only [List.append_assoc]
    rw [hpre]
    refine List.forall_mem_cons.2 ⟨?_, ih ?_⟩
    · show (pre ++ gap ++ text ++ rest).extract (pos + gap.length)
        (pos + gap.length + text.length) = text
      rw [← hpos, ← List.length_append]
      exact extract_append _ _ _
    · rw [List.length_append, List.length_append, hpos]

/-- The part of a text that a token spans is the text of the token. -/
theorem Laid.extract (h : Laid last 0 cs ts) : ∀ t ∈ ts, cs.extract t.start t.stop = t.text :=
  @Laid.extract_after last cs ts [] h

theorem Laid.stop_le (h : Laid last pos cs ts) : ∀ t ∈ ts, t.stop ≤ pos + cs.length := by
  induction h with
  | nil => exact nofun
  | @cons last pos k gap text rest ts blank lexeme ended next ih =>
    simp only [List.length_append]
    refine List.forall_mem_cons.2 ⟨?_, fun t ht => ?_⟩
    · show pos + gap.length + text.length ≤ _
      omega
    · have := ih t ht
      omega

/-- Outside its tokens a text is blank. -/
theorem Laid.isSpace (h : Laid last pos cs ts) : ∀ i c, cs[i]? = some c →
    (∀ t ∈ ts, pos + i < t.start ∨ t.stop ≤ pos + i) → Text.isSpace c = true := by
  induction h with
  | nil blank => exact fun i c hc _ => blank c (List.mem_of_getElem? hc)
  | @cons last pos k gap text rest ts blank lexeme ended next ih =>
    intro i c hc ho
    obtain ⟨hfirst, ho⟩ := List.forall_mem_cons.1 ho
    have hfirst : pos + i < pos + gap.length ∨ pos + gap.length + text.length ≤ pos + i := hfirst
    rcases hfirst with hi | hi
    · have hi : i < gap.length := by omega
      rw [List.append_assoc, List.getElem?_append_left hi] at hc
      exact blank c (List.mem_of_getElem? hc)
    · have hi : (gap ++ text).length ≤ i := by
        rw [List.length_append]
        omega
      rw [List.getElem?_append_right hi, List.length_append] at hc
      refine ih _ c hc fun t ht => ?_
      have := ho t ht
      omega

theorem value_resolveStar {k : TokenKind} {text : List Char} {start : Nat}
    (h : Rule k text (Token.value ⟨k, text, start⟩)) (last : Option TokenKind) :
    Rule (resolveStar last k) text (Token.value ⟨resolveStar last k, text, start⟩) := by
  by_cases hk : resolveStar last k = k
  · rwa [hk]
  · unfold resolveStar at hk ⊢
    split at hk
    · split at hk
      · exact absurd rfl hk
      · next hl =>
        rw [if_neg hl]
        have hs : String.ofList text ∈ TokenKind.star.spellings := h.spelled (by decide)
        exact rule_of_spelling (k := .times) hs
    · exact absurd rfl hk

theorem Laid.rule (h : Laid last pos cs ts) : ∀ t ∈ ts, Rule t.kind t.text t.value := by
  induction h with
  | nil => exact nofun
  | cons blank lexeme ended next ih =>
    exact List.forall_mem_cons.2 ⟨value_resolveStar (rule_of_lexeme? lexeme.reads _) _, ih⟩

theorem Laid.covers (h : Laid last 0 cs ts) : Covers cs ts where
  sorted := h.ordered.1.sorted
  proper t ht := ⟨h.ordered.1.proper t ht, by simpa using h.stop_le t ht⟩
  written t ht := by
    rw [h.extract t ht]
    exact h.rule t ht
  blank i c hc ho := mem_spaces_iff.2 (h.isSpace i c hc (by simpa using ho))

/-! ## Slices -/

theorem extract_split (cs : List Char) {i j k : Nat} (hij : i ≤ j) (hjk : j ≤ k) :
    cs.extract i k = cs.extract i j ++ cs.extract j k := by
  have hk : k - i = (j - i) + (k - j) := by omega
  have hj : i + (j - i) = j := by omega
  rw [List.extract_eq_take_drop, List.extract_eq_take_drop, List.extract_eq_take_drop, hk,
    List.take_add, List.drop_drop, hj]

theorem Laid.blank_between (h : Laid last 0 cs ts) {t u : Token} (hu : [t, u] <:+: ts) :
    t.stop ≤ u.start ∧ Blank (cs.extract t.stop u.start) := by
  obtain ⟨before, after, rfl⟩ := hu
  rw [List.append_assoc] at h
  obtain ⟨hsorted, hproper⟩ := h.ordered.1
  obtain ⟨-, hpair, hbefore⟩ := List.pairwise_append.1 hsorted
  obtain ⟨ht, hu⟩ := List.pairwise_cons.1 hpair
  have htu := ht u List.mem_cons_self
  refine ⟨htu, fun c hc => ?_⟩
  obtain ⟨i, hi⟩ := List.mem_iff_getElem?.1 hc
  rw [List.extract_eq_take_drop, List.getElem?_take] at hi
  split at hi
  · next hlt =>
    rw [List.getElem?_drop] at hi
    refine h.isSpace _ c hi fun v hv => ?_
    rw [Nat.zero_add]
    rcases List.mem_append.1 hv with hv | hv
    · have := hbefore v hv t List.mem_cons_self
      have := hproper t (List.mem_append_right _ List.mem_cons_self)
      omega
    · rcases List.mem_cons.1 hv with rfl | hv
      · omega
      · rcases List.mem_cons.1 hv with rfl | hv
        · omega
        · have := (List.pairwise_cons.1 hu).1 v hv
          have := hproper u (by simp)
          omega
  · cases hi

theorem Laid.extract_run (h : Laid last 0 cs ts) {us : List Token} (hu : us <:+: ts)
    (hc : us.IsChain fun a b => a.stop = b.start) {t u : Token} (ht : t ∈ us.head?)
    (hl : u ∈ us.getLast?) :
    t.start ≤ u.stop ∧ cs.extract t.start u.stop = us.flatMap Token.text := by
  induction us generalizing t with
  | nil => cases ht
  | cons v us ih =>
    cases ht
    have hmem : v ∈ ts := hu.subset List.mem_cons_self
    have hproper := Nat.le_of_lt (h.ordered.1.proper v hmem)
    have hv := h.extract v hmem
    cases us with
    | nil =>
      obtain rfl : v = u := Option.some_inj.1 hl
      exact ⟨hproper, by rw [hv, List.flatMap_singleton]⟩
    | cons w us =>
      obtain ⟨hvw, hc⟩ := List.isChain_cons_cons.1 hc
      obtain ⟨hle, he⟩ := ih ((List.suffix_cons v _).isInfix.trans hu) hc rfl hl
      refine ⟨by omega, ?_⟩
      rw [extract_split cs hproper (by omega), hv, hvw, he]
      rfl

/-! ## Reading -/

/-- Every text is read token by token until it ends, until there is text that no rule applies to,
or until there is an integer that is too long. What comes before is covered by the tokens found,
and by itself it is read as them. -/
theorem tokenize_accounts (s : String) : ∃ ts before rest, s.toList = before ++ rest ∧
    Scan none 0 s.toList ts rest ∧ Covers before ts ∧
    tokenize (String.ofList before) = .ok ts ∧ Ending before.length rest ts (tokenize s) := by
  obtain ⟨ts, before, rest, hs, hscan, hend⟩ := exists_scan none 0 s.toList
  obtain ⟨before', hs', hl⟩ := hscan.laid
  obtain rfl : before = before' := List.append_cancel_right (hs.symm.trans hs')
  refine ⟨ts, before, rest, hs, hscan, hl.covers, ?_, ?_⟩
  · rw [tokenize, String.toList_ofList]
    exact hl.tokensFrom_eq
  · rwa [Nat.zero_add] at hend

end TreeQuery.XPath
