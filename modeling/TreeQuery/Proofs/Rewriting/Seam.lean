import TreeQuery.Proofs.Lexing.Layout
import TreeQuery.Proofs.Rewriting.Block
import TreeQuery.Proofs.Splicing

/-!
# Seams

A changed text is read as the lexemes of its parts if no two of them merge where parts meet. What
is put in the place of a block must end what comes before and be ended by what comes after as the
block itself was (`Reads`); what anchors insert ends everything but a slash before a slash.
-/

namespace TreeQuery.XPath

/-- A text that can stand for the tokens from `first` to `last`, and is read as `texts`. -/
structure Reads (first last : Token) (new : List Char) (texts : List (List Char)) : Prop where
  front : ∀ {k t rest rest'}, Ended k t (first.text ++ rest) → Ended k t (new ++ rest')
  spelled : ∀ {rest us}, Spelled rest us → Ended last.kind last.text rest →
    Spelled (new ++ rest) (texts ++ us)

/-- The token is a lexeme of its kind, up to what a `*` stands for. -/
def Token.IsLexeme (t : Token) : Prop :=
  ∃ last k, t.kind = resolveStar last k ∧ XPath.IsLexeme k t.text

theorem Token.IsLexeme.ne_nil {t : Token} (h : t.IsLexeme) : t.text ≠ [] := by
  obtain ⟨_, _, _, ht⟩ := h
  exact ht.ne_nil

theorem Token.IsLexeme.of_isName {t : Token} (h : t.IsLexeme) (hn : t.isName = true) :
    XPath.IsLexeme t.kind t.text := by
  obtain ⟨last, k, hk, h⟩ := h
  have he : t.kind = k := by
    unfold resolveStar at hk
    split at hk
    · split at hk <;> simp [Token.isName, hk] at hn
    · exact hk
  rwa [he]

theorem Token.IsLexeme.spelled {t : Token} {rest : List Char} {us : List (List Char)}
    (h : t.IsLexeme) (hs : Spelled rest us) (he : Ended t.kind t.text rest) :
    Spelled (t.text ++ rest) (t.text :: us) := by
  obtain ⟨last, k, hk, h⟩ := h
  rw [hk, ended_resolveStar] at he
  exact hs.lexeme_append h he

/-- The tokens `us` lie at the front of a text, after `gap`: they are `old`, and `rest` follows. -/
structure Cut (pos : Nat) (first last : Token) (us ts : List Token)
    (gap old rest : List Char) : Prop where
  blank : Blank gap
  start : first.start = pos + gap.length
  stop : last.stop = first.start + old.length
  head : ∃ more, old = first.text ++ more
  ended : Ended last.kind last.text rest
  next : Laid (some last.kind) last.stop rest ts
  reads : Reads first last old (us.map Token.text)

theorem Laid.isLexeme {last : Option TokenKind} {pos : Nat} {cs : List Char} {ts : List Token}
    (h : Laid last pos cs ts) : ∀ t ∈ ts, t.IsLexeme := by
  induction h with
  | nil => simp
  | cons blank lexeme ended next ih => exact List.forall_mem_cons.2 ⟨⟨_, _, rfl, lexeme⟩, ih⟩

theorem Laid.cut_one {last : Option TokenKind} {pos : Nat} {cs : List Char} {t : Token}
    {ts : List Token} (h : Laid last pos cs (t :: ts)) :
    ∃ gap rest, cs = gap ++ t.text ++ rest ∧ Cut pos t t [t] ts gap t.text rest := by
  have ht := h.isLexeme t List.mem_cons_self
  cases h with
  | cons blank lexeme ended next =>
    refine ⟨_, _, rfl, blank, rfl, rfl, ⟨[], by simp⟩, ended_resolveStar.2 ended, next, ?_, ?_⟩
    · exact Ended.of_append ht.ne_nil
    · exact fun hs he => ht.spelled hs he

/-- Tokens at the front of a text can be cut off together. -/
theorem Laid.cut {last : Option TokenKind} {pos : Nat} {cs : List Char} {first final : Token}
    {us ts : List Token} (h : Laid last pos cs (us ++ ts)) (hf : us.head? = some first)
    (hl : us.getLast? = some final) :
    ∃ gap old rest, cs = gap ++ old ++ rest ∧ Cut pos first final us ts gap old rest := by
  induction us generalizing last pos cs first with
  | nil => cases hf
  | cons u us ih =>
    cases hf
    cases us with
    | nil =>
      cases hl
      obtain ⟨gap, rest, hcs, hc⟩ := h.cut_one
      exact ⟨gap, u.text, rest, hcs, hc⟩
    | cons v us =>
      obtain ⟨gap, rest, rfl, hc⟩ := h.cut_one
      obtain ⟨gap', old, rest', rfl, hc'⟩ := ih hc.next rfl (by simpa using hl)
      obtain ⟨more, hmore⟩ := hc'.head
      have hu := h.isLexeme u List.mem_cons_self
      have hv := h.isLexeme v (by simp)
      have hne : gap' ++ old ≠ [] := by
        simp [hmore, hv.ne_nil]
      refine ⟨gap, u.text ++ (gap' ++ old), rest', by simp, hc.blank, hc.start, ?_,
        ⟨_, rfl⟩, hc'.ended, hc'.next, ?_, ?_⟩
      · have := hc'.stop
        have := hc'.start
        have : u.stop = u.start + u.text.length := rfl
        simp only [List.length_append]
        omega
      · intro k t r r' he
        rw [List.append_assoc]
        exact he.of_append hu.ne_nil
      · intro r texts hs he
        have hs' := (hc'.reads.spelled hs he).blank_append hc'.blank
        have he' : Ended u.kind u.text (gap' ++ old ++ r) := hc.ended.of_append hne
        rw [List.append_assoc] at he'
        have := hu.spelled hs' he'
        rwa [← List.append_assoc, ← List.append_assoc, List.append_assoc u.text] at this

theorem Cut.stop_eq {pre gap old rest : List Char} {first last : Token} {us ts : List Token}
    (h : Cut pre.length first last us ts gap old rest) :
    last.stop = (pre ++ (gap ++ old)).length := by
  have := h.start
  have := h.stop
  simp only [List.length_append]
  omega

/-- The changes of a block at the front of a text come before those of the blocks after it. -/
theorem Cut.spliceFrom_changed {change : Block → Change} {pre gap old rest : List Char} {b : Block}
    {bs : List Block}
    (h : Cut pre.length b.first b.last b.tokens (bs.flatMap Block.tokens) gap old rest) :
    spliceFrom (pre ++ (gap ++ old ++ rest)) pre.length
        ((b :: bs).flatMap fun b => (change b).replacements b.start b.stop) =
      gap ++ (change b).made old ++
        spliceFrom (pre ++ (gap ++ old) ++ rest) (pre ++ (gap ++ old)).length
          (bs.flatMap fun b => (change b).replacements b.start b.stop) := by
  rw [← h.stop_eq, List.append_assoc pre, List.flatMap_cons]
  refine spliceFrom_change _ h.start h.stop fun r hr => ?_
  obtain ⟨b', hb', hr⟩ := List.mem_flatMap.1 hr
  have hlt := h.next.ordered.1.blocks.proper b' hb'
  have hle : b.stop ≤ b'.start :=
    h.next.ordered.2 _ (List.mem_flatMap.2 ⟨b', hb', b'.first_mem⟩)
  exact Nat.le_trans hle (Change.mem_replacements hr (Nat.le_of_lt hlt)).1

/-! ## Insertions -/

/-- A text that can stand between any two others. -/
structure Detached (s : String) : Prop where
  front : ∀ {k t rest}, Ended k t (s.toList ++ rest)
  spelled : ∀ {rest us}, Spelled rest us → Spelled (s.toList ++ rest) (lexemesOf s ++ us)

theorem blank_space : Blank [' '] := Blank.nil.cons rfl

/-- A name ends before a text that begins with no part of it. -/
theorem ended_name {k : TokenKind} {t rest : List Char} {c : Char} (h : Text.isNameChar c = false)
    (hk : k.isName = true) : Ended k t (c :: rest) := by
  intro d hd
  obtain rfl : c = d := Option.some_inj.1 hd
  rwa [extendedBy_of_isName hk]

theorem spelled_closeParen {rest : List Char} {us : List (List Char)} (h : Spelled rest us) :
    Spelled (')' :: rest) ([')'] :: us) :=
  h.lexeme_append (⟨rfl, by decide⟩ : XPath.IsLexeme .closeParen [')']) (ended_of_never fun _ => rfl)

theorem spelled_openParen {rest : List Char} {us : List (List Char)} (h : Spelled rest us) :
    Spelled ('(' :: rest) (['('] :: us) :=
  h.lexeme_append (⟨rfl, by decide⟩ : XPath.IsLexeme .openParen ['(']) (ended_of_never fun _ => rfl)

theorem spelled_falseAnd {rest : List Char} {us : List (List Char)} (h : Spelled rest us) :
    Spelled ("(false() and ".toList ++ rest)
      (["(", "false", "(", ")", "and"].map String.toList ++ us) := by
  have hand : Spelled ("and".toList ++ ([' '] ++ rest)) ("and".toList :: us) :=
    (h.blank_append blank_space).lexeme_append (k := .and) ⟨rfl, by decide⟩ (ended_name rfl rfl)
  have hcall := spelled_openParen (spelled_closeParen (hand.blank_append blank_space))
  exact spelled_openParen
    (hcall.lexeme_append (k := .name) (⟨rfl, by decide⟩ : XPath.IsLexeme _ "false".toList)
      (ended_name rfl rfl))

theorem spelled_wildcard {rest : List Char} {us : List (List Char)} (h : Spelled rest us) :
    Spelled ("*[namespace-uri()='']".toList ++ rest)
      (["*", "[", "namespace-uri", "(", ")", "=", "''", "]"].map String.toList ++ us) := by
  have hclose : Spelled ("]".toList ++ rest) ("]".toList :: us) :=
    h.lexeme_append (k := .closeBracket) ⟨rfl, by decide⟩ (ended_of_never fun _ => rfl)
  have hempty : Spelled ("''".toList ++ ("]".toList ++ rest)) ("''".toList :: "]".toList :: us) :=
    hclose.lexeme_append (k := .literal) ⟨rfl, by decide⟩ (ended_of_never fun _ => rfl)
  have hequal := hempty.lexeme_append (k := .equality)
    (⟨rfl, by decide⟩ : XPath.IsLexeme _ "=".toList) (ended_of_never fun _ => rfl)
  have hcall := (spelled_openParen (spelled_closeParen hequal)).lexeme_append (k := .name)
    (⟨rfl, by decide⟩ : XPath.IsLexeme _ "namespace-uri".toList) (ended_name rfl rfl)
  have hopen := hcall.lexeme_append (k := .openBracket)
    (⟨rfl, by decide⟩ : XPath.IsLexeme _ "[".toList) (ended_of_never fun _ => rfl)
  exact hopen.lexeme_append (k := .star) (⟨rfl, by decide⟩ : XPath.IsLexeme _ "*".toList)
    (ended_of_never fun _ => rfl)

theorem lexemesOf_closeParen : lexemesOf ")" = [[')']] := by
  have h : Spelled ")".toList [[')']] := spelled_closeParen (.nil .nil)
  exact h.lexemesOf_eq

theorem lexemesOf_falseAnd :
    lexemesOf "(false() and " = ["(", "false", "(", ")", "and"].map String.toList := by
  have h := spelled_falseAnd (.nil .nil)
  rw [List.append_nil, List.append_nil] at h
  exact h.lexemesOf_eq

theorem lexemesOf_slash : lexemesOf "/" = [['/']] := by
  have h : Spelled "/".toList [['/']] :=
    Spelled.lexeme_append (⟨rfl, by decide⟩ : XPath.IsLexeme .slash ['/']) Blank.nil.ended
      (.nil .nil)
  exact h.lexemesOf_eq

theorem detached_closeParen : Detached ")" where
  front := ended_standsAlone (by decide)
  spelled h := by
    rw [lexemesOf_closeParen]
    exact spelled_closeParen h

theorem detached_falseAnd : Detached "(false() and " where
  front := ended_standsAlone (by decide)
  spelled h := by
    rw [lexemesOf_falseAnd]
    exact spelled_falseAnd h

theorem not_detached_slash : ¬Detached "/" := by
  intro h
  have := @Detached.front _ h .slash [] [] '/' rfl
  cases this

theorem spelled_detached {ds : List String} (h : ∀ s ∈ ds, Detached s) {rest : List Char}
    {us : List (List Char)} (hs : Spelled rest us) :
    Spelled (ds.flatMap String.toList ++ rest) (ds.flatMap lexemesOf ++ us) := by
  induction ds with
  | nil => exact hs
  | cons d ds ih =>
    obtain ⟨hd, h⟩ := List.forall_mem_cons.1 h
    rw [List.flatMap_cons, List.flatMap_cons, List.append_assoc, List.append_assoc]
    exact hd.spelled (ih h)

theorem ended_detached {ds : List String} (h : ∀ s ∈ ds, Detached s) {k : TokenKind}
    {t rest : List Char} (he : Ended k t rest) : Ended k t (ds.flatMap String.toList ++ rest) := by
  cases ds with
  | nil => exact he
  | cons d ds =>
    rw [List.flatMap_cons, List.append_assoc]
    exact (h d List.mem_cons_self).front

/-! ## Changes -/

/-- What a block is read as after a change. -/
def Change.lexemes (c : Change) (b : Block) : List (List Char) :=
  c.before.flatMap lexemesOf ++ c.instead.elim (b.tokens.map Token.text) lexemesOf ++
    c.after.flatMap lexemesOf

/-- A change puts a slash before a block. -/
def Change.Roots (c : Change) : Prop := c.before.head? = some "/"

/-- A slash before a text makes no double slash. -/
def NoSlash (cs : List Char) : Prop := Ended .slash ['/'] cs

/-- A change by which no lexemes within the block merge. -/
structure Change.Fits (c : Change) (b : Block) : Prop where
  before : (∀ s ∈ c.before, Detached s) ∨
    ∃ ds, c.before = "/" :: ds ∧ (∀ s ∈ ds, Detached s) ∧ NoSlash b.first.text
  instead : ∀ s ∈ c.instead, Reads b.first b.last s.toList (lexemesOf s)
  after : (∀ s ∈ c.after, Detached s) ∨ c.after = ["/"] ∧ b.last.kind ≠ .slash

/-- Changes by which no lexemes of two neighbouring blocks merge. -/
structure Joins (change : Block → Change) (b b' : Block) : Prop where
  before : (change b').Roots → b.last.kind ≠ .slash ∧ (change b).after ≠ ["/"]
  after : (change b).after = ["/"] → NoSlash b'.first.text

theorem NoSlash.append {cs : List Char} (h : NoSlash cs) (hn : cs ≠ []) (rest : List Char) :
    NoSlash (cs ++ rest) := by
  rw [← List.append_nil cs] at h
  exact h.of_append hn

theorem NoSlash.spelled {rest : List Char} {us : List (List Char)} (h : NoSlash rest)
    (hs : Spelled rest us) : Spelled ('/' :: rest) (['/'] :: us) :=
  hs.lexeme_append (⟨rfl, by decide⟩ : XPath.IsLexeme .slash ['/']) h

theorem Change.Fits.spelled_after {c : Change} {b : Block} (hc : c.Fits b) {rest : List Char}
    {us : List (List Char)} (hs : Spelled rest us)
    (he : c.after ≠ ["/"] → Ended b.last.kind b.last.text rest)
    (hn : c.after = ["/"] → NoSlash rest) :
    Spelled (c.after.flatMap String.toList ++ rest) (c.after.flatMap lexemesOf ++ us) ∧
      Ended b.last.kind b.last.text (c.after.flatMap String.toList ++ rest) := by
  rcases hc.after with hd | ⟨ha, hk⟩
  · have ha : c.after ≠ ["/"] := fun ha => not_detached_slash (hd "/" (by simp [ha]))
    exact ⟨spelled_detached hd hs, ended_detached hd (he ha)⟩
  · rw [ha, List.flatMap_singleton, List.flatMap_singleton, lexemesOf_slash]
    exact ⟨(hn ha).spelled hs, ended_slash hk⟩

theorem Change.Fits.spelled_before {c : Change} {b : Block} (hc : c.Fits b) {rest : List Char}
    {us : List (List Char)} (hs : Spelled rest us)
    (hn : c.Roots → NoSlash rest) :
    Spelled (c.before.flatMap String.toList ++ rest) (c.before.flatMap lexemesOf ++ us) ∧
      ∀ {k t}, Ended k t rest → (c.Roots → k ≠ .slash) →
        Ended k t (c.before.flatMap String.toList ++ rest) := by
  rcases hc.before with hd | ⟨ds, hb, hd, -⟩
  · exact ⟨spelled_detached hd hs, fun he _ => ended_detached hd he⟩
  · have hr : c.Roots := by
      rw [Change.Roots, hb]
      rfl
    rw [hb, List.flatMap_cons, List.flatMap_cons, lexemesOf_slash, List.append_assoc,
      List.append_assoc]
    exact ⟨NoSlash.spelled (ended_detached hd (hn hr)) (spelled_detached hd hs),
      fun _ hk => ended_slash (hk hr)⟩

theorem Change.Fits.noSlash {c : Change} {b : Block} (hc : c.Fits b) (hr : c.Roots) :
    NoSlash b.first.text := by
  rcases hc.before with hd | ⟨-, -, -, hn⟩
  · exact absurd (hd "/" (List.mem_of_mem_head? hr)) not_detached_slash
  · exact hn

theorem Laid.noSlash {last : Option TokenKind} {pos : Nat} {cs : List Char} {ts : List Token}
    (h : Laid last pos cs ts) (ht : ∀ t ∈ ts.head?, NoSlash t.text) : NoSlash cs := by
  cases h with
  | nil blank => exact blank.ended
  | cons blank lexeme ended next =>
    rename_i k gap text rest ts
    cases gap with
    | nil => exact (ht _ rfl).append lexeme.ne_nil rest
    | cons c gap => exact ended_standsAlone (standsAlone_of_isSpace (blank c List.mem_cons_self))

theorem Laid.noSlash_blocks {last : Option TokenKind} {pos : Nat} {cs : List Char}
    {bs : List Block} (h : Laid last pos cs (bs.flatMap Block.tokens))
    (hb : ∀ b ∈ bs.head?, NoSlash b.first.text) : NoSlash cs := by
  refine h.noSlash fun t ht => ?_
  cases bs with
  | nil => cases ht
  | cons b bs =>
    rw [List.flatMap_cons, List.head?_append, b.head?_tokens] at ht
    cases ht
    exact hb b rfl

/-- A block with what a change puts around it or in its place is read as the change has it, and ends
what the block itself would end. -/
theorem Change.Fits.spelled {c : Change} {b : Block} (hc : c.Fits b) {old rest : List Char}
    {us : List (List Char)} (hold : Reads b.first b.last old (b.tokens.map Token.text))
    (hne : b.first.text ≠ []) (hs : Spelled rest us)
    (he : c.after ≠ ["/"] → Ended b.last.kind b.last.text rest)
    (hn : c.after = ["/"] → NoSlash rest) :
    Spelled (c.made old ++ rest) (c.lexemes b ++ us) ∧
      ∀ {k t rest'}, Ended k t (b.first.text ++ rest') → (c.Roots → k ≠ .slash) →
        Ended k t (c.made old ++ rest) := by
  obtain ⟨hs, he⟩ := hc.spelled_after hs he hn
  have hbody : Reads b.first b.last (c.instead.elim old String.toList)
      (c.instead.elim (b.tokens.map Token.text) lexemesOf) := by
    cases hi : c.instead with
    | none => exact hold
    | some s => exact hc.instead s hi
  obtain ⟨hs, he⟩ := hc.spelled_before (hbody.spelled hs he) fun hr =>
    hbody.front ((hc.noSlash hr).append hne [])
  simp only [Change.made, Change.lexemes, List.append_assoc]
  exact ⟨hs, fun hfirst => he (hbody.front hfirst)⟩

/-- A text whose blocks are changed is read as what the blocks are read as after their changes. -/
theorem Laid.changed {change : Block → Change} {last : Option TokenKind} {pre cs : List Char}
    {bs : List Block} (h : Laid last pre.length cs (bs.flatMap Block.tokens))
    (hf : ∀ b ∈ bs, (change b).Fits b) (hj : bs.IsChain (Joins change)) :
    ∃ out, spliceFrom (pre ++ cs) pre.length
        (bs.flatMap fun b => (change b).replacements b.start b.stop) = out ∧
      Spelled out (bs.flatMap fun b => (change b).lexemes b) ∧
      ∀ {k t}, Ended k t cs → (∀ b ∈ bs.head?, (change b).Roots → k ≠ .slash) →
        Ended k t out := by
  induction bs generalizing last pre cs with
  | nil =>
    cases h with
    | nil blank =>
      refine ⟨cs, ?_, .nil blank, fun he _ => he⟩
      show (pre ++ cs).drop pre.length = cs
      rw [List.drop_left]
  | cons b bs ih =>
    obtain ⟨hfb, hf⟩ := List.forall_mem_cons.1 hf
    obtain ⟨hjb, hj⟩ := List.isChain_cons.1 hj
    rw [List.flatMap_cons] at h
    have hb := h.isLexeme b.first (List.mem_append_left _ b.first_mem)
    obtain ⟨gap, old, rest, rfl, hc⟩ := h.cut b.head?_tokens b.getLast?_tokens
    obtain ⟨out, hout, hs, he⟩ := ih (hc.stop_eq ▸ hc.next) hf hj
    obtain ⟨hs, hfront⟩ := hfb.spelled hc.reads hb.ne_nil hs
      (fun _ => he hc.ended fun b' hb' hr => ((hjb b' hb').before hr).1)
      (fun ha => he (hc.next.noSlash_blocks fun b' hb' => (hjb b' hb').after ha)
        fun b' hb' hr => absurd ha ((hjb b' hb').before hr).2)
    refine ⟨gap ++ (change b).made old ++ out, ?_, ?_, fun {k t} hcs hk => ?_⟩
    · rw [hc.spliceFrom_changed, hout]
    · rw [List.append_assoc]
      exact hs.blank_append hc.blank
    · cases gap with
      | nil =>
        obtain ⟨more, hmore⟩ := hc.head
        rw [hmore, List.nil_append, List.append_assoc] at hcs
        exact hfront hcs (hk b rfl)
      | cons c gap =>
        exact ended_standsAlone (standsAlone_of_isSpace (hc.blank c List.mem_cons_self))

end TreeQuery.XPath
