import TreeQuery.Proofs.Grammar.Star
import TreeQuery.Proofs.Lexing.Rule

/-!
# Trees as texts

The texts that symbols are written as (`Spaced`): there may be white space before each symbol and
at the end, except next to a colon, and symbols that would merge need some. These are the texts
that are read as the symbols (`spaced_iff`).
-/

namespace TreeQuery.XPath

/-- A literal is written between quotes that it does not hold, any other symbol as it is, provided
that this is a lexeme of its kind. -/
inductive Symbol.WrittenAs : Symbol → List Char → Prop where
  | quoted {q : Char} {cs : List Char} (quote : q = '"' ∨ q = '\'') (closed : q ∉ cs) :
      WrittenAs ⟨.literal, cs⟩ (q :: (cs ++ [q]))
  | verbatim {s : Symbol} (other : s.kind ≠ .literal) (lexeme : IsLexeme s.plain.kind s.text) :
      WrittenAs s s.text

/-- A text in which symbols are written one after the other. White space keeps them apart where
they would merge, and there is none next to a colon. -/
inductive Spaced : List Symbol → List Char → Prop where
  | nil {gap : List Char} (blank : Blank gap) : Spaced [] gap
  | cons {s : Symbol} {ss : List Symbol} {gap text rest : List Char} (blank : Blank gap)
      (written : s.WrittenAs text) (apart : Ended s.plain.kind text rest)
      (tight : (∃ s' ∈ ss.head?, s.kind = .colon ∨ s'.kind = .colon) → Near rest)
      (next : Spaced ss rest) : Spaced (s :: ss) (gap ++ text ++ rest)

/-! ## Symbols -/

theorem Symbol.plain_kind_eq_iff {s : Symbol} {k : TokenKind} (h : k ≠ .star ∧ k ≠ .times) :
    s.plain.kind = k ↔ s.kind = k := by
  unfold Symbol.plain
  split
  · next hk => rw [hk]; exact iff_of_false h.1.symm h.2.symm
  · exact Iff.rfl

theorem isLexeme_quoted {q : Char} {cs : List Char} (hq : q = '"' ∨ q = '\'') (h : q ∉ cs) :
    IsLexeme .literal (q :: (cs ++ [q])) where
  reads := by
    have hl : literal? q (cs ++ [q] ++ []) = some (q :: (cs ++ [q])) :=
      literal?_append_iff.2 ⟨cs, rfl, fun x hx he => h (he ▸ hx)⟩
    rw [List.append_nil] at hl
    have hq' : (q == '"' || q == '\'') = true := by simpa using hq
    rw [lexeme?, if_pos hq', hl]
    rfl
  short := nofun

theorem Symbol.writtenAs_iff {s : Symbol} {text : List Char} : s.WrittenAs text ↔
    IsLexeme s.plain.kind text ∧
      s.text = if s.plain.kind = .literal then (text.drop 1).dropLast else text := by
  have hlit : s.plain.kind = .literal ↔ s.kind = .literal := Symbol.plain_kind_eq_iff (by decide)
  constructor
  · intro h
    cases h with
    | @quoted q cs quote closed => exact ⟨isLexeme_quoted quote closed, by simp [Symbol.plain]⟩
    | verbatim other lexeme => exact ⟨lexeme, (if_neg (hlit.not.2 other)).symm⟩
  · rintro ⟨hl, ht⟩
    by_cases hk : s.kind = .literal
    · rw [if_pos (hlit.2 hk)] at ht
      rw [hlit.2 hk] at hl
      obtain ⟨kind, cs⟩ := s
      cases hk
      have hr := rule_of_lexeme? hl.reads 0
      generalize Token.value _ = v at hr
      cases hr with
      | sign spelled => cases spelled
      | @literal q body quote closed =>
        obtain rfl : cs = body := by simpa using ht
        exact .quoted quote closed
    · rw [if_neg (hlit.not.2 hk)] at ht
      subst ht
      exact .verbatim hk hl

theorem isName_plain_nameSymbol (s : String) : (nameSymbol s).plain.kind.isName = true := by
  have hk : (nameSymbol s).kind ≠ .times := TokenKind.ne_of_isName (isName_nameSymbol s) rfl
  rw [Symbol.plain, if_neg hk]
  exact isName_nameSymbol s

theorem writtenAs_nameSymbol {name : List Char} (h : IsLexeme (nameKind name) name) :
    (nameSymbol (.ofList name)).WrittenAs name := by
  have hsymbol : nameSymbol (.ofList name) = ⟨nameKind name, name⟩ := by
    rw [nameSymbol, String.toList_ofList]
  have hne {k : TokenKind} (hk : k.isName = false) : nameKind name ≠ k :=
    TokenKind.ne_of_isName (nameKind_isName name) hk
  have hplain : (Symbol.mk (nameKind name) name).plain.kind = nameKind name := if_neg (hne rfl)
  rw [hsymbol]
  exact .verbatim (hne rfl) (by rwa [hplain])

/-- Symbols are written as the tokens that stand for them. -/
theorem IsLexeme.plain_symbol_eq_iff {k : TokenKind} {text : List Char} (h : IsLexeme k text)
    (last : Option TokenKind) (start : Nat) {s : Symbol} :
    (Token.mk (resolveStar last k) text start).symbol.plain = s.plain ↔
      s.plain.kind = k ∧ s.WrittenAs text := by
  rw [h.plain_symbol, Symbol.writtenAs_iff]
  constructor
  · intro he
    obtain ⟨hk, ht⟩ := Symbol.mk.inj he
    subst hk
    exact ⟨rfl, h, ht.symm⟩
  · rintro ⟨rfl, -, ht⟩
    rw [← ht]
    rfl

/-! ## Tokens for symbols -/

theorem kind_eq_iff_of_plain {t : Token} {s : Symbol} {k : TokenKind}
    (h : t.symbol.plain = s.plain) (hk : k ≠ .star ∧ k ≠ .times) : t.kind = k ↔ s.kind = k := by
  rw [← Symbol.plain_kind_eq_iff (s := s) hk, ← h, Symbol.plain_kind_eq_iff hk]
  rfl

theorem kind_eq_of_plain {t : Token} {s : Symbol} (h : t.symbol.plain = s.plain)
    (ht : t.kind ≠ .times) (hs : s.kind ≠ .times) : t.kind = s.kind := by
  have hplain {s : Symbol} (h : s.kind ≠ .times) : s.plain = s := by rw [Symbol.plain, if_neg h]
  rw [hplain hs, hplain (s := t.symbol) ht] at h
  exact congrArg Symbol.kind h

theorem isName_of_plain {t : Token} {s : Symbol} (h : t.symbol.plain = s.plain) :
    t.isName = s.kind.isName := by
  have hplain (s : Symbol) : s.plain.kind.isName = s.kind.isName := by
    unfold Symbol.plain
    split
    · next hk => rw [hk]; rfl
    · rfl
  rw [← hplain s, ← h, hplain]
  rfl

theorem text_of_plain {t : Token} {s : Symbol} (h : t.symbol.plain = s.plain)
    (hs : s.kind ≠ .literal) : t.text = s.text := by
  have hk : t.kind ≠ .literal := (kind_eq_iff_of_plain h (by decide)).not.2 hs
  have ht : t.symbol.plain.text = s.plain.text := congrArg Symbol.text h
  have htext : t.symbol.plain.text = t.text := if_neg hk
  exact htext.symm.trans ht

/-- Tokens that stand for symbols, whatever each `*` was taken for. -/
def StandFor (us : List Token) (ss : List Symbol) : Prop :=
  us.map (fun t => t.symbol.plain) = ss.map Symbol.plain

instance (us : List Token) (ss : List Symbol) : Decidable (StandFor us ss) :=
  inferInstanceAs (Decidable (_ = _))

section StandFor

variable {us : List Token} {s : Symbol} {ss ss' : List Symbol}

theorem standFor_of_symbols (h : us.map Token.symbol = ss) : StandFor us ss := by
  rw [StandFor, ← h, List.map_map]
  rfl

theorem standFor_nil_iff : StandFor us [] ↔ us = [] :=
  List.map_eq_nil_iff

theorem standFor_cons_iff : StandFor us (s :: ss) ↔
    ∃ t vs, us = t :: vs ∧ t.symbol.plain = s.plain ∧ StandFor vs ss :=
  List.map_eq_cons_iff

theorem standFor_singleton_iff : StandFor us [s] ↔ ∃ t, us = [t] ∧ t.symbol.plain = s.plain :=
  List.map_eq_singleton_iff

theorem standFor_append_iff : StandFor us (ss ++ ss') ↔
    ∃ vs ws, us = vs ++ ws ∧ StandFor vs ss ∧ StandFor ws ss' := by
  rw [StandFor, List.map_append, List.map_eq_append_iff]
  rfl

theorem StandFor.length (h : StandFor us ss) : us.length = ss.length := by
  have hl := congrArg List.length h
  rwa [List.length_map, List.length_map] at hl

theorem StandFor.texts (h : StandFor us ss) (hs : ∀ s ∈ ss, s.kind ≠ .literal) :
    us.map Token.text = ss.map Symbol.text := by
  induction ss generalizing us with
  | nil =>
    rw [standFor_nil_iff.1 h]
    rfl
  | cons s ss ih =>
    obtain ⟨t, vs, rfl, ht, hv⟩ := standFor_cons_iff.1 h
    obtain ⟨hs, hss⟩ := List.forall_mem_cons.1 hs
    rw [List.map_cons, List.map_cons, text_of_plain ht hs, ih hv hss]

end StandFor

/-! ## Texts -/

/-- No white space next to a colon, said of the text and said of the tokens. -/
theorem tight_iff {t : Token} {ts : List Token} {s : Symbol} {ss : List Symbol} {cs : List Char}
    {last : Option TokenKind} (ht : t.symbol.plain = s.plain) (hts : StandFor ts ss)
    (hl : Laid last t.stop cs ts) :
    ((∃ s' ∈ ss.head?, s.kind = .colon ∨ s'.kind = .colon) → Near cs) ↔
      ∀ u ∈ ts.head?, t.kind = .colon ∨ u.kind = .colon → t.stop = u.start := by
  cases ss with
  | nil =>
    rw [standFor_nil_iff.1 hts]
    exact iff_of_true (by simp) (by simp)
  | cons s' ss =>
    obtain ⟨u, ts, rfl, hu, -⟩ := standFor_cons_iff.1 hts
    have hkt : t.kind = .colon ↔ s.kind = .colon := kind_eq_iff_of_plain ht (by decide)
    have hku : u.kind = .colon ↔ s'.kind = .colon := kind_eq_iff_of_plain hu (by decide)
    simp [hkt, hku, hl.near_iff rfl]

/-- The texts in which symbols are written are those that are laid out as tokens for them. -/
theorem spaced_iff_laid {ss : List Symbol} {cs : List Char} (last : Option TokenKind) (pos : Nat) :
    Spaced ss cs ↔ ∃ ts, Laid last pos cs ts ∧ StandFor ts ss ∧ Glued ts := by
  constructor
  · intro h
    induction h generalizing last pos with
    | nil blank => exact ⟨[], .nil blank, rfl, .nil⟩
    | @cons s ss gap text rest blank written apart tight next ih =>
      have hl := (Symbol.writtenAs_iff.1 written).1
      obtain ⟨ts, hlaid, hts, hg⟩ :=
        ih (some (resolveStar last s.plain.kind)) (pos + gap.length + text.length)
      have ht := (hl.plain_symbol_eq_iff last (pos + gap.length)).2 ⟨rfl, written⟩
      exact ⟨_, .cons blank hl apart hlaid, standFor_cons_iff.2 ⟨_, _, rfl, ht, hts⟩,
        List.isChain_cons.2 ⟨(tight_iff ht hts hlaid).1 tight, hg⟩⟩
  · rintro ⟨ts, hlaid, hts, hg⟩
    induction hlaid generalizing ss with
    | nil blank =>
      rw [List.map_eq_nil_iff.1 hts.symm]
      exact .nil blank
    | @cons last pos k gap text rest ts blank lexeme ended next ih =>
      cases ss with
      | nil => cases hts
      | cons s ss =>
        obtain ⟨ht, htail⟩ : _ ∧ StandFor ts ss := List.cons.inj hts
        obtain ⟨rfl, hw⟩ := (lexeme.plain_symbol_eq_iff _ _).1 ht
        obtain ⟨hfirst, hg⟩ := List.isChain_cons.1 hg
        exact .cons blank hw ended ((tight_iff ht htail next).2 hfirst) (ih htail hg)

/-- A tree is written in the texts that can be read as it. -/
theorem spaced_iff {e : Expr} {text : String} : Spaced e.symbols text.toList ↔
    ∃ ts, tokenize text = .ok ts ∧ ReadsAs ts e := by
  rw [spaced_iff_laid none 0]
  constructor
  · rintro ⟨ts, hl, hs, hg⟩
    exact ⟨ts, hl.tokensFrom_eq, hs, hg⟩
  · rintro ⟨ts, ht, hs, hg⟩
    exact ⟨ts, laid_of_tokensFrom ht, hs, hg⟩

theorem spaced_of_readFrom {ss : List Symbol} {text : String}
    (h : ∃ ts ∈ readFrom none 0 text.length text.toList, StandFor ts ss ∧ Glued ts) :
    Spaced ss text.toList := by
  obtain ⟨ts, hread, hs⟩ := h
  exact (spaced_iff_laid none 0).2 ⟨ts, laid_of_tokensFrom (tokensFrom_of_readFrom hread), hs⟩

/-! ## Texts put together -/

section Append

variable {s : Symbol} {ss ss' : List Symbol} {gap cs cs' : List Char}

theorem Spaced.single (h : s.WrittenAs cs) : Spaced [s] cs := by
  have hs : Spaced [s] ([] ++ cs ++ []) := by
    refine .cons .nil h nofun ?_ (.nil .nil)
    rintro ⟨s', hs', -⟩
    cases hs'
  rwa [List.nil_append, List.append_nil] at hs

theorem Spaced.blank_append (hg : Blank gap) (h : Spaced ss cs) : Spaced ss (gap ++ cs) := by
  cases h with
  | nil blank => exact .nil (hg.append blank)
  | cons blank written apart tight next =>
    rw [← List.append_assoc, ← List.append_assoc]
    exact .cons (hg.append blank) written apart tight next

theorem Spaced.ne_nil (h : Spaced (s :: ss) cs) : cs ≠ [] := by
  cases h with
  | cons _ written _ _ _ =>
    intro hnil
    have htext := (List.append_eq_nil_iff.1 (List.append_eq_nil_iff.1 hnil).1).2
    exact (Symbol.writtenAs_iff.1 written).1.ne_nil htext

theorem near_append (hne : cs ≠ []) (h : Near cs) : Near (cs ++ cs') := by
  obtain ⟨c, cs, rfl⟩ := List.exists_cons_of_ne_nil hne
  exact h

/-- Two texts one after the other. There is no colon where they meet. -/
theorem Spaced.append (h : Spaced ss cs) (h' : Spaced ss' cs')
    (ended : ∀ s ∈ ss.getLast?, ∀ t, Ended s.plain.kind t cs')
    (left : ∀ s ∈ ss.getLast?, s.kind ≠ .colon) (right : ∀ s ∈ ss'.head?, s.kind ≠ .colon) :
    Spaced (ss ++ ss') (cs ++ cs') := by
  induction h with
  | nil blank => exact h'.blank_append blank
  | @cons s ss gap text rest blank written apart tight next ih =>
    rw [List.append_assoc (gap ++ text), List.cons_append]
    cases ss with
    | nil =>
      have hs : s ∈ [s].getLast? := rfl
      refine .cons blank written ?_ ?_ (ih nofun nofun)
      · by_cases hrest : rest = []
        · rw [hrest]
          exact ended s hs text
        · rw [← List.append_nil rest] at apart
          exact apart.of_append hrest
      · rintro ⟨s', hs', hk⟩
        exact absurd hk (not_or.2 ⟨left s hs, right s' hs'⟩)
    | cons s' ss =>
      rw [List.getLast?_cons_cons] at ended left
      refine .cons blank written ?_ (fun hk => near_append next.ne_nil (tight hk))
        (ih ended left)
      rw [← List.append_nil rest] at apart
      exact apart.of_append next.ne_nil

end Append

end TreeQuery.XPath
