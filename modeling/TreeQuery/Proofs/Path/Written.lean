import TreeQuery.Proofs.Lexing.Coverage
import TreeQuery.Proofs.Path.Parsed

/-!
# Paths as texts

An absolute path is written as the tree that it is read as (`AbsolutePath.selfContained`), if each
of the names in it is read as one name, whatever word it is. What is quoted in it may be any text.
-/

namespace TreeQuery

namespace XPath

variable {ss : List Symbol} {cs : List Char} {s : String}

/-! ## Names -/

/-- A text that is read as one name, be it an operator elsewhere or a node type. -/
def IsNameText (s : String) : Prop := ∃ t, tokenize s = .ok [t] ∧ t.isName = true

/-- The name in such a text, without the white space around it. -/
def nameIn (s : String) : String := .ofList (lexemesOf s).flatten

theorem IsNameText.exists_name (h : IsNameText s) : ∃ before name after,
    s.toList = before ++ name ++ after ∧ nameIn s = .ofList name ∧ Blank before ∧ Blank after ∧
      IsLexeme (nameKind name) name ∧ ∀ c ∈ name, Text.isNameChar c = true := by
  obtain ⟨t, ht, hn⟩ := h
  have hname : nameIn s = .ofList t.text := by
    rw [nameIn, lexemesOf, ht]
    simp
  have hl : Laid none 0 s.toList [t] := laid_of_tokensFrom ht
  generalize s.toList = cs at hl
  cases hl with
  | @cons _ _ k gap text rest _ blank lexeme ended next =>
    have hk : resolveStar none k = k := by
      unfold resolveStar
      split
      · next h => cases h
      · rfl
    rw [Token.isName_eq, hk] at hn
    obtain ⟨rfl, hchars⟩ := lexeme.eq_nameKind hn
    cases next with
    | nil blank' => exact ⟨gap, text, rest, rfl, hname, blank, blank', lexeme, hchars⟩

theorem IsNameText.not_mem (h : IsNameText s) {c : Char} (hc : Text.isNameChar c = false)
    (hs : Text.isSpace c = false) : c ∉ s.toList := by
  obtain ⟨before, name, after, htext, -, hb, ha, -, hn⟩ := h.exists_name
  have hne {p : Char → Bool} (hp : p c = false) {cs : List Char} (hall : ∀ c ∈ cs, p c = true) :
      c ∉ cs := fun hm => by
    rw [hall c hm] at hp
    cases hp
  rw [htext, List.mem_append, List.mem_append]
  exact not_or.2 ⟨not_or.2 ⟨hne hs hb, hne hc hn⟩, hne hs ha⟩

theorem IsNameText.append (h : IsNameText s) (hs : SelfContained ss cs)
    (hc : ∀ c ∈ cs.head?, Text.isNameChar c = false) :
    SelfContained (nameSymbol (nameIn s) :: ss) (s.toList ++ cs) := by
  obtain ⟨before, name, after, htext, hname, hb, ha, hlexeme, -⟩ := h.exists_name
  have hrest : SelfContained ss (after ++ cs) := ⟨hs.spaced.blank_append ha, hs.free⟩
  have hsymbol : SelfContained [nameSymbol (nameIn s)] name :=
    ⟨.single (hname ▸ writtenAs_nameSymbol hlexeme), free_nameSymbol _⟩
  have happ := hsymbol.append hrest fun x hx t => Ended.blank_append ha fun c hc' => by
    obtain rfl : nameSymbol (nameIn s) = x := Option.some_inj.1 hx
    rw [extendedBy_of_isName (isName_plain_nameSymbol _), hc c hc']
  rw [htext, List.append_assoc, List.append_assoc]
  exact ⟨happ.spaced.blank_append hb, happ.free⟩

/-! ## Numbers -/

/-- A number with no more digits than may be written and read. -/
def IsShort (n : Nat) : Prop := (toString n).length ≤ maxDigits

theorem isDigit_of_isDigit {c : Char} (h : c.isDigit = true) : Text.isDigit c = true := by
  simp only [Char.isDigit, Bool.and_eq_true, decide_eq_true_eq, UInt32.le_iff_toNat_le] at h
  obtain ⟨hl, hu⟩ := h
  have hlow : 0x30 ≤ c.toNat := hl
  have hhigh : c.toNat ≤ 0x39 := hu
  rw [Text.isDigit, Text.digitValue?, Option.isSome_map, List.find?_isSome]
  exact ⟨0x30, List.mem_cons_self, by simp; omega⟩

theorem selfContained_number {n : Nat} (h : IsShort n) :
    SelfContained (Expr.number (toString n)).symbols (toString n).toList := by
  have hdigit : ∀ c ∈ (toString n).toList, c.isDigit = true :=
    fun c hc => isDigit_of_mem_toString hc
  have hkind : numeralKind (toString n) = .integer := if_neg fun hm => by
    have := hdigit '.' hm
    cases this
  have hlexeme : IsLexeme .integer (toString n).toList := by
    refine ⟨lexeme?_eq_integer_iff.2 ⟨?_, fun c hc => isDigit_of_isDigit (hdigit c hc), [],
      (List.append_nil _).symm, nofun⟩, ?_⟩
    · exact toList_toString_ne_nil n
    · rintro ⟨-, hlong⟩
      exact absurd h (Nat.not_le.2 hlong)
  rw [Expr.symbols, hkind]
  exact ⟨.single (.verbatim nofun hlexeme), by simp⟩

/-! ## Slashes -/

theorem lexeme?_slash (cs : List Char) :
    lexeme? ('/' :: cs) = some (oneOrTwo .slash .doubleSlash '/' '/' cs) := rfl

/-- A text that begins with another symbol makes no longer sign of a slash before it. -/
theorem Spaced.ended_slash (h : Spaced ss cs)
    (hs : ∀ s ∈ ss.head?, s.kind ≠ .slash ∧ s.kind ≠ .doubleSlash) (t : List Char) :
    Ended .slash t cs := by
  cases h with
  | nil blank => exact blank.ended
  | @cons s ss gap text rest blank written apart tight next =>
    obtain ⟨hslash, hdouble⟩ := hs s rfl
    have hlexeme := (Symbol.writtenAs_iff.1 written).1
    rw [List.append_assoc]
    refine Ended.blank_append blank fun c hc => beq_false_of_ne ?_
    rintro rfl
    obtain ⟨c, text, rfl, -⟩ := hlexeme.head
    obtain rfl : c = '/' := Option.some_inj.1 hc
    have hr := Option.some_inj.1 ((lexeme?_slash text).symm.trans hlexeme.reads)
    unfold oneOrTwo at hr
    split at hr
    · exact hdouble ((Symbol.plain_kind_eq_iff (by decide)).1 (congrArg Prod.fst hr).symm)
    · exact hslash ((Symbol.plain_kind_eq_iff (by decide)).1 (congrArg Prod.fst hr).symm)

/-! ## Predicates -/

theorem selfContained_openBracket : SelfContained [sign .openBracket "["] ['['] :=
  selfContained_of_readFrom "[" (by decide) (by decide)

theorem selfContained_closeBracket : SelfContained [sign .closeBracket "]"] [']'] :=
  selfContained_of_readFrom "]" (by decide) (by decide)

theorem SelfContained.predicate {e : Expr} {ps : List Expr} {text : List Char}
    (he : SelfContained e.symbols text) (h : SelfContained (predicateSymbols ps ++ ss) cs) :
    SelfContained (predicateSymbols (e :: ps) ++ ss) ('[' :: (text ++ ']' :: cs)) := by
  have hclose := selfContained_closeBracket.append_closed h (by decide)
  have hinside := he.append_alone hclose (by rintro c ⟨⟩; rfl)
  have hsymbols : predicateSymbols (e :: ps) ++ ss = [sign .openBracket "["] ++
      (e.symbols ++ ([sign .closeBracket "]"] ++ (predicateSymbols ps ++ ss))) := by
    simp [predicateSymbols]
  rw [hsymbols]
  exact selfContained_openBracket.append_closed hinside (by decide)

end XPath

open XPath

/-! ## Paths that can be read -/

/-- A test with its name as it is read, without the white space around it. -/
def NameTest.asRead : NameTest → NameTest
  | plain name => plain (nameIn name)
  | expanded name uri => expanded name uri

def PathStep.asRead : PathStep → PathStep
  | element test position => element test.asRead position
  | attr test => attr test.asRead
  | text position => text position
  | comment position => comment position
  | instruction target position => instruction target position

/-- The name in a step is read as a name, and its position can be written. -/
structure PathStep.IsLegible (s : PathStep) : Prop where
  position : ∀ n ∈ s.position?, IsShort n
  name : ∀ name ∈ s.name?, IsNameText name

/-! ## Steps -/

section Steps

variable {ss : List Symbol} {cs : List Char} {position : Option Nat}

theorem selfContained_position (hp : ∀ n ∈ position, IsShort n) (h : SelfContained ss cs) :
    SelfContained (predicateSymbols (positionTrees position) ++ ss)
      ((positionText position).toList ++ cs) := by
  cases position with
  | none =>
    rw [positionTrees, predicateSymbols]
    exact h
  | some n =>
    have htext : (positionText (some n)).toList ++ cs =
        '[' :: ((toString n).toList ++ ']' :: cs) := by
      simp [positionText]
    have hrest : SelfContained (predicateSymbols [] ++ ss) cs := by rwa [predicateSymbols]
    rw [positionTrees, htext]
    exact (selfContained_number (hp n rfl)).predicate hrest

theorem selfContained_localName : SelfContained
    [sign .star "*", sign .openBracket "[", nameSymbol "local-name", sign .openParen "(",
      sign .closeParen ")", sign .equality "="] "*[local-name() = ".toList :=
  selfContained_of_readFrom _ (by decide) (by decide)

theorem selfContained_namespaceUri : SelfContained
    [sign .and "and", nameSymbol "namespace-uri", sign .openParen "(", sign .closeParen ")",
      sign .equality "="] " and namespace-uri() = ".toList :=
  selfContained_of_readFrom _ (by decide) (by decide)

/-- The name and the URI are quoted, whatever they are. -/
theorem selfContained_expanded (name uri : String) {ps : List Expr}
    (h : SelfContained (predicateSymbols ps ++ ss) cs) :
    SelfContained (sign .star "*" :: (predicateSymbols (expandedTree name uri :: ps) ++ ss))
      ((NameTest.expanded name uri).render.toList ++ cs) := by
  have hsymbols : sign .star "*" :: (predicateSymbols (expandedTree name uri :: ps) ++ ss) =
      [sign .star "*", sign .openBracket "[", nameSymbol "local-name", sign .openParen "(",
        sign .closeParen ")", sign .equality "="] ++ ((literalTree name).symbols ++
          ([sign .and "and", nameSymbol "namespace-uri", sign .openParen "(", sign .closeParen ")",
            sign .equality "="] ++ ((literalTree uri).symbols ++
              ([sign .closeBracket "]"] ++ (predicateSymbols ps ++ ss))))) := by
    simp [expandedTree, Expr.symbols, Name.symbols, argumentSymbols, Operator.symbol,
      predicateSymbols]
  have hclose := selfContained_closeBracket.append_closed h (by decide)
  have huri := (selfContained_literal uri).append_alone hclose (by rintro c ⟨⟩; rfl)
  have hname := (selfContained_literal name).append_alone
    (selfContained_namespaceUri.append_closed huri (by decide)) (by rintro c ⟨⟩; rfl)
  -- unfolded, since the equations of `render` are slow to generate
  unfold NameTest.render
  rw [hsymbols, toList_append₅, List.append_assoc, List.append_assoc, List.append_assoc,
    List.append_assoc]
  exact selfContained_localName.append_closed hname (by decide)

theorem symbols_implied (t : NodeTest) (ps : List Expr) (ss : List Symbol) :
    (Step.along .implied t ps).symbols ++ ss = t.symbols ++ (predicateSymbols ps ++ ss) := by
  rw [Step.symbols, AxisSpec.symbols, List.nil_append, List.append_assoc]

theorem NameTest.selfContained {test : NameTest} (ht : ∀ name ∈ test.name?, IsNameText name)
    (hp : ∀ n ∈ position, IsShort n) (h : SelfContained ss cs) (hc : EndsStep cs) :
    SelfContained ((test.asRead.tree .implied position).symbols ++ ss)
      (test.render.toList ++ ((positionText position).toList ++ cs)) := by
  have hposition := selfContained_position hp h
  cases test with
  | plain name =>
    rw [NameTest.asRead, NameTest.tree, symbols_implied]
    refine IsNameText.append (ht name rfl) hposition fun c hm => ?_
    cases position with
    | none =>
      rw [hc c hm]
      decide
    | some n =>
      have hopen : (positionText (some n)).toList = '[' :: ((toString n).toList ++ [']']) := by
        simp [positionText]
      rw [hopen] at hm
      cases hm
      decide
  | expanded name uri =>
    rw [NameTest.asRead, NameTest.tree, symbols_implied]
    exact selfContained_expanded name uri hposition

theorem selfContained_text : SelfContained NodeTest.text.symbols "text()".toList :=
  selfContained_of_readFrom _ (by decide) (by decide)

theorem selfContained_comment : SelfContained NodeTest.comment.symbols "comment()".toList :=
  selfContained_of_readFrom _ (by decide) (by decide)

theorem selfContained_instruction : SelfContained
    [sign .nodeType "processing-instruction", sign .openParen "("]
    "processing-instruction(".toList :=
  selfContained_of_readFrom _ (by decide) (by decide)

theorem selfContained_atSign : SelfContained [sign .atSign "@"] "@".toList :=
  selfContained_of_readFrom _ (by decide) (by decide)

theorem selfContained_slash : SelfContained [sign .slash "/"] ['/'] :=
  selfContained_of_readFrom "/" (by decide) (by decide)

/-- A step goes before the next one or stands at the end. -/
theorem PathStep.selfContained {s : PathStep} (hs : s.IsLegible) (h : SelfContained ss cs)
    (hc : EndsStep cs) : SelfContained (s.asRead.tree.symbols ++ ss) (s.render.toList ++ cs) := by
  obtain ⟨hp, hs⟩ := hs
  have hposition := selfContained_position hp h
  unfold PathStep.render
  cases s with
  | element test position =>
    rw [String.toList_append, List.append_assoc]
    exact NameTest.selfContained hs hp h hc
  | attr test =>
    have hsymbols : (PathStep.attr test).asRead.tree.symbols ++ ss =
        [sign .atSign "@"] ++ ((test.asRead.tree .implied none).symbols ++ ss) := by
      cases test <;>
        simp [PathStep.asRead, NameTest.asRead, PathStep.tree, NameTest.tree, Step.symbols,
          AxisSpec.symbols]
    rw [hsymbols, String.toList_append, List.append_assoc]
    exact selfContained_atSign.append_closed (NameTest.selfContained hs hp h hc) (by decide)
  | text position =>
    rw [PathStep.asRead, PathStep.tree, symbols_implied, String.toList_append, List.append_assoc]
    exact selfContained_text.append_closed hposition (by decide)
  | comment position =>
    rw [PathStep.asRead, PathStep.tree, symbols_implied, String.toList_append, List.append_assoc]
    exact selfContained_comment.append_closed hposition (by decide)
  | instruction target position =>
    have hquote : '\'' ∉ target.toList := IsNameText.not_mem (hs target rfl) (by decide) (by decide)
    have hliteral : literalTree target = .literal target := if_neg fun h => hquote h.1
    have hsymbols : (PathStep.instruction target position).asRead.tree.symbols ++ ss =
        [sign .nodeType "processing-instruction", sign .openParen "("] ++
          ((literalTree target).symbols ++ ([sign .closeParen ")"] ++
            (predicateSymbols (positionTrees position) ++ ss))) := by
      rw [hliteral, PathStep.asRead, PathStep.tree, symbols_implied, Expr.symbols]
      rfl
    have hclose := selfContained_closeParen.append_closed hposition (by decide)
    have htarget := (selfContained_literal target).append_alone hclose (by rintro c ⟨⟩; rfl)
    rw [hsymbols, String.toList_append, String.toList_append, String.toList_append,
      List.append_assoc, List.append_assoc, List.append_assoc]
    exact selfContained_instruction.append_closed htarget (by decide)

/-- A symbol that is neither a slash nor the step to the node itself. -/
def MovesOn (x : Symbol) : Prop := x.kind ≠ .slash ∧ x.kind ≠ .doubleSlash ∧ x.kind ≠ .dot

theorem NameTest.symbols_eq_cons (test : NameTest) (position : Option Nat) :
    ∃ x xs, (test.tree .implied position).symbols = x :: xs ∧ MovesOn x := by
  cases test with
  | plain name =>
    have hne {k : TokenKind} (hk : k.isName = false) : (nameSymbol name).kind ≠ k :=
      TokenKind.ne_of_isName (isName_nameSymbol _) hk
    refine ⟨nameSymbol name, predicateSymbols (positionTrees position), ?_, hne rfl,
      hne rfl, hne rfl⟩
    rw [NameTest.tree, Step.symbols]
    rfl
  | expanded name uri =>
    refine ⟨sign .star "*", predicateSymbols (expandedTree name uri :: positionTrees position), ?_,
      nofun, nofun, nofun⟩
    rw [NameTest.tree, Step.symbols]
    rfl

theorem PathStep.symbols_eq_cons (s : PathStep) :
    ∃ x xs, s.tree.symbols = x :: xs ∧ MovesOn x := by
  cases s with
  | element test position => exact test.symbols_eq_cons position
  | attr test =>
    refine ⟨sign .atSign "@", (test.tree .implied none).symbols, ?_, nofun, nofun, nofun⟩
    cases test <;> rw [PathStep.tree, NameTest.tree, NameTest.tree, Step.symbols, Step.symbols] <;>
      rfl
  | text position | comment position | instruction target position =>
    rw [PathStep.tree, Step.symbols]
    exact ⟨_, _, rfl, nofun, nofun, nofun⟩

end Steps

/-! ## Paths -/

theorem AbsolutePath.selfContained_steps {path : AbsolutePath} (h : ∀ s ∈ path, s.IsLegible) :
    SelfContained (AbsolutePath.steps (path.map PathStep.asRead)).symbols
      (path.flatMap fun s => '/' :: s.render.toList) := by
  induction path with
  | nil =>
    show SelfContained Steps.done.symbols []
    rw [Steps.symbols]
    exact ⟨.nil .nil, nofun⟩
  | cons s path ih =>
    obtain ⟨hs, hpath⟩ := List.forall_mem_cons.1 h
    have hstep := PathStep.selfContained hs (ih hpath) (AbsolutePath.endsStep_steps path)
    rw [List.map_cons, AbsolutePath.steps, Steps.symbols, List.flatMap_cons]
    refine selfContained_slash.append hstep fun x hx t => ?_
    obtain rfl : sign .slash "/" = x := Option.some_inj.1 hx
    refine Spaced.ended_slash hstep.spaced (fun y hy => ?_) t
    obtain ⟨x, xs, hx, hne⟩ := s.asRead.symbols_eq_cons
    rw [hx] at hy
    cases hy
    exact ⟨hne.1, hne.2.1⟩

/-- A path that can be read is written as the tree that it is read as. -/
theorem AbsolutePath.selfContained {path : AbsolutePath} (h : ∀ s ∈ path, s.IsLegible) :
    SelfContained (AbsolutePath.tree (path.map PathStep.asRead)).symbols path.render.toList := by
  have hsteps := AbsolutePath.selfContained_steps h
  cases path with
  | nil =>
    show SelfContained (Expr.absolute .done).symbols ['/']
    rw [Expr.symbols]
    exact selfContained_slash
  | cons s path =>
    rw [← AbsolutePath.toList_render (List.cons_ne_nil s path), List.map_cons,
      AbsolutePath.steps] at hsteps
    rw [List.map_cons, AbsolutePath.tree, AbsolutePath.steps, Expr.symbols]
    · exact hsteps
    · rintro ⟨⟩

end TreeQuery
