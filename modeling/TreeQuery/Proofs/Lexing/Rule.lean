import Mathlib.Data.List.Induction
import Mathlib.Data.Nat.Digits.Defs
import TreeQuery.Proofs.Lexing.Name

/-!
# Token rules

How each kind of token is written, and the value that a writing stands for (`Rule`). A lexeme is
written by the rule of its kind (`rule_of_lexeme?`), and a text has a lexeme at its front exactly if
some rule writes the front of it (`lexeme?_eq_none_iff`).
-/

namespace TreeQuery.XPath

/-- The ways to write a token of a kind that has only a few of them. -/
def TokenKind.spellings : TokenKind → List String
  | slash => ["/"]
  | doubleSlash => ["//"]
  | dot => ["."]
  | doubleDot => [".."]
  | axisSep => ["::"]
  | atSign => ["@"]
  | openParen => ["("]
  | closeParen => [")"]
  | openBracket => ["["]
  | closeBracket => ["]"]
  | bar => ["|"]
  | equality => ["=", "!="]
  | relation => ["<", "<=", ">", ">="]
  | plus => ["+"]
  | minus => ["-"]
  | times | star => ["*"]
  | comma => [","]
  | colon => [":"]
  | dollar => ["$"]
  | or => ["or"]
  | and => ["and"]
  | div => ["div"]
  | mod => ["mod"]
  | nodeType => ["comment", "text", "processing-instruction", "node"]
  | literal | float | integer | name => []

/-- The number that digits write in base ten. -/
def decimal (ds : List Char) : Nat :=
  Nat.ofDigits 10 ((ds.map fun c => (Text.digitValue? c).getD 0).reverse)

/-- The rules: a kind of token, how it is written, and what that stands for. -/
inductive Rule : TokenKind → List Char → Value → Prop where
  | sign {k : TokenKind} {s : String} (spelled : s ∈ k.spellings) : Rule k s.toList (.text s)
  | literal {q : Char} {body : List Char} (quote : q = '"' ∨ q = '\'') (closed : q ∉ body) :
      Rule .literal (q :: (body ++ [q])) (.text (String.ofList body))
  | integer {ds : List Char} (filled : ds ≠ []) (digits : ∀ c ∈ ds, Text.isDigit c = true) :
      Rule .integer ds (.int (decimal ds))
  | float {whole fraction : List Char} (filled : whole ++ fraction ≠ [])
      (digits : ∀ c ∈ whole ++ fraction, Text.isDigit c = true) :
      Rule .float (whole ++ '.' :: fraction)
        (.float (Float.ofScientific (decimal (whole ++ fraction)) true fraction.length))
  | name {cs : List Char} (named : Text.isName cs = true)
      (free : ∀ k : TokenKind, k.isName = true → String.ofList cs ∉ k.spellings) :
      Rule .name cs (.text (String.ofList cs))

/-! ## Values -/

theorem digitsValue_eq_decimal (ds : List Char) : Text.digitsValue ds = decimal ds := by
  induction ds using List.reverseRecOn with
  | nil => rfl
  | append_singleton ds d ih =>
    rw [Text.digitsValue] at ih ⊢
    rw [List.foldl_append, List.foldl_cons, List.foldl_nil, ih, decimal, decimal, List.map_append,
      List.reverse_append, List.map_cons, List.map_nil, List.reverse_singleton,
      List.singleton_append, Nat.ofDigits_cons, Nat.add_comm]

theorem floatValue_point {whole fraction : List Char}
    (h : ∀ c ∈ whole ++ fraction, Text.isDigit c = true) :
    Token.floatValue (whole ++ '.' :: fraction) =
      Float.ofScientific (decimal (whole ++ fraction)) true fraction.length := by
  have hw : ∀ c ∈ whole, Text.isDigit c = true := (List.forall_mem_append.1 h).1
  have htake : (whole ++ '.' :: fraction).takeWhile Text.isDigit = whole := by
    rw [List.takeWhile_append_of_pos hw, List.takeWhile_cons_of_neg (by simp [not_isDigit_point]),
      List.append_nil]
  have hdrop : (whole ++ '.' :: fraction).dropWhile Text.isDigit = '.' :: fraction := by
    rw [List.dropWhile_append_of_pos hw, List.dropWhile_cons_of_neg (by simp [not_isDigit_point])]
  rw [Token.floatValue, htake, hdrop, digitsValue_eq_decimal]
  rfl

theorem rule_of_spelling {k : TokenKind} {cs : List Char} {start : Nat}
    (h : String.ofList cs ∈ k.spellings) : Rule k cs (Token.value ⟨k, cs, start⟩) := by
  have hs := Rule.sign h
  rw [String.toList_ofList] at hs
  cases k <;> first | exact hs | cases h

/-- A kind with few spellings has no others. -/
theorem Rule.spelled {k : TokenKind} {cs : List Char} {v : Value} (h : Rule k cs v)
    (hk : k.spellings ≠ []) : String.ofList cs ∈ k.spellings := by
  cases h with
  | sign spelled => rwa [String.ofList_toList]
  | literal | integer | float | name => exact absurd rfl hk

/-! ## Lexemes are written by rules -/

theorem rule_literal {q : Char} {cs : List Char} {start : Nat} (hq : q = '"' ∨ q = '\'')
    (h : literal? q cs = some (q :: cs)) :
    Rule .literal (q :: cs) (Token.value ⟨.literal, q :: cs, start⟩) := by
  rw [← List.append_nil cs] at h
  obtain ⟨body, hcs, hb⟩ := literal?_append_iff.1 (h.trans (by rw [List.append_nil]))
  subst hcs
  have hv : Token.value ⟨.literal, q :: (body ++ [q]), start⟩ = .text (String.ofList body) := by
    simp [Token.value]
  rw [hv]
  exact .literal hq fun hm => hb q hm rfl

theorem rule_numeral {k : TokenKind} {cs : List Char} {start : Nat} (hne : cs ≠ [])
    (hd : ∀ c ∈ cs.head?, Text.isDigit c = true) (h : numeral cs = (k, cs)) :
    Rule k cs (Token.value ⟨k, cs, start⟩) := by
  obtain ⟨ds, hds, ⟨r, rfl⟩ | ⟨r, rfl, hr⟩⟩ := digits_cases cs
  · rw [numeral_point hds] at h
    obtain ⟨rfl, hcs⟩ := Prod.mk.inj h
    have hr : ∀ c ∈ r, Text.isDigit c = true := by
      rw [← List.takeWhile_eq_self_iff]
      simpa using hcs
    have hdigits := List.forall_mem_append.2 ⟨hds, hr⟩
    have hfilled : ds ++ r ≠ [] := by
      rintro he
      obtain ⟨rfl, rfl⟩ := List.append_eq_nil_iff.1 he
      exact absurd (hd '.' rfl) (by decide)
    have hf := Rule.float hfilled hdigits
    rwa [← floatValue_point hdigits] at hf
  · rw [numeral_stop hds hr] at h
    obtain ⟨rfl, hcs⟩ := Prod.mk.inj h
    obtain rfl : r = [] := List.self_eq_append_right.1 hcs
    rw [List.append_nil] at hne ⊢
    have hi := Rule.integer hne hds
    rwa [← digitsValue_eq_decimal] at hi

theorem rule_pointed {k : TokenKind} {cs : List Char} {start : Nat}
    (h : pointed cs = (k, '.' :: cs)) :
    Rule k ('.' :: cs) (Token.value ⟨k, '.' :: cs, start⟩) := by
  cases cs with
  | nil =>
    obtain ⟨rfl, -⟩ := Prod.mk.inj h
    exact rule_of_spelling (by decide)
  | cons c cs =>
    rw [pointed_cons] at h
    split at h
    · next hc =>
      obtain ⟨rfl, hcs⟩ := Prod.mk.inj h
      have hdigits : ∀ d ∈ [] ++ c :: cs, Text.isDigit d = true := by
        refine List.forall_mem_cons.2 ⟨hc, ?_⟩
        rw [← List.takeWhile_eq_self_iff]
        simpa using hcs
      have hf := Rule.float (List.cons_ne_nil c cs) hdigits
      rwa [← floatValue_point hdigits] at hf
    · split at h <;> cases h
      exact rule_of_spelling (by decide)

theorem isName_of_chars {c : Char} {cs : List Char} (h : Text.isNameStart c = true)
    (hcs : ∀ d ∈ cs, Text.isNameChar d = true) : Text.isName (c :: cs) = true := by
  rw [Text.isName, h, Bool.true_and, List.all_eq_true]
  exact hcs

theorem nameKind_of_mem {k : TokenKind} {cs : List Char} (hk : k.isName = true)
    (h : String.ofList cs ∈ k.spellings) : nameKind cs = k := by
  unfold nameKind
  generalize String.ofList cs = s at h ⊢
  cases k
  case nodeType =>
    simp only [TokenKind.spellings, List.mem_cons, List.not_mem_nil, or_false] at h
    rcases h with rfl | rfl | rfl | rfl <;> rfl
  case or | and | div | mod =>
    cases List.mem_singleton.1 h
    rfl
  case name => cases h
  all_goals cases hk

theorem mem_spellings_nameKind {cs : List Char} (h : nameKind cs ≠ .name) :
    String.ofList cs ∈ (nameKind cs).spellings := by
  unfold nameKind at h ⊢
  split at h
  all_goals
    first
    | next he => rw [he]; decide
    | exact absurd rfl h

theorem rule_name {cs : List Char} {start : Nat} (h : Text.isName cs = true) :
    Rule (nameKind cs) cs (Token.value ⟨nameKind cs, cs, start⟩) := by
  by_cases hk : nameKind cs = .name
  · rw [hk]
    refine .name h fun k hn hs => ?_
    rw [nameKind_of_mem hn hs] at hk
    rw [hk] at hs
    cases hs
  · exact rule_of_spelling (mem_spellings_nameKind hk)

theorem rule_oneOrTwo {k one two : TokenKind} {c d : Char} {cs : List Char} {start : Nat}
    (h : oneOrTwo one two c d cs = (k, c :: cs)) (h1 : String.ofList [c] ∈ one.spellings)
    (h2 : String.ofList [c, d] ∈ two.spellings) :
    Rule k (c :: cs) (Token.value ⟨k, c :: cs, start⟩) := by
  unfold oneOrTwo at h
  split at h <;> cases h
  · exact rule_of_spelling h2
  · exact rule_of_spelling h1

theorem rule_operator {k : TokenKind} {c : Char} {cs : List Char} {start : Nat}
    (h : operator? c cs = some (k, c :: cs)) :
    Rule k (c :: cs) (Token.value ⟨k, c :: cs, start⟩) := by
  unfold operator? at h
  split at h
  case h_1 | h_2 | h_3 | h_4 => exact rule_oneOrTwo (Option.some_inj.1 h) (by decide) (by decide)
  case h_5 =>
    split at h <;> cases h
    exact rule_of_spelling (by decide)
  all_goals
    cases h
    try exact rule_of_spelling (by decide)

/-- A lexeme is written by the rule of its kind, and has the value that the rule says. -/
theorem rule_of_lexeme? {k : TokenKind} {cs : List Char} (hr : lexeme? cs = some (k, cs))
    (start : Nat) : Rule k cs (Token.value ⟨k, cs, start⟩) := by
  cases cs with
  | nil => cases hr
  | cons c cs =>
    simp only [lexeme?] at hr
    split at hr
    · next hq =>
      obtain ⟨t, ht, he⟩ := Option.map_eq_some_iff.1 hr
      cases he
      exact rule_literal (by simpa using hq) ht
    · split at hr
      · next hd =>
        refine rule_numeral (List.cons_ne_nil c cs) (fun d he => ?_) (Option.some_inj.1 hr)
        cases he
        exact hd
      · split at hr
        · next hp =>
          obtain rfl : c = '.' := eq_of_beq hp
          exact rule_pointed (Option.some_inj.1 hr)
        · split at hr
          · next hs =>
            obtain ⟨hk, hcs⟩ := Prod.mk.inj (Option.some_inj.1 hr)
            have hall : ∀ d ∈ cs, Text.isNameChar d = true := by
              rw [← List.takeWhile_eq_self_iff]
              exact (List.cons.inj hcs).2
            rw [hcs] at hk
            rw [← hk]
            exact rule_name (isName_of_chars hs hall)
          · exact rule_operator hr

/-! ## Where a rule applies there is a lexeme -/

theorem lexeme?_isSome_of_isNameStart {c : Char} (h : Text.isNameStart c = true)
    (cs : List Char) : (lexeme? (c :: cs)).isSome = true := by
  have hq : (c == '"' || c == '\'') = false := by
    rw [Bool.or_eq_false_iff]
    exact ⟨beq_false_of_ne (ne_of_isNameStart h (by decide)),
      beq_false_of_ne (ne_of_isNameStart h (by decide))⟩
  simp only [lexeme?, hq, h, Bool.false_eq_true, ↓reduceIte]
  split
  · rfl
  · split <;> rfl

theorem lexeme?_isSome_of_isDigit {c : Char} (h : Text.isDigit c = true) (cs : List Char) :
    (lexeme? (c :: cs)).isSome = true := by
  have hne {q : Char} (hq : Text.isDigit q = false) : c ≠ q := by
    rintro rfl
    rw [h] at hq
    cases hq
  have hq : (c == '"' || c == '\'') = false := by
    rw [Bool.or_eq_false_iff]
    exact ⟨beq_false_of_ne (hne (by decide)), beq_false_of_ne (hne (by decide))⟩
  simp only [lexeme?, hq, h, Bool.false_eq_true, ↓reduceIte]
  rfl

theorem lexeme?_isSome_of_operator {c : Char} {cs : List Char}
    (h : (operator? c cs).isSome = true) : (lexeme? (c :: cs)).isSome = true := by
  by_cases hq : c = '"' ∨ c = '\''
  · rcases hq with rfl | rfl <;> cases h
  · have hq : (c == '"' || c == '\'') = false := by simpa using hq
    simp only [lexeme?, hq, Bool.false_eq_true, ↓reduceIte]
    split
    · rfl
    · split
      · rfl
      · split
        · rfl
        · exact h

theorem lexeme?_isSome_of_point (cs : List Char) : (lexeme? ('.' :: cs)).isSome = true := by
  simp only [lexeme?, not_isDigit_point]
  rfl

theorem lexeme?_isSome_of_literal {q : Char} (hq : q = '"' ∨ q = '\'') (body rest : List Char) :
    (lexeme? (q :: (body ++ q :: rest))).isSome = true := by
  have hlt : ((body ++ q :: rest).takeWhile (· != q)).length < (body ++ q :: rest).length := by
    refine lt_of_le_of_ne (List.takeWhile_prefix _).length_le fun he => ?_
    have hall := List.takeWhile_eq_self_iff.1 ((List.takeWhile_prefix _).eq_of_length he)
    simpa using hall q (by simp)
  have hq' : (q == '"' || q == '\'') = true := by simpa using hq
  simp only [lexeme?, hq', literal?, if_pos hlt]
  rfl

theorem lexeme?_isSome_of_spelling {k : TokenKind} {s : String} (h : s ∈ k.spellings)
    (rest : List Char) : (lexeme? (s.toList ++ rest)).isSome = true := by
  cases k
  all_goals simp only [TokenKind.spellings, List.mem_cons, List.not_mem_nil, or_false] at h
  case dot | doubleDot =>
    cases h
    exact lexeme?_isSome_of_point _
  case nodeType =>
    rcases h with rfl | rfl | rfl | rfl <;> exact lexeme?_isSome_of_isNameStart (by decide) _
  case or | and | div | mod =>
    cases h
    exact lexeme?_isSome_of_isNameStart (by decide) _
  case equality =>
    rcases h with rfl | rfl <;> exact lexeme?_isSome_of_operator rfl
  case relation =>
    rcases h with rfl | rfl | rfl | rfl <;> exact lexeme?_isSome_of_operator rfl
  all_goals
    cases h
    try exact lexeme?_isSome_of_operator rfl

theorem Rule.isSome {k : TokenKind} {t cs : List Char} {v : Value} (h : Rule k t v)
    (hp : t <+: cs) : (lexeme? cs).isSome = true := by
  obtain ⟨rest, rfl⟩ := hp
  cases h with
  | sign spelled => exact lexeme?_isSome_of_spelling spelled rest
  | literal quote closed =>
    rw [List.cons_append, List.append_assoc]
    exact lexeme?_isSome_of_literal quote _ _
  | integer filled digits =>
    obtain ⟨c, cs, rfl⟩ := List.exists_cons_of_ne_nil filled
    exact lexeme?_isSome_of_isDigit (digits c List.mem_cons_self) _
  | @float whole fraction filled digits =>
    cases whole with
    | nil => exact lexeme?_isSome_of_point _
    | cons c whole => exact lexeme?_isSome_of_isDigit (digits c List.mem_cons_self) _
  | name named free =>
    cases t with
    | nil => cases named
    | cons c cs =>
      rw [Text.isName, Bool.and_eq_true] at named
      exact lexeme?_isSome_of_isNameStart named.1 _

/-- Nothing is read off the front of a text exactly if no rule applies there. -/
theorem lexeme?_eq_none_iff {cs : List Char} :
    lexeme? cs = none ↔ ∀ k t v, Rule k t v → ¬t <+: cs := by
  constructor
  · intro h k t v hr hp
    have hs := hr.isSome hp
    rw [h] at hs
    cases hs
  · intro h
    by_contra hn
    obtain ⟨⟨k, t⟩, hl⟩ := Option.ne_none_iff_exists'.1 hn
    obtain ⟨rest, rfl⟩ := lexeme?_isPrefix hl
    exact h k t _ (rule_of_lexeme? (lexeme?_append_iff.1 hl).1 0) (List.prefix_append t rest)

end TreeQuery.XPath
