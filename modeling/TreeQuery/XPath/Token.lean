import TreeQuery.Failure
import TreeQuery.Text.Blank
import TreeQuery.Text.DecimalDigit
import TreeQuery.Text.Name

/-!
# Tokens of an expression

`tokenize` splits an expression into tokens; positions count characters. Among the lexemes that
could start at a place the longest operator wins, digits come before names, and a name that spells
an operator is that operator wherever it stands. A `*` multiplies unless it comes first or after a
token that calls for an operand.
-/

namespace TreeQuery.XPath

inductive TokenKind where
  | slash | doubleSlash | dot | doubleDot | axisSep | atSign
  | openParen | closeParen | openBracket | closeBracket
  | bar | equality | relation | plus | minus | times | star | comma
  | literal | float | integer | name | nodeType | colon | dollar
  | or | and | div | mod
  deriving DecidableEq, Repr

structure Token where
  kind : TokenKind
  text : List Char
  start : Nat
  deriving DecidableEq, Repr

namespace Token

/-- The position just past a token. -/
def stop (t : Token) : Nat := t.start + t.text.length

def string (t : Token) : String := String.ofList t.text

/-- Kinds that can serve as a name within a qualified name or after `$`. -/
def isName (t : Token) : Bool :=
  match t.kind with
  | .name | .nodeType | .or | .and | .div | .mod => true
  | _ => false

/-- The number that a numeral with a point spells. -/
def floatValue (cs : List Char) : Float :=
  let whole := cs.takeWhile Text.isDigit
  let fraction := (cs.dropWhile Text.isDigit).drop 1
  Float.ofScientific (Text.digitsValue (whole ++ fraction)) true fraction.length

/-- What a token stands for: a literal for the text between its quotes, a numeral for its number,
any other token for itself. -/
def value (t : Token) : Value :=
  match t.kind with
  | .literal => .text (String.ofList (t.text.drop 1).dropLast)
  | .integer => .int (Text.digitsValue t.text)
  | .float => .float (floatValue t.text)
  | _ => .text t.string

end Token

/-! ## Lexemes -/

/-- The kind of a name by its spelling. -/
def nameKind (cs : List Char) : TokenKind :=
  match String.ofList cs with
  | "or" => .or
  | "and" => .and
  | "div" => .div
  | "mod" => .mod
  | "comment" | "text" | "processing-instruction" | "node" => .nodeType
  | _ => .name

/-- A literal ends at the next quote of its kind. -/
def literal? (q : Char) (cs : List Char) : Option (List Char) :=
  let body := cs.takeWhile (· != q)
  if body.length < cs.length then some (q :: body ++ [q]) else none

/-- The numeral at the front of a text that starts with a digit. -/
def numeral (cs : List Char) : TokenKind × List Char :=
  let whole := cs.takeWhile Text.isDigit
  match cs.dropWhile Text.isDigit with
  | '.' :: rest => (.float, whole ++ '.' :: rest.takeWhile Text.isDigit)
  | _ => (.integer, whole)

/-- What starts with a point: a numeral, the parent step or the self step. -/
def pointed (cs : List Char) : TokenKind × List Char :=
  let fraction := cs.takeWhile Text.isDigit
  if fraction.isEmpty then
    if cs.head? = some '.' then (.doubleDot, ['.', '.']) else (.dot, ['.'])
  else (.float, '.' :: fraction)

/-- An operator of one character, or of two if the second is the given one. -/
def oneOrTwo (one two : TokenKind) (c second : Char) (cs : List Char) : TokenKind × List Char :=
  if cs.head? = some second then (two, [c, second]) else (one, [c])

def operator? (c : Char) (cs : List Char) : Option (TokenKind × List Char) :=
  match c with
  | '/' => some (oneOrTwo .slash .doubleSlash c '/' cs)
  | ':' => some (oneOrTwo .colon .axisSep c ':' cs)
  | '<' | '>' => some (oneOrTwo .relation .relation c '=' cs)
  | '!' => if cs.head? = some '=' then some (.equality, ['!', '=']) else none
  | '=' => some (.equality, [c])
  | '@' => some (.atSign, [c])
  | '(' => some (.openParen, [c])
  | ')' => some (.closeParen, [c])
  | '[' => some (.openBracket, [c])
  | ']' => some (.closeBracket, [c])
  | '|' => some (.bar, [c])
  | '+' => some (.plus, [c])
  | '-' => some (.minus, [c])
  | '*' => some (.star, [c])
  | ',' => some (.comma, [c])
  | '$' => some (.dollar, [c])
  | _ => none

/-- The lexeme at the front of a text, if any starts there. -/
def lexeme? : List Char → Option (TokenKind × List Char)
  | [] => none
  | c :: cs =>
    if c == '"' || c == '\'' then (literal? c cs).map fun t => (.literal, t)
    else if Text.isDigit c then some (numeral (c :: cs))
    else if c == '.' then some (pointed cs)
    else if Text.isNameStart c then
      let name := c :: cs.takeWhile Text.isNameChar
      some (nameKind name, name)
    else operator? c cs

/-! ## Lexemes are not empty -/

theorem numeral_ne_nil {c : Char} {cs : List Char} (h : Text.isDigit c = true) :
    (numeral (c :: cs)).2 ≠ [] := by
  unfold numeral
  simp only [List.takeWhile_cons, h, ↓reduceIte]
  split <;> simp

theorem pointed_ne_nil (cs : List Char) : (pointed cs).2 ≠ [] := by
  unfold pointed
  dsimp only
  split
  · split <;> simp
  · simp

theorem oneOrTwo_ne_nil (k k' : TokenKind) (c d : Char) (cs : List Char) :
    (oneOrTwo k k' c d cs).2 ≠ [] := by
  unfold oneOrTwo; split <;> simp

theorem operator?_ne_nil {c : Char} {cs : List Char} {r : TokenKind × List Char}
    (h : operator? c cs = some r) : r.2 ≠ [] := by
  unfold operator? at h
  split at h <;> (try split at h) <;> cases h <;> first
    | exact oneOrTwo_ne_nil _ _ _ _ _
    | exact List.cons_ne_nil _ _

theorem lexeme?_ne_nil {cs : List Char} {r : TokenKind × List Char} (h : lexeme? cs = some r) :
    r.2 ≠ [] := by
  cases cs with
  | nil => cases h
  | cons c cs =>
    simp only [lexeme?] at h
    split at h
    · simp only [literal?, Option.map_eq_some_iff] at h
      obtain ⟨t, ht, rfl⟩ := h
      split at ht <;> cases ht
      simp
    · split at h
      · rename_i hd
        cases h; exact numeral_ne_nil hd
      · split at h
        · cases h; exact pointed_ne_nil cs
        · split at h
          · cases h; simp
          · exact operator?_ne_nil h

/-! ## Tokens -/

/-- Tokens after which a `*` is a name test. -/
def forcesStar : TokenKind → Bool
  | .atSign | .axisSep | .openParen | .openBracket | .comma | .and | .or | .mod | .div | .times
  | .slash | .doubleSlash | .bar | .plus | .minus | .equality | .relation | .colon => true
  | _ => false

/-- A `*` multiplies what precedes it, if that is an operand. -/
def resolveStar (last : Option TokenKind) (k : TokenKind) : TokenKind :=
  match k, last with
  | .star, some l => if forcesStar l then .star else .times
  | k, _ => k

/-- The most digits that an integer may have. -/
def maxDigits : Nat := 4300

/-- The tokens of a text that starts at `pos` and follows a token of kind `last`. -/
def tokensFrom (last : Option TokenKind) (pos : Nat) (cs : List Char) :
    Except Failure (List Token) :=
  match cs with
  | [] => .ok []
  | c :: rest =>
    if Text.isSpace c then tokensFrom last (pos + 1) rest
    else
      match _h : lexeme? (c :: rest) with
      | none => .error (.unknownText (String.ofList ((c :: rest).take 10)) pos)
      | some (k, t) =>
        if k = .integer ∧ maxDigits < t.length then .error (.tooManyDigits t.length)
        else
          let kind := resolveStar last k
          (tokensFrom (some kind) (pos + t.length) ((c :: rest).drop t.length)).map
            (⟨kind, t, pos⟩ :: ·)
  termination_by cs.length
  decreasing_by
    · simp
    · have := List.length_pos_iff.2 (lexeme?_ne_nil _h)
      simp only [List.length_drop, List.length_cons] at *
      omega

def tokenize (expression : String) : Except Failure (List Token) :=
  tokensFrom none 0 expression.toList

end TreeQuery.XPath
