/-!
# References to resources

The grammar of URI references (RFC 3986): an absolute URI or a relative reference, each with an
optional query and fragment. Only ASCII characters occur in one; others are written as `%` and two
hexadecimal digits.
-/

namespace TreeQuery.Text.Uri

def isHex (c : Char) : Bool :=
  c.isDigit || ('a' ≤ c && c ≤ 'f') || ('A' ≤ c && c ≤ 'F')

def isUnreserved (c : Char) : Bool :=
  c.isAlphanum || c == '-' || c == '.' || c == '_' || c == '~'

def isSubDelim (c : Char) : Bool :=
  ['!', '$', '&', '\'', '(', ')', '*', '+', ',', ';', '='].contains c

/-- Skips the longest run of units that are unreserved, delimiters, in `extra`, or escapes. -/
def skipUnits (extra : List Char) : List Char → List Char
  | '%' :: a :: b :: cs => if isHex a && isHex b then skipUnits extra cs else '%' :: a :: b :: cs
  | c :: cs =>
    if isUnreserved c || isSubDelim c || extra.contains c then skipUnits extra cs else c :: cs
  | [] => []

/-- Characters of a path segment besides the units. -/
def segmentExtra : List Char := [':', '@']

/-- What may follow the path: a query, then a fragment. -/
def endsAfterPath (cs : List Char) : Bool :=
  let afterQuery := match cs with
    | '?' :: rest => skipUnits (segmentExtra ++ ['/', '?']) rest
    | _ => cs
  match afterQuery with
  | '#' :: rest => (skipUnits (segmentExtra ++ ['/', '?', '[', ']']) rest).isEmpty
  | rest => rest.isEmpty

/-- Skips segments, each after a slash. -/
def skipSegments (cs : List Char) : List Char :=
  skipUnits (segmentExtra ++ ['/']) cs

/-- The host of an authority and the digits after its colon, if it has one. -/
def skipHost (cs : List Char) : Option (List Char) :=
  let host : Option (List Char) := match cs with
    | '[' :: rest =>
      match rest.dropWhile (· != ']') with
      | ']' :: after => some after
      | _ => none
    | _ => some (skipUnits [] cs)
  match host with
  | some (':' :: rest) =>
    if rest.head?.any Char.isDigit then some (rest.dropWhile Char.isDigit) else none
  | other => other

/-- An authority, with its user information if there is an `@` after it. -/
def skipAuthority (cs : List Char) : Option (List Char) :=
  match skipUnits [':'] cs with
  | '@' :: rest => skipHost rest
  | _ => skipHost cs

/-- An authority and a path, or a path alone. `first` skips the first segment of a path that does
not begin with a slash. -/
def isHierarchy (first : List Char → List Char) (cs : List Char) : Bool :=
  match cs with
  | '/' :: '/' :: rest =>
    match skipAuthority rest with
    | some after => endsAfterPath (if after.head? = some '/' then skipSegments after else after)
    | none => false
  | '/' :: _ => endsAfterPath (skipSegments cs)
  | _ =>
    let after := first cs
    endsAfterPath (if after.head? = some '/' then skipSegments after else after)

/-- The part after the colon of a scheme. -/
def afterScheme? (cs : List Char) : Option (List Char) :=
  match cs with
  | c :: rest =>
    if c.isAlpha then
      match rest.dropWhile fun c => c.isAlphanum || c == '+' || c == '-' || c == '.' with
      | ':' :: after => some after
      | _ => none
    else none
  | [] => none

def isReference (s : String) : Bool :=
  let cs := s.toList
  (match afterScheme? cs with
    | some rest => isHierarchy (skipUnits segmentExtra) rest
    | none => false) ||
    isHierarchy (skipUnits ['@']) cs

end TreeQuery.Text.Uri
