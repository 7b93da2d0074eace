import TreeQuery.Namespace
import TreeQuery.Text.Quoted
import TreeQuery.Decimal.Shortest

/-!
# Values

What a caller passes in and gets back: scalars, sequences, nodes of a forest, namespaces, and the
namespace nodes that only engines see. `Value.shown` writes a value the way messages show it. Not
every value can be shown (`Unshown`).
-/

namespace TreeQuery

/-- A node of a forest, known by its place in it. -/
abbrev NodeId := Nat

inductive Value where
  | none
  | bool (b : Bool)
  | int (i : Int)
  | float (x : Float)
  | text (s : String)
  | list (vs : List Value)
  | tuple (vs : List Value)
  | dict (entries : List (Value × Value))
  | node (id : NodeId)
  | ns (n : Namespace)
  /-- A namespace as the node that an engine makes of it, with its element if that is known. -/
  | nsNode (n : Namespace) (owner : Option NodeId)
  /-- An object of another kind, known by its type and by how it is shown. -/
  | other (type shown : String)
  deriving Inhabited

/-- The text of a number: the shortest decimal that reads back, with an exponent of at least two
digits below `1e-4` and from `1e16` on. -/
def floatText (x : Float) : String :=
  let bits := x.toBits.toNat
  let sign := if bits < Decimal.signBit then "" else "-"
  let low : Nat := bits % Decimal.signBit
  if low = 0 then sign ++ "0.0"
  else if low = Decimal.infinityBits then sign ++ "inf"
  else if Decimal.infinityBits < low then "nan"
  else
    let d := (Decimal.Binary.ofBits low).shortest
    let ds := Nat.toDigits 10 d.digits
    let point := (ds.length : Int) + d.exponent
    let kept := (ds.reverse.dropWhile (· == '0')).reverse
    let body : List Char :=
      if point ≤ -4 ∨ 16 < point then
        let e := point - 1
        let fraction := if kept.length ≤ 1 then [] else '.' :: kept.drop 1
        let es := Nat.toDigits 10 e.natAbs
        kept.take 1 ++ fraction ++ ['e', if e < 0 then '-' else '+'] ++
          List.replicate (2 - es.length) '0' ++ es
      else if point ≤ 0 then
        '0' :: '.' :: List.replicate point.natAbs '0' ++ kept
      else
        let places := point.toNat
        let whole := kept.take places ++ List.replicate (places - kept.length) '0'
        let fraction := kept.drop places
        whole ++ '.' :: (if fraction.isEmpty then ['0'] else fraction)
    sign ++ String.ofList body

def Namespace.shown (n : Namespace) : String :=
  "Namespace(" ++ Text.quote n.pfx ++ ", " ++ Text.quote n.uri ++ ")"

/-- Why a value can not be shown. -/
inductive Unshown where
  /-- An integer has too many digits. -/
  | tooLong
  /-- A text or a comment holds a tuple with no entry, where one is to be shown. -/
  | noEntry
  /-- A text or a comment holds a tuple with more than one. -/
  | moreEntries
  deriving DecidableEq, Repr

namespace Value

/-- Whether a value counts as true. Nodes and namespaces always do. -/
def truthy : Value → Bool
  | none => false
  | bool b => b
  | int i => i != 0
  | float x => x != 0
  | text s => s != ""
  | list vs => !vs.isEmpty
  | tuple vs => !vs.isEmpty
  | dict es => !es.isEmpty
  | node _ | ns _ | nsNode _ _ | other _ _ => true

def isNone : Value → Bool
  | none => true
  | _ => false

def boolText (b : Bool) : String :=
  if b then "True" else "False"

/-- The most digits of an integer that is written out. -/
def maxDigits : Nat := 4300

def intText (i : Int) : Except Unshown String :=
  if maxDigits < (Nat.toDigits 10 i.natAbs).length then .error .tooLong else .ok (toString i)

mutual

/-- A value as messages show it, given how nodes are shown. Its parts are shown in order, up to the
first that can not be. -/
def shown (nodeText : NodeId → Except Unshown String) : Value → Except Unshown String
  | none => .ok "None"
  | bool b => .ok (boolText b)
  | int i => intText i
  | float x => .ok (floatText x)
  | text s => .ok (Text.quote s)
  | list vs => (shownAll nodeText vs).map fun ts => "[" ++ ", ".intercalate ts ++ "]"
  | tuple [v] => (shown nodeText v).map fun t => "(" ++ t ++ ",)"
  | tuple vs => (shownAll nodeText vs).map fun ts => "(" ++ ", ".intercalate ts ++ ")"
  | dict es => (shownEntries nodeText es).map fun ts => "\x7b" ++ ", ".intercalate ts ++ "\x7d"
  | node id => nodeText id
  | ns n => .ok n.shown
  | nsNode n owner => do
    let on ← match owner with
      | some id => nodeText id
      | .none => .ok "None"
    return "<NamespaceContainer " ++ n.shown ++ " on " ++ on ++ ">"
  | other _ s => .ok s

def shownAll (nodeText : NodeId → Except Unshown String) : List Value → Except Unshown (List String)
  | [] => .ok []
  | v :: vs => do
    let t ← shown nodeText v
    return t :: (← shownAll nodeText vs)

def shownEntries (nodeText : NodeId → Except Unshown String) :
    List (Value × Value) → Except Unshown (List String)
  | [] => .ok []
  | (k, v) :: es => do
    let key ← shown nodeText k
    let value ← shown nodeText v
    return (key ++ ": " ++ value) :: (← shownEntries nodeText es)

end

mutual

/-- The type of a part that keeps a value from being a key. -/
def unhashable? : Value → Option String
  | list _ => some "list"
  | dict _ => some "dict"
  | tuple vs => unhashableIn? vs
  | _ => Option.none

def unhashableIn? : List Value → Option String
  | [] => Option.none
  | v :: vs => (unhashable? v).or (unhashableIn? vs)

end

/-- The text of a value: a text is itself, anything else is shown. -/
def toText (nodeText : NodeId → Except Unshown String) : Value → Except Unshown String
  | text s => .ok s
  | v => shown nodeText v

/-- The value that a text or a comment shows of the one it holds: a tuple stands for its only entry.
The first entry of a longer one is shown before that fails. -/
def shownHeld (nodeText : NodeId → Except Unshown String) : Value → Except Unshown String
  | tuple [] => .error .noEntry
  | tuple [v] => shown nodeText v
  | tuple (v :: _) => do
    let _ ← shown nodeText v
    .error .moreEntries
  | v => shown nodeText v

/-- The numeric value of a boolean or an integer. -/
def toInt? : Value → Option Int
  | bool b => some (if b then 1 else 0)
  | int i => some i
  | _ => Option.none

/-- The integer that a float is equal to. -/
def floatInt? (x : Float) : Option Int :=
  let bits := x.toBits.toNat
  let low : Nat := bits % Decimal.signBit
  if Decimal.infinityBits ≤ low then Option.none
  else
    let b := Decimal.Binary.ofBits low
    let v := Decimal.scaled2 b.m b.q
    if v.1 % v.2 = 0 then
      let n : Int := (v.1 / v.2 : Nat)
      some (if bits < Decimal.signBit then n else -n)
    else Option.none

/-- Equality of scalars, nodes and namespaces: numbers by value, nodes by identity. -/
def equalAtom (a b : Value) : Bool :=
  match a, b with
  | none, none => true
  | text s, text t => s == t
  | float x, float y => x == y
  | float x, b => floatInt? x == b.toInt? && b.toInt?.isSome
  | a, float y => floatInt? y == a.toInt? && a.toInt?.isSome
  | node i, node j => i == j
  | ns n, ns m => n == m
  | nsNode n i, nsNode m j => n == m && i == j
  | a, b => a.toInt?.isSome && a.toInt? == b.toInt?

mutual

/-- Equality of values: sequences of one kind entry by entry, dictionaries whatever their order. -/
def equal : Value → Value → Bool
  | list vs, list ws => equalAll vs ws
  | tuple vs, tuple ws => equalAll vs ws
  | dict es, dict fs => es.length == fs.length && entriesIn es fs
  | a, b => equalAtom a b

def equalAll : List Value → List Value → Bool
  | [], [] => true
  | v :: vs, w :: ws => equal v w && equalAll vs ws
  | _, _ => false

def entriesIn : List (Value × Value) → List (Value × Value) → Bool
  | [], _ => true
  | (k, v) :: es, fs => fs.any (fun f => equal k f.1 && equal v f.2) && entriesIn es fs

end

/-- A dictionary of entries given one after the other: the last value of a key in the place of its
first. -/
def dictOf (entries : List (Value × Value)) : Value :=
  .dict (entries.foldl put [])
where
  put (es : List (Value × Value)) (e : Value × Value) : List (Value × Value) :=
    if es.any fun x => x.1.equal e.1 then
      es.map fun x => if x.1.equal e.1 then (x.1, e.2) else x
    else es ++ [e]

end Value

end TreeQuery
