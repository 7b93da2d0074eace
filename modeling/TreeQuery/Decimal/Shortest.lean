/-!
# Shortest decimals

The decimal with the fewest digits that reads back as a given binary64 number, and of those the
nearest. The search tries one digit, two digits, and so on; with each count of digits only the two
neighbours of the number on that decimal grid can read back.
-/

namespace TreeQuery.Decimal

/-- A finite positive number `m * 2 ^ q`; `edge` says that the gap below it is half the gap
above. -/
structure Binary where
  m : Nat
  q : Int
  edge : Bool
  deriving DecidableEq, Repr

/-- The decimal `digits * 10 ^ exponent`. -/
structure Numeral where
  digits : Nat
  exponent : Int
  deriving DecidableEq, Repr

/-- The bit of the sign among the bits of a number. -/
def signBit : Nat := 0x8000000000000000

/-- The bits of infinity. Those of what is no number come after them. -/
def infinityBits : Nat := 0x7FF0000000000000

/-- The leading bit of a significand, which is left out of the bits of a number. -/
def leadingBit : Nat := 0x10000000000000

/-- Reads the 63 bits below the sign of a finite number. -/
def Binary.ofBits (bits : Nat) : Binary :=
  let exponent : Nat := bits / leadingBit
  let fraction : Nat := bits % leadingBit
  if exponent = 0 then ⟨fraction, -1074, false⟩
  else ⟨fraction + leadingBit, (exponent : Int) - 1075, fraction == 0 && exponent != 1⟩

/-- `x * 2 ^ q` as a fraction. -/
def scaled2 (x : Nat) (q : Int) : Nat × Nat :=
  match q with
  | .ofNat k => (x * Nat.pow 2 k, 1)
  | .negSucc k => (x, Nat.pow 2 (k + 1))

/-- `x * 10 ^ s` as a fraction. -/
def scaled10 (x : Nat) (s : Int) : Nat × Nat :=
  match s with
  | .ofNat k => (x * Nat.pow 10 k, 1)
  | .negSucc k => (x, Nat.pow 10 (k + 1))

def fractionLe (a b : Nat × Nat) : Bool :=
  a.1 * b.2 ≤ b.1 * a.2

def fractionLt (a b : Nat × Nat) : Bool :=
  a.1 * b.2 < b.1 * a.2

/-- Whether a decimal rounds to the number: it lies between the midpoints to the number's
neighbours, which belong to the number when its significand is even. -/
def Binary.readsBack (b : Binary) (d : Numeral) : Bool :=
  let low := scaled2 (4 * b.m - if b.edge then 1 else 2) (b.q - 2)
  let high := scaled2 (4 * b.m + 2) (b.q - 2)
  let x := scaled10 d.digits d.exponent
  if b.m % 2 = 0 then fractionLe low x && fractionLe x high
  else fractionLt low x && fractionLt x high

/-- The exponent of the leading decimal digit of the fraction `a`, which is not zero. -/
def leadingExponent (a : Nat × Nat) : Int :=
  if a.2 ≤ a.1 then ((Nat.toDigits 10 (a.1 / a.2)).length : Int) - 1
  else
    match (List.range 400).find? fun k => a.2 ≤ a.1 * Nat.pow 10 k with
    | some k => -(k : Int)
    | none => 0

/-- The largest multiple of `10 ^ s` that is not above the fraction, in units of `10 ^ s`. -/
def floorAt (a : Nat × Nat) (s : Int) : Nat :=
  match s with
  | .ofNat k => a.1 / (a.2 * Nat.pow 10 k)
  | .negSucc k => a.1 * Nat.pow 10 (k + 1) / a.2

/-- The neighbours of the number on the grid of `count` digits that read back, the nearer one if
both do. -/
def Binary.candidate? (b : Binary) (count : Nat) : Option Numeral :=
  let v := scaled2 b.m b.q
  let s := leadingExponent v - (count : Int) + 1
  let below : Numeral := ⟨floorAt v s, s⟩
  let above : Numeral := ⟨floorAt v s + 1, s⟩
  match b.readsBack below, b.readsBack above with
  | true, true =>
    let middle := scaled10 (10 * below.digits + 5) (s - 1)
    if fractionLt middle v || (!fractionLt v middle && below.digits % 2 = 1) then some above
    else some below
  | true, false => some below
  | false, true => some above
  | false, false => none

/-- The shortest decimal of a number that is not zero. Seventeen digits always suffice. -/
def Binary.shortest (b : Binary) : Numeral :=
  ((List.range 17).findSome? fun k => b.candidate? (k + 1)).getD ⟨b.m, b.q⟩

end TreeQuery.Decimal
