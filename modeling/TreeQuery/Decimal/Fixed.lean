import TreeQuery.Decimal.Shortest

/-!
# Decimals with a given number of places

Rounding of fractions to whole numbers and of binary64 numbers to a number of decimal places. What
is half way between two goes to the even one.
-/

namespace TreeQuery.Decimal

/-- The whole number nearest to a fraction, the even one of two. -/
def roundHalfEven (a : Nat × Nat) : Nat :=
  let q := a.1 / a.2
  let r := 2 * (a.1 % a.2)
  if a.2 < r ∨ (r = a.2 ∧ q % 2 = 1) then q + 1 else q

/-- A number in units of `10 ^ s`, rounded. -/
def Binary.roundAt (b : Binary) (s : Int) : Nat :=
  let v := scaled2 b.m b.q
  let unit := scaled10 1 s
  roundHalfEven (v.1 * unit.2, v.2 * unit.1)

/-- Digits with a point before the last `places` of them. -/
def placed (digits places : Nat) : List Char × List Char :=
  let ds := Nat.toDigits 10 digits
  let ds := List.replicate (places + 1 - ds.length) '0' ++ ds
  (ds.take (ds.length - places), ds.drop (ds.length - places))

/-- A number with `places` digits after the point: the digits before it and after it. -/
def Binary.fixed (b : Binary) (places : Nat) : List Char × List Char :=
  placed (b.roundAt (-(places : Int))) places

/-- A number that is not zero with one digit before the point and `places` after it, and its
exponent. -/
def Binary.scientific (b : Binary) (places : Nat) : (List Char × List Char) × Int :=
  let e := leadingExponent (scaled2 b.m b.q)
  let digits := b.roundAt (e - places)
  if digits < Nat.pow 10 (places + 1) then (placed digits places, e)
  else (placed (b.roundAt (e + 1 - places)) places, e + 1)

/-- The significand of 53 bits and the exponent nearest to a whole number. -/
def nearest (n : Nat) : Nat × Nat :=
  let shift := n.log2 - 52
  if shift = 0 then (n, 0) else (roundHalfEven (n, Nat.pow 2 shift), shift)

end TreeQuery.Decimal
