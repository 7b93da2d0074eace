import TreeQuery.Decimal.Fixed
import TreeQuery.Text.Blank

/-!
# Numbers of expressions

Reading and writing of numbers. A numeral is summed up digit by digit; of its fraction twenty digits
count after the zeros that it begins with. Whole numbers of 32 bits are written in full, others with
fifteen digits.
-/

namespace TreeQuery.XPath

def notANumber : Float := 0.0 / 0.0

/-- `10 ^ n` as the power function gives it. -/
def powerOfTen (n : Int) : Float := Float.pow 10.0 (Float.ofInt n)

def addDigit (x : Float) (c : Char) : Float := x * 10.0 + Float.ofNat (c.toNat - 48)

/-- How many digits of a fraction count. -/
def fractionDigits : Nat := 20

/-- The value of the digits after the point. -/
def fractionValue (digits : List Char) : Float :=
  let zeros := (digits.takeWhile (· == '0')).length
  let counted := (digits.drop zeros).take fractionDigits
  counted.foldl addDigit 0.0 / powerOfTen (zeros + counted.length)

/-- The largest exponent whose further digits count. -/
def exponentLimit : Nat := 1000000

def exponentValue (digits : List Char) : Nat :=
  digits.foldl (fun n c => if n < exponentLimit then 10 * n + (c.toNat - 48) else n) 0

/-- The factor that an exponent stands for, and what follows it. -/
def readExponent (cs : List Char) : Option Int × List Char :=
  let digits (sign : Int) (rest : List Char) : Option Int × List Char :=
    (some (sign * exponentValue (rest.takeWhile Char.isDigit)), rest.dropWhile Char.isDigit)
  match cs with
  | e :: rest =>
    if e = 'e' ∨ e = 'E' then
      match rest with
      | '-' :: rest => digits (-1) rest
      | '+' :: rest => digits 1 rest
      | _ => digits 1 rest
    else (none, cs)
  | [] => (none, cs)

/-- Reads digits with a point, a sign having been read before. -/
def readMantissa (cs : List Char) : Option (Float × List Char) :=
  let whole := cs.takeWhile Char.isDigit
  let value := whole.foldl addDigit 0.0
  match cs.dropWhile Char.isDigit with
  | '.' :: rest =>
    let fraction := rest.takeWhile Char.isDigit
    if whole.isEmpty && fraction.isEmpty then none
    else some (value + fractionValue fraction, rest.dropWhile Char.isDigit)
  | rest => if whole.isEmpty then none else some (value, rest)

/-- The number that a numeral of an expression spells. -/
def numeralValue (s : String) : Float :=
  match readMantissa s.toList with
  | none => notANumber
  | some (x, rest) =>
    match (readExponent rest).1 with
    | some e => x * powerOfTen e
    | none => x

/-- The number that a text spells, with white space around it and perhaps a sign before it. -/
def numberOf (s : String) : Float :=
  let cs := s.toList.dropWhile Text.isSpace
  let (negative, cs) := match cs with
    | '-' :: rest => (true, rest)
    | _ => (false, cs)
  match readMantissa cs with
  | none => notANumber
  | some (x, rest) =>
    let (e, rest) := readExponent rest
    if (rest.dropWhile Text.isSpace).isEmpty then
      (if negative then -x else x) * powerOfTen (e.getD 0)
    else notANumber

/-! ## Text of numbers -/

/-- Numbers above this and below its counterpart are written with an exponent. -/
def largestPositional : Float := 1e9

def smallestPositional : Float := 1e-5

/-- How many digits of a number are written. -/
def significantDigits : Nat := 15

def trimZeros (cs : List Char) : List Char :=
  (cs.reverse.dropWhile (· == '0')).reverse

/-- Digits with their fraction, if it holds more than zeros. -/
def withFraction (parts : List Char × List Char) : List Char :=
  let fraction := trimZeros parts.2
  if fraction.isEmpty then parts.1 else parts.1 ++ '.' :: fraction

/-- How many places after the point are written of a number without an exponent. -/
def placesOf (magnitude : Float) : Nat :=
  let e := Float.log10 magnitude
  if e ≥ 1.0 then significantDigits - 1 - e.floor.toUInt64.toNat
  else significantDigits + (if e < 0.0 then (-e).floor.toUInt64.toNat else 0)

/-- Whether a number is a whole number of 32 bits, the outermost ones left out. -/
def isShortWhole (x : Float) : Bool :=
  -2147483648.0 < x && x < 2147483647.0 && x.floor == x

def numberText (x : Float) : String :=
  if x.isNaN then "NaN"
  else if x.isInf then (if x < 0.0 then "-Infinity" else "Infinity")
  else if x == 0.0 then "0"
  else
    let magnitude := x.abs
    let b := Decimal.Binary.ofBits magnitude.toBits.toNat
    let digits :=
      if isShortWhole x then Nat.toDigits 10 magnitude.toUInt64.toNat
      else if largestPositional < magnitude || magnitude < smallestPositional then
        let (parts, e) := b.scientific (significantDigits - 1)
        let es := Nat.toDigits 10 e.natAbs
        withFraction parts ++ ['e', if e < 0 then '-' else '+'] ++
          List.replicate (2 - es.length) '0' ++ es
      else withFraction (b.fixed (placesOf magnitude))
    String.ofList (if x < 0.0 then '-' :: digits else digits)

/-! ## Arithmetic -/

/-- The nearest whole number, the greater one of two. What rounds to zero keeps its sign. -/
def roundNumber (x : Float) : Float :=
  if -0.5 ≤ x && x < 0.5 then x * 0.0
  else
    let below := x.floor
    if x - below ≥ 0.5 then below + 1.0 else below

/-- The remainder of a division that is rounded towards zero, with the sign of the dividend. -/
def remainder (x y : Float) : Float :=
  if x.isNaN || y.isNaN || x.isInf || y == 0.0 then notANumber
  else if y.isInf || x == 0.0 then x
  else
    let a := Decimal.Binary.ofBits x.abs.toBits.toNat
    let b := Decimal.Binary.ofBits y.abs.toBits.toNat
    let q := min a.q b.q
    let r := (a.m * Nat.pow 2 (a.q - q).toNat) % (b.m * Nat.pow 2 (b.q - q).toNat)
    let magnitude := (Float.ofNat r).scaleB q
    if x.toBits.toNat < Decimal.signBit then magnitude else -magnitude

/-- A whole number as a number of an expression, unless it is too large. -/
def ofWhole? (i : Int) : Option Float :=
  let (m, shift) := Decimal.nearest i.natAbs
  if (m.log2 + shift) < 1024 then
    let magnitude := (Float.ofNat m).scaleB shift
    some (if i < 0 then -magnitude else magnitude)
  else none

end TreeQuery.XPath
