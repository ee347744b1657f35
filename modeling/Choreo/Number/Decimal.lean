import Choreo.Number.Double

/-!
# Decimals

A decimal is `digits * 10 ^ exponent`. This module reads one as a binary number and selects, for a
binary number, the shortest decimal that reads back as that number.

`shortest` tries one digit, two digits and so on. On each decimal grid it looks at the two
neighbours of the exact value, keeps those that read back, and of two takes the nearer; how an
exact tie goes is part of the format of the text. Should no grid do, the exact value itself is the
answer.
-/

namespace Choreo

/-- The number `digits * 10 ^ exponent`. -/
structure Decimal where
  digits : Nat
  exponent : Int
deriving DecidableEq, Repr

/-- The decimal digits of a natural number, first digit first. -/
def decimalDigits (n : Nat) : List Char := Nat.toDigits 10 n

namespace Decimal

/-- The numerator of the number as a quotient of natural numbers. -/
def num (d : Decimal) : Nat := d.digits * 10 ^ d.exponent.toNat

/-- The denominator of the number as a quotient of natural numbers. -/
def den (d : Decimal) : Nat := 10 ^ (-d.exponent).toNat

/-- The exponent of the first digit. -/
def leadingExponent (d : Decimal) : Int := d.exponent + (decimalDigits d.digits).length - 1

/-- Every magnitude from `10 ^ reach` on is infinite in the formats in use, and every one below
`10 ^ (-reach)` is zero. -/
def reach : Int := 400

/-- The code nearest to a decimal. -/
def code (fmt : BinaryFormat) (d : Decimal) : Nat :=
  if d.digits = 0 then 0
  else if reach ≤ d.leadingExponent then fmt.infinity
  else if d.leadingExponent < -reach then 0
  else fmt.nearest d.num d.den

/-- The double nearest to a signed decimal. -/
def toDouble (negative : Bool) (d : Decimal) : Float :=
  Double.ofCode negative (d.code .double)

/-- The decimal that equals a dyadic number. -/
def ofDyadic (x : Dyadic) : Decimal :=
  if 0 ≤ x.exponent then ⟨x.significand * 2 ^ x.exponent.toNat, 0⟩
  else ⟨x.significand * 5 ^ (-x.exponent).toNat, x.exponent⟩

/-- The exponent of the first decimal digit of a positive quotient. -/
def magnitudeOf (num den : Nat) : Int :=
  if den ≤ num then ((decimalDigits (num / den)).length : Int) - 1
  else -(decimalDigits (ceilDiv den num - 1)).length

/-- The same number without zeros at the end of its digits; `fuel` bounds how many are taken off. -/
def stripZeros : (fuel : Nat) → Decimal → Decimal
  | 0, d => d
  | fuel + 1, d =>
    if d.digits ≠ 0 ∧ d.digits % 10 = 0 then stripZeros fuel ⟨d.digits / 10, d.exponent + 1⟩ else d

/-- The decimal on the grid `10 ^ exponent` that reads back as `code` and is nearest to `num / den`,
if one of the two neighbours of the quotient on that grid reads back. -/
def onGrid (fmt : BinaryFormat) (tie : Tie) (code num den : Nat) (exponent : Int) :
    Option Decimal :=
  let scaledNum := num * 10 ^ (-exponent).toNat
  let scaledDen := den * 10 ^ exponent.toNat
  let below : Decimal := ⟨scaledNum / scaledDen, exponent⟩
  let above : Decimal := ⟨scaledNum / scaledDen + 1, exponent⟩
  match below.code fmt == code, above.code fmt == code with
  | true, true => some ⟨roundDiv tie scaledNum scaledDen, exponent⟩
  | true, false => some below
  | false, true => some above
  | false, false => none

/-- The shortest decimal that reads back as `code`, and of those the nearest to its exact value. -/
def shortest (fmt : BinaryFormat) (tie : Tie) (code : Nat) : Decimal :=
  let x := fmt.dyadic code
  if x.significand = 0 then ⟨0, 0⟩ else
    let leading := magnitudeOf x.num x.den
    let found := (List.range 17).findSome? fun (n : Nat) =>
      onGrid fmt tie code x.num x.den (leading - n)
    let d := found.getD (ofDyadic x)
    stripZeros (decimalDigits d.digits).length d

end Decimal

end Choreo
