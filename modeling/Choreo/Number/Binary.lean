import Choreo.Number.Rounding

/-!
# Binary floating point formats

A format is given by its precision, the exponent of its smallest positive number and the number of
its exponent fields. The magnitudes of a format are numbered in order: `code 0` is zero, the next
code is the smallest positive number, and the last one that this library uses is infinity. The code
of a number is what its bits say once the sign bit is taken off, so the order of the codes is the
order of the magnitudes.

`BinaryFormat.dyadic` gives the exact value of a code, `BinaryFormat.nearest` the code nearest to a
quotient, ties going to the even code and everything too large to infinity.
-/

namespace Choreo

/-- A non-negative number of the form `significand * 2 ^ exponent`. -/
structure Dyadic where
  significand : Nat
  exponent : Int
deriving DecidableEq, Repr

namespace Dyadic

/-- The numerator of the number as a quotient of natural numbers. -/
def num (x : Dyadic) : Nat := x.significand * 2 ^ x.exponent.toNat

/-- The denominator of the number as a quotient of natural numbers. -/
def den (x : Dyadic) : Nat := 2 ^ (-x.exponent).toNat

theorem den_pos (x : Dyadic) : 0 < x.den := Nat.two_pow_pos _

end Dyadic

/-- The shape of a binary floating point format. -/
structure BinaryFormat where
  /-- The number of significant bits. -/
  precision : Nat
  /-- The exponent of the smallest positive number. -/
  leastExponent : Int
  /-- The exponent field that infinity has. -/
  lastField : Nat

namespace BinaryFormat

/-- Numbers of 64 bits. -/
def double : BinaryFormat := ⟨53, -1074, 2047⟩

/-- Numbers of 32 bits. -/
def single : BinaryFormat := ⟨24, -149, 255⟩

variable (fmt : BinaryFormat)

/-- The number of codes that share one exponent. -/
def binade : Nat := 2 ^ (fmt.precision - 1)

/-- The code of infinity. -/
def infinity : Nat := fmt.lastField * fmt.binade

/-- The exact value of a finite code. -/
def dyadic (code : Nat) : Dyadic :=
  match code / fmt.binade with
  | 0 => ⟨code, fmt.leastExponent⟩
  | field + 1 => ⟨fmt.binade + code % fmt.binade, fmt.leastExponent + field⟩

/-- The exponent of the leading bit of a positive quotient. -/
def leadingExponent (num den : Nat) : Int :=
  let guess : Int := num.log2 - den.log2
  if den * 2 ^ guess.toNat ≤ num * 2 ^ (-guess).toNat then guess else guess - 1

/-- The code nearest to `num / den`. -/
def nearest (num den : Nat) : Nat :=
  if num = 0 then 0 else
    let place := max (leadingExponent num den - (fmt.precision - 1)) fmt.leastExponent
    let significand := roundDiv .toEven (num * 2 ^ (-place).toNat) (den * 2 ^ place.toNat)
    min ((place - fmt.leastExponent).toNat * fmt.binade + significand) fmt.infinity

end BinaryFormat

end Choreo
