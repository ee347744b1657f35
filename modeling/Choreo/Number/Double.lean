import Choreo.Number.Binary

/-!
# Doubles by their bits

Sign, magnitude code and exact value of a double, and the conversions that are defined by exact
arithmetic on that value: to an integer, to a single, and back from a quotient.
-/

namespace Choreo.Double

/-- The bit that holds the sign. -/
def signBit : Nat := 2 ^ 63

/-- Whether the sign bit is set; minus zero is negative in this sense. -/
def isNegative (x : Float) : Bool := signBit ≤ x.toBits.toNat

/-- The place of the magnitude of `x` among all magnitudes. -/
def code (x : Float) : Nat := x.toBits.toNat % signBit

/-- The double with the given sign and magnitude code. -/
def ofCode (negative : Bool) (code : Nat) : Float :=
  Float.ofBits (UInt64.ofNat (if negative then signBit + code else code))

/-- A double is determined by its bits. -/
theorem eq_of_toBits {x y : Float} (h : x.toBits = y.toBits) : x = y := by
  rcases x with ⟨⟨a, ha⟩⟩
  rcases y with ⟨⟨b, hb⟩⟩
  obtain rfl : a = b := h
  rfl

/-- Two doubles are equal when their bits are, so minus zero differs from zero. -/
instance decEq : DecidableEq Float := fun x y =>
  decidable_of_iff (x.toBits = y.toBits) ⟨eq_of_toBits, fun h => h ▸ rfl⟩

/-- The exact magnitude of a finite double. -/
def magnitude (x : Float) : Dyadic := BinaryFormat.double.dyadic (code x)

/-- The double nearest to a quotient. -/
def nearest (negative : Bool) (num den : Nat) : Float :=
  ofCode negative (BinaryFormat.double.nearest num den)

/-- The double nearest to a natural number. -/
def ofNat (n : Nat) : Float := nearest false n 1

/-- The double nearest to an integer. -/
def ofInt (n : Int) : Float := nearest (n < 0) n.natAbs 1

/-- The nearest integer, as a double; a half goes away from zero. -/
def roundAway (x : Float) : Float :=
  if x.isFinite then
    let m := magnitude x
    nearest (isNegative x) (roundDiv .up m.num m.den) 1
  else x

/-- The least natural number not below `x`, at most `top`; zero for what is no number. -/
def ceilUpTo (top : Nat) (x : Float) : Nat :=
  if x.isNaN || isNegative x then 0
  else if x.isFinite then min (ceilDiv (magnitude x).num (magnitude x).den) top
  else top

/-- The single nearest to a double. -/
def toSingle (x : Float) : Float32 :=
  if x.isNaN then 0.0 / 0.0
  else
    let m := magnitude x
    let c := if x.isFinite then BinaryFormat.single.nearest m.num m.den
      else BinaryFormat.single.infinity
    Float32.ofBits (UInt32.ofNat (if isNegative x then 2 ^ 31 + c else c))

end Choreo.Double

namespace Choreo.Single

/-- Whether the sign bit is set. -/
def isNegative (x : Float32) : Bool := 2 ^ 31 ≤ x.toBits.toNat

/-- The place of the magnitude of `x` among all magnitudes. -/
def code (x : Float32) : Nat := x.toBits.toNat % 2 ^ 31

end Choreo.Single
