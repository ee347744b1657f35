/-!
# Rounding a quotient of natural numbers

The one rounding step that every conversion between number systems in this library takes: decimals
to binary, binary to decimals, seconds to nanoseconds. `roundDiv` is within half a unit of the exact
quotient, and a tie goes where its first argument says.
-/

-- powers of numbers are the built-in ones, also where those of monoids are known
attribute [instance (high + 1), default_instance (high + 1)] instPowNat

namespace Choreo

/-- Where a quotient goes that lies halfway between two natural numbers. -/
inductive Tie where
  | toEven
  | up
deriving DecidableEq, Repr

/-- The natural number nearest to `num / den`. -/
def roundDiv (tie : Tie) (num den : Nat) : Nat :=
  let floor := num / den
  match compare (2 * (num % den)) den, tie with
  | .lt, _ => floor
  | .gt, _ => floor + 1
  | .eq, .up => floor + 1
  | .eq, .toEven => floor + floor % 2

theorem roundDiv_of_dvd (tie : Tie) (n : Nat) {den : Nat} (h : 0 < den) :
    roundDiv tie (n * den) den = n := by
  have hc : compare 0 den = .lt := Nat.compare_eq_lt.mpr h
  simp [roundDiv, hc, Nat.mul_div_cancel _ h]

/-- The quotient rounded up. -/
def ceilDiv (num den : Nat) : Nat := (num + den - 1) / den

end Choreo
