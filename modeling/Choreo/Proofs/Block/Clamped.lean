import Choreo.Proofs.Block.Checked
import Choreo.Proofs.Number.Truncated

/-! # Clamping

Clamping rounds a count, half away from zero, and then holds the number between the bounds of the
parameter. Both steps keep the order of numbers (`Double.roundAway_mono`, `Param.rank_held`), so
clamping does (`Param.clamp?_mono`). A clamped value is not changed by clamping it again
(`Param.clamp?_clamp?`). -/

namespace Choreo

namespace Double

variable {x y : Float}

/-! ### Rounding -/

theorem magnitude_le (hx : code x < BinaryFormat.double.infinity)
    (hy : code y < BinaryFormat.double.infinity) (h : code x ≤ code y) :
    (magnitude x).num * (magnitude y).den ≤ (magnitude y).num * (magnitude x).den := by
  have hvalue := codeValue_le hx hy h
  rw [codeValue, codeValue, Dyadic.value_eq, Dyadic.value_eq,
    div_le_div_iff₀ (Nat.cast_pos.mpr (Dyadic.den_pos _)) (Nat.cast_pos.mpr (Dyadic.den_pos _))]
    at hvalue
  exact_mod_cast hvalue

/-- The magnitude of a number after rounding. -/
def roundedCode (x : Float) : Nat :=
  BinaryFormat.double.nearest (roundDiv .up (magnitude x).num (magnitude x).den) 1

theorem rank_roundAway (hx : x.isFinite = true) :
    rank (roundAway x) = signed (isNegative x) (roundedCode x) := by
  have hle := nearest_le_infinity (roundDiv .up (magnitude x).num (magnitude x).den) 1
  rw [roundAway, if_pos hx, rank]
  simp only [nearest]
  rw [isNegative_ofCode _ hle, code_ofCode _ hle]
  rfl

theorem roundedCode_mono (hx : x.isFinite = true) (hy : y.isFinite = true)
    (h : code x ≤ code y) : roundedCode x ≤ roundedCode y := by
  have hle := magnitude_le (isFinite_iff.mp hx) (isFinite_iff.mp hy) h
  have hround := roundDiv_mono .up (Dyadic.den_pos _) (Dyadic.den_pos _) hle
  exact nearest_mono Nat.one_pos Nat.one_pos (by omega)

theorem roundedCode_zero (h : code x = 0) : roundedCode x = 0 := by
  rw [roundedCode, magnitude, h]
  decide +kernel

/-- **Rounding keeps the order.** Halves go away from zero on both sides of it. -/
theorem roundAway_mono (hx : x.isFinite = true) (hy : y.isFinite = true) (h : x ≤ y) :
    roundAway x ≤ roundAway y := by
  refine le_iff.mpr ⟨⟨code_roundAway_le hx, code_roundAway_le hy⟩, ?_⟩
  rw [rank_roundAway hx, rank_roundAway hy]
  have hrank := (le_iff.mp h).2
  rw [rank, rank] at hrank
  cases hnx : isNegative x <;> cases hny : isNegative y <;>
    simp only [hnx, hny, signed, Bool.false_eq_true, if_true, if_false] at hrank ⊢
  · have := roundedCode_mono hx hy (by omega)
    omega
  · -- a number that is not negative is below a negative one only if both are zero
    rw [roundedCode_zero (x := x) (by omega), roundedCode_zero (x := y) (by omega)]
    rfl
  · omega
  · have := roundedCode_mono hy hx (by omega)
    omega

end Double

namespace Param

open Double (code rank)

variable {p : Param} {x y : Float}

/-! ### Bounds -/

/-- The number held between the bounds of the parameter. -/
def held (p : Param) (x : Float) : Float :=
  if x < p.low then p.low else if p.high < x then p.high else x

/-- What is clamped: the number, rounded if it is a count. -/
def counted (p : Param) (x : Float) : Float := if p.isWhole then Double.roundAway x else x

theorem clamp?_eq_held (p : Param) (h : x.isFinite = true) :
    p.clamp? x = some (p.held (p.counted x)) := if_pos h

theorem rank_low_le_high (p : Param) : rank p.low ≤ rank p.high := by
  cases p <;> decide

theorem rank_held (h : code x ≤ BinaryFormat.double.infinity) :
    rank (p.held x) = max (rank p.low) (min (rank p.high) (rank x)) := by
  have hbounds := p.rank_low_le_high
  rw [held]
  split_ifs with hl hh
  · have hl := (Double.lt_iff.mp hl).2
    omega
  · have hh := (Double.lt_iff.mp hh).2
    omega
  · have hl := (Double.le_iff.mp (Double.le_of_not_lt h p.code_low_le hl)).2
    have hh := (Double.le_iff.mp (Double.le_of_not_lt p.code_high_lt.le h hh)).2
    omega

theorem code_counted_le (h : x.isFinite = true) :
    code (p.counted x) ≤ BinaryFormat.double.infinity := by
  rw [counted]
  split_ifs
  · exact Double.code_roundAway_le h
  · exact (Double.isFinite_iff.mp h).le

theorem counted_mono (hx : x.isFinite = true) (hy : y.isFinite = true) (h : x ≤ y) :
    p.counted x ≤ p.counted y := by
  rw [counted, counted]
  split_ifs
  · exact Double.roundAway_mono hx hy h
  · exact h

/-- **Clamping keeps the order** of finite numbers. -/
theorem clamp?_mono (hx : x.isFinite = true) (hy : y.isFinite = true) (h : x ≤ y) :
    ∃ x' y', p.clamp? x = some x' ∧ p.clamp? y = some y' ∧ x' ≤ y' := by
  refine ⟨_, _, clamp?_eq_held p hx, clamp?_eq_held p hy, Double.le_iff.mpr ⟨⟨?_, ?_⟩, ?_⟩⟩
  · exact (Double.isFinite_iff.mp (clamp?_admits (clamp?_eq_held p hx)).1).le
  · exact (Double.isFinite_iff.mp (clamp?_admits (clamp?_eq_held p hy)).1).le
  · have hrank := (Double.le_iff.mp (counted_mono (p := p) hx hy h)).2
    rw [rank_held (code_counted_le hx), rank_held (code_counted_le hy)]
    omega

/-- **Clamping twice is clamping once.** -/
theorem clamp?_clamp? (h : p.clamp? x = some y) : p.clamp? y = some y :=
  (clamp?_admits h).clamp?_eq

end Param

end Choreo
