import Choreo.Proofs.Number.Decoded

/-! # The order of doubles

Among the doubles that are numbers the order is that of their ranks: the magnitude code, taken
negative below zero. So one of two numbers is at most the other, and a bound on a number bounds its
code. -/

namespace Choreo.Double

open Float.Model Float.Model.UnpackedFloat

/-- A magnitude code with a sign. -/
def signed (negative : Bool) (code : Nat) : Int := if negative then -code else code

/-- The place of a number among all numbers; both zeros have the same. -/
def rank (x : Float) : Int := signed (isNegative x) (code x)

/-! ### Comparison -/

theorem dyadic_lt {c d : Nat} (h : c < d) :
    (BinaryFormat.double.dyadic c).exponent < (BinaryFormat.double.dyadic d).exponent ∨
    (BinaryFormat.double.dyadic c).exponent = (BinaryFormat.double.dyadic d).exponent ∧
      (BinaryFormat.double.dyadic c).significand < (BinaryFormat.double.dyadic d).significand := by
  rcases Nat.lt_or_ge c (2 ^ 52) with hc | hc
  · rw [dyadic_of_lt hc]
    rcases Nat.lt_or_ge d (2 ^ 52) with hd | hd
    · rw [dyadic_of_lt hd]
      exact Or.inr ⟨rfl, h⟩
    · rw [dyadic_of_le hd]
      simp only
      omega
  · rw [dyadic_of_le hc, dyadic_of_le (show 2 ^ 52 ≤ d by omega)]
    simp only
    omega

theorem compare_dyadic (c d : Nat) :
    (compare (BinaryFormat.double.dyadic c).exponent (BinaryFormat.double.dyadic d).exponent).then
      (compare (BinaryFormat.double.dyadic c).significand
        (BinaryFormat.double.dyadic d).significand) = compare (c : Int) d := by
  rcases Nat.lt_trichotomy c d with h | rfl | h
  · rw [Int.compare_eq_lt.mpr (Int.ofNat_lt.mpr h), Ordering.then_eq_lt]
    exact (dyadic_lt h).imp Int.compare_eq_lt.mpr
      fun h1 => ⟨Int.compare_eq_eq.mpr h1.1, Nat.compare_eq_lt.mpr h1.2⟩
  · rw [Int.compare_eq_eq.mpr rfl, Nat.compare_eq_eq.mpr rfl, Int.compare_eq_eq.mpr rfl]
    rfl
  · rw [Int.compare_eq_gt.mpr (Int.ofNat_lt.mpr h), Ordering.then_eq_gt]
    exact (dyadic_lt h).imp Int.compare_eq_gt.mpr
      fun h1 => ⟨Int.compare_eq_eq.mpr h1.1.symm, Nat.compare_eq_gt.mpr h1.2⟩

theorem swap_compare (a b : Int) : (compare a b).swap = compare (-a) (-b) := by
  rcases Int.lt_trichotomy a b with h | rfl | h
  · rw [Int.compare_eq_lt.mpr h, Int.compare_eq_gt.mpr (Int.neg_lt_neg h)]
    rfl
  · rw [Int.compare_eq_eq.mpr rfl, Int.compare_eq_eq.mpr rfl]
    rfl
  · rw [Int.compare_eq_gt.mpr h, Int.compare_eq_lt.mpr (Int.neg_lt_neg h)]
    rfl

/-- **Numbers compare as their signed codes do.** -/
theorem compare_decoded (n m : Bool) {c d : Nat} (hc : c ≤ BinaryFormat.double.infinity)
    (hd : d ≤ BinaryFormat.double.infinity) :
    (decoded n c).compare (decoded m d) = some (compare (signed n c) (signed m d)) := by
  have hinf := infinity_eq
  rcases decoded_cases n hc with ⟨h1, hl⟩ | ⟨_, h1, hl⟩ | ⟨h1, hl⟩ <;>
    rcases decoded_cases m hd with ⟨h2, hr⟩ | ⟨_, h2, hr⟩ | ⟨h2, hr⟩ <;>
    rw [hl, hr] <;> cases n <;> cases m <;>
    simp only [signOf, signed, if_true, if_false, Bool.false_eq_true, UnpackedFloat.compare,
      Option.some.injEq, compare_dyadic, swap_compare]
  -- what is left is decided by the signs, or by a code being the least or the greatest
  all_goals
    symm
    first
    | exact Int.compare_eq_lt.mpr (by omega)
    | exact Int.compare_eq_gt.mpr (by omega)
    | exact Int.compare_eq_eq.mpr (by omega)

/-! ### Numbers -/

theorem isFinite_iff {x : Float} :
    x.isFinite = true ↔ code x < BinaryFormat.double.infinity := by
  change x.toModel.unpack.isFinite = true ↔ _
  rw [unpack_eq]
  rcases Nat.lt_or_ge BinaryFormat.double.infinity (code x) with h | h
  · rw [decoded_of_infinity_lt h]
    exact ⟨nofun, fun h1 => absurd h1 (Nat.lt_asymm h)⟩
  · have hinf := infinity_eq
    rcases decoded_cases (isNegative x) h with ⟨h1, h2⟩ | ⟨_, h1, h2⟩ | ⟨h1, h2⟩ <;> rw [h2]
    · exact ⟨fun _ => by omega, fun _ => rfl⟩
    · exact ⟨fun _ => h1.2, fun _ => rfl⟩
    · exact ⟨nofun, fun h3 => absurd h1 (Nat.ne_of_lt h3)⟩

theorem isNaN_eq_false {x : Float} (h : code x ≤ BinaryFormat.double.infinity) :
    x.isNaN = false := by
  change x.toModel.unpack.isNaN = false
  rw [unpack_eq]
  rcases decoded_cases (isNegative x) h with ⟨-, h2⟩ | ⟨_, -, h2⟩ | ⟨-, h2⟩ <;> rw [h2] <;> rfl

variable {x y : Float}

theorem compare_of_isNaN (h : ¬ (code x ≤ BinaryFormat.double.infinity ∧
    code y ≤ BinaryFormat.double.infinity)) :
    x.toModel.unpack.compare y.toModel.unpack = none := by
  rw [unpack_eq, unpack_eq]
  by_cases hx : BinaryFormat.double.infinity < code x
  · rw [decoded_of_infinity_lt hx]
    rfl
  · rw [decoded_of_infinity_lt (show BinaryFormat.double.infinity < code y by omega)]
    rcases decoded (isNegative x) (code x) with s | _ | _ | _
    · cases s <;> rfl
    · rfl
    · rfl
    · rfl

theorem compare_of_numbers (hx : code x ≤ BinaryFormat.double.infinity)
    (hy : code y ≤ BinaryFormat.double.infinity) :
    x.toModel.unpack.compare y.toModel.unpack = some (compare (rank x) (rank y)) := by
  rw [unpack_eq, unpack_eq, compare_decoded _ _ hx hy]
  rfl

/-- **A number is less than another if its rank is.** -/
theorem lt_iff : x < y ↔ (code x ≤ BinaryFormat.double.infinity ∧
    code y ≤ BinaryFormat.double.infinity) ∧ rank x < rank y := by
  refine Iff.trans (b := x.toModel < y.toModel) decide_eq_true_iff ?_
  change (x.toModel.unpack.compare y.toModel.unpack == some .lt) = true ↔ _
  by_cases h : code x ≤ BinaryFormat.double.infinity ∧ code y ≤ BinaryFormat.double.infinity
  · rw [compare_of_numbers h.1 h.2, beq_iff_eq, Option.some.injEq, Int.compare_eq_lt]
    exact ⟨fun h1 => ⟨h, h1⟩, fun h1 => h1.2⟩
  · rw [compare_of_isNaN h]
    exact ⟨nofun, fun h1 => absurd h1.1 h⟩

/-- **A number is at most another if its rank is.** -/
theorem le_iff : x ≤ y ↔ (code x ≤ BinaryFormat.double.infinity ∧
    code y ≤ BinaryFormat.double.infinity) ∧ rank x ≤ rank y := by
  refine Iff.trans (b := x.toModel ≤ y.toModel) decide_eq_true_iff ?_
  change (x.toModel.unpack.compare y.toModel.unpack).any (·.isLE) = true ↔ _
  by_cases h : code x ≤ BinaryFormat.double.infinity ∧ code y ≤ BinaryFormat.double.infinity
  · rw [compare_of_numbers h.1 h.2, Option.any_some, Int.isLE_compare]
    exact ⟨fun h1 => ⟨h, h1⟩, fun h1 => h1.2⟩
  · rw [compare_of_isNaN h]
    exact ⟨nofun, fun h1 => absurd h1.1 h⟩

theorem lt_of_lt_of_le {z : Float} (h : x < y) (h' : y ≤ z) : x < z := by
  rw [lt_iff] at h ⊢
  rw [le_iff] at h'
  exact ⟨⟨h.1.1, h'.1.2⟩, Int.lt_of_lt_of_le h.2 h'.2⟩

theorem le_of_not_lt (hx : code x ≤ BinaryFormat.double.infinity)
    (hy : code y ≤ BinaryFormat.double.infinity) (h : ¬ x < y) : y ≤ x := by
  rw [lt_iff] at h
  rw [le_iff]
  exact ⟨⟨hy, hx⟩, Int.not_lt.mp fun h1 => h ⟨⟨hx, hy⟩, h1⟩⟩

theorem not_lt_of_le (h : y ≤ x) : ¬ x < y := by
  rw [le_iff] at h
  rw [lt_iff]
  exact fun hlt => absurd hlt.2 (Int.not_lt.mpr h.2)

end Choreo.Double
