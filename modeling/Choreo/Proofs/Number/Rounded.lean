import Choreo.Proofs.Number.Order

/-! # Rounded numbers

The code nearest to a quotient never lies beyond that of infinity, so what is rounded is a number.
The double of a natural number is at least every power of two that the number reaches. -/

namespace Choreo

theorem div_le_roundDiv (tie : Tie) (num den : Nat) : num / den ≤ roundDiv tie num den := by
  unfold roundDiv
  simp only
  split <;> omega

theorem roundDiv_le (tie : Tie) {num den m : Nat} (h : num < m * den) :
    roundDiv tie num den ≤ m := by
  have hlt : num / den < m := Nat.div_lt_of_lt_mul (by rwa [Nat.mul_comm])
  unfold roundDiv
  simp only
  split <;> omega

theorem leadingExponent_one (n : Nat) (h : n ≠ 0) :
    BinaryFormat.leadingExponent n 1 = n.log2 := by
  have hguess : (n.log2 : Int) - ((1 : Nat).log2 : Int) = n.log2 := by
    rw [show (1 : Nat).log2 = 0 from rfl]
    omega
  have hle := Nat.log2_self_le h
  simp only [BinaryFormat.leadingExponent, hguess, Int.toNat_natCast]
  rw [if_pos]
  rw [Nat.one_mul]
  exact hle.trans (Nat.le_mul_of_pos_right _ (Nat.two_pow_pos _))

namespace Double

theorem nearest_le_infinity (num den : Nat) :
    BinaryFormat.double.nearest num den ≤ BinaryFormat.double.infinity := by
  rw [BinaryFormat.nearest]
  split_ifs
  · exact Nat.zero_le _
  · exact Nat.min_le_right _ _

theorem code_roundAway_le {x : Float} (h : x.isFinite = true) :
    code (roundAway x) ≤ BinaryFormat.double.infinity := by
  rw [roundAway, if_pos h, nearest, code_ofCode _ (nearest_le_infinity _ _)]
  exact nearest_le_infinity _ _

theorem roundAway_eq_ofNat {x : Float} (h : x.isFinite = true)
    (hn : isNegative (roundAway x) = false) : ∃ n, roundAway x = ofNat n := by
  rw [roundAway, if_pos h] at hn ⊢
  rw [nearest, isNegative_ofCode _ (nearest_le_infinity _ _)] at hn
  rw [hn]
  exact ⟨_, rfl⟩

theorem two_pow_le_significand {n : Nat} (h : n ≠ 0) :
    2 ^ 52 ≤ roundDiv .toEven (n * 2 ^ (52 - n.log2)) (1 * 2 ^ (n.log2 - 52)) := by
  have hself := Nat.log2_self_le h
  refine Nat.le_trans ?_ (div_le_roundDiv _ _ _)
  rw [Nat.le_div_iff_mul_le (Nat.mul_pos Nat.one_pos (Nat.two_pow_pos _)), Nat.one_mul, ← pow_add]
  rcases Nat.le_total n.log2 52 with hle | hge
  · calc 2 ^ (52 + (n.log2 - 52)) = 2 ^ n.log2 * 2 ^ (52 - n.log2) := by
          rw [← pow_add]
          congr 1
          omega
      _ ≤ n * 2 ^ (52 - n.log2) := Nat.mul_le_mul_right _ hself
  · rw [show 52 + (n.log2 - 52) = n.log2 by omega, show 52 - n.log2 = 0 by omega]
    omega

theorem le_code_ofNat {n k : Nat} (h : 2 ^ k ≤ n) (hk : k < 1024) :
    (1023 + k) * 2 ^ 52 ≤ code (ofNat n) := by
  have hn : n ≠ 0 := by
    have := Nat.two_pow_pos k
    omega
  have hlog : k ≤ n.log2 := (Nat.le_log2 hn).mpr h
  have hplace : max ((n.log2 : Int) - (BinaryFormat.double.precision - 1))
      BinaryFormat.double.leastExponent = n.log2 - 52 := by
    rw [show (BinaryFormat.double.precision : Int) = 53 from rfl,
      show BinaryFormat.double.leastExponent = -1074 from rfl]
    omega
  have hfirst : ((n.log2 : Int) - 52 - BinaryFormat.double.leastExponent).toNat =
      1022 + n.log2 := by
    rw [show BinaryFormat.double.leastExponent = -1074 from rfl]
    omega
  have hsig := two_pow_le_significand hn
  have hinf := infinity_eq
  rw [ofNat, nearest, code_ofCode _ (nearest_le_infinity _ _), BinaryFormat.nearest, if_neg hn,
    leadingExponent_one n hn]
  simp only [hplace, hfirst]
  rw [show (-((n.log2 : Int) - 52)).toNat = 52 - n.log2 by omega,
    show ((n.log2 : Int) - 52).toNat = n.log2 - 52 by omega,
    show BinaryFormat.double.binade = 2 ^ 52 from rfl]
  omega

/-! ### Bounds on exact values -/

theorem num_lt {c k : ℕ} (h : c < (1023 + k) * 2 ^ 52) :
    (BinaryFormat.double.dyadic c).num < 2 ^ k * (BinaryFormat.double.dyadic c).den := by
  have hlt : ∀ (m : ℕ) (e : ℤ), m < 2 ^ 53 → 53 + e ≤ k →
      (Dyadic.mk m e).num < 2 ^ k * (Dyadic.mk m e).den := by
    intro m e hm he
    calc m * 2 ^ e.toNat < 2 ^ 53 * 2 ^ e.toNat := Nat.mul_lt_mul_of_pos_right hm (Nat.two_pow_pos _)
      _ = 2 ^ (53 + e.toNat) := (pow_add ..).symm
      _ ≤ 2 ^ (k + (-e).toNat) := Nat.pow_le_pow_right two_pos (by omega)
      _ = 2 ^ k * 2 ^ (-e).toNat := pow_add ..
  rcases Nat.lt_or_ge c (2 ^ 52) with hc | hc
  · rw [dyadic_of_lt hc]
    exact hlt _ _ (by omega) (by omega)
  · rw [dyadic_of_le hc]
    exact hlt _ _ (by omega) (by omega)

end Double

end Choreo
