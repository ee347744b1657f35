import Choreo.Proofs.Number.Arithmetic

/-! # Sums of doubles

Two finite doubles are added exactly, over the lesser of their exponents, and the sum is rounded
once. For doubles that are not negative the code of the sum is `nearestCode` of the exact one
(`code_add`). -/

namespace Choreo.Double

open Float.Model Float.Model.UnpackedFloat

theorem log2_mul_two_pow {m : ℕ} (hm : m ≠ 0) (k : ℕ) : (m * 2 ^ k).log2 = m.log2 + k := by
  rw [Nat.log2_eq_iff (Nat.mul_ne_zero hm (Nat.two_pow_pos k).ne'), Nat.add_right_comm, pow_add,
    pow_add]
  exact ⟨Nat.mul_le_mul_right _ (Nat.log2_self_le hm),
    Nat.mul_lt_mul_of_pos_right Nat.lt_log2_self (Nat.two_pow_pos k)⟩

/-- **An exact number is rounded once.** -/
theorem toNat_pack_round (s : Sign) {m : ℕ} (hm : 0 < m) (e : ℤ) :
    (UnpackedFloat.pack Format.binary64 (UnpackedFloat.round Format.binary64 s m e)).toNat =
      signedBits s (nearestCode (m * 2 ^ e)) := by
  rw [UnpackedFloat.round, decreaseExponent, targetExponent_total]
  generalize hk : (e - max ((m.log2 : ℤ) + e - 52) (-1074)).toNat = k
  simp only [Nat.shiftLeft_eq]
  have hpos : 0 < m * 2 ^ k := Nat.mul_pos hm (Nat.two_pow_pos _)
  -- with the smaller exponent the significand has enough bits
  have hround := toNat_pack_roundWithAccuracy s hpos Nat.one_pos (represents_exact (m * 2 ^ k))
    (e := e - k) (by rw [log2_mul_two_pow hm.ne']; omega)
  have hvalue : ((m * 2 ^ k : ℕ) : ℚ) / (1 : ℕ) * 2 ^ (e - k) = m * 2 ^ e := by
    rw [zpow_sub₀ two_ne_zero, zpow_natCast]
    push_cast
    field_simp
  rwa [hvalue] at hround

theorem toNat_toBits_add_eq (x y : Float) : (x + y).toBits.toNat = (UnpackedFloat.pack
    Format.binary64 (UnpackedFloat.add Format.binary64 x.toModel.unpack y.toModel.unpack)).toNat :=
  rfl

theorem decreaseExponent_eq (m : ℕ) (e target : ℤ) : decreaseExponent m e target =
    (m * 2 ^ (e - target).toNat, e - ((e - target).toNat : ℤ)) := by
  rw [decreaseExponent, Nat.shiftLeft_eq]

theorem mul_two_zpow_of_le (m : ℕ) {e target : ℤ} (h : target ≤ e) :
    ((m * 2 ^ (e - target).toNat : ℕ) : ℚ) * 2 ^ target = m * 2 ^ e := by
  obtain ⟨k, rfl⟩ := Int.le.dest h
  rw [show (target + k - target).toNat = k by omega, zpow_add₀ two_ne_zero, zpow_natCast]
  push_cast
  ring

/-- The sum of two positive finite numbers is rounded once. -/
theorem toNat_pack_add_finite {m₁ m₂ : ℕ} {e₁ e₂ : ℤ} (p₁ : 0 < m₁) (p₂ : 0 < m₂) :
    (UnpackedFloat.pack Format.binary64 (UnpackedFloat.add Format.binary64
      (.finite .positive m₁ e₁ p₁) (.finite .positive m₂ e₂ p₂))).toNat =
      signedBits .positive (nearestCode (m₁ * 2 ^ e₁ + m₂ * 2 ^ e₂)) := by
  simp only [UnpackedFloat.add, decreaseExponent_eq]
  have h₁ := mul_two_zpow_of_le m₁ (min_le_left e₁ e₂)
  have h₂ := mul_two_zpow_of_le m₂ (min_le_right e₁ e₂)
  generalize hn₁ : m₁ * 2 ^ (e₁ - min e₁ e₂).toNat = n₁ at h₁
  generalize hn₂ : m₂ * 2 ^ (e₂ - min e₁ e₂).toNat = n₂ at h₂
  have hpos : 0 < n₁ + n₂ := by
    rw [← hn₁]
    exact Nat.add_pos_left (Nat.mul_pos p₁ (Nat.two_pow_pos _)) _
  have hsum : Sign.positive.apply (n₁ : ℤ) + Sign.positive.apply (n₂ : ℤ) = ((n₁ + n₂ : ℕ) : ℤ) :=
    rfl
  have hcompare : compare ((n₁ + n₂ : ℕ) : ℤ) 0 = .gt := Int.compare_eq_gt.mpr (by omega)
  rw [hsum, UnpackedFloat.normalize, hcompare]
  simp only [Int.toNat_natCast]
  rw [toNat_pack_round _ hpos, ← h₁, ← h₂, ← add_mul, Nat.cast_add]

theorem toNat_pack_unpack {x : Float} (hx : code x ≤ BinaryFormat.double.infinity) :
    (UnpackedFloat.pack Format.binary64 x.toModel.unpack).toNat = x.toBits.toNat := by
  change (UnpackedFloat.pack Format.binary64 (UnpackedFloat.unpack Format.binary64
    x.toBits.toBitVec)).toNat = _
  rw [pack_unpack, isNaNBits_eq_false hx, if_neg Bool.false_ne_true]
  rfl

theorem toNat_toBits_of_nonneg {x : Float} (h : isNegative x = false) :
    x.toBits.toNat = signedBits .positive (code x) := by
  have hlt : ¬ 2 ^ 63 ≤ x.toBits.toNat := of_decide_eq_false h
  rw [code, signBit, Nat.mod_eq_of_lt (Nat.not_le.mp hlt)]
  exact (Nat.zero_add _).symm

section

variable {x y : Float} (hx : code x < BinaryFormat.double.infinity)
  (hy : code y < BinaryFormat.double.infinity) (hxn : isNegative x = false)
  (hyn : isNegative y = false)
include hx hy hxn hyn

theorem toNat_toBits_add : (x + y).toBits.toNat =
    signedBits .positive (nearestCode (codeValue (code x) + codeValue (code y))) := by
  rw [toNat_toBits_add_eq]
  rcases decoded_of_finite (isNegative x) hx with ⟨h1, hd1⟩ | ⟨m₁, e₁, p₁, hd1, hv1, -, -⟩ <;>
    rcases decoded_of_finite (isNegative y) hy with ⟨h2, hd2⟩ | ⟨m₂, e₂, p₂, hd2, hv2, -, -⟩
  · rw [unpack_eq, unpack_eq, hd1, hd2, hxn, hyn, h1, h2, codeValue_zero, add_zero]
    exact toNat_pack_zero _
  · have hsum : UnpackedFloat.add Format.binary64 x.toModel.unpack y.toModel.unpack =
        y.toModel.unpack := by
      rw [unpack_eq, unpack_eq, hd1, hd2]
      rfl
    rw [hsum, toNat_pack_unpack hy.le, toNat_toBits_of_nonneg hyn, h1, codeValue_zero, zero_add,
      nearestCode_codeValue hy]
  · have hsum : UnpackedFloat.add Format.binary64 x.toModel.unpack y.toModel.unpack =
        x.toModel.unpack := by
      rw [unpack_eq, unpack_eq, hd1, hd2]
      rfl
    rw [hsum, toNat_pack_unpack hx.le, toNat_toBits_of_nonneg hxn, h2, codeValue_zero, add_zero,
      nearestCode_codeValue hx]
  · rw [unpack_eq, unpack_eq, hd1, hd2, hxn, hyn, hv1, hv2]
    exact toNat_pack_add_finite p₁ p₂

/-- **A sum of numbers that are not negative is the exact sum rounded once.** -/
theorem code_add : code (x + y) = nearestCode (codeValue (code x) + codeValue (code y)) ∧
    isNegative (x + y) = false :=
  code_of_signedBits (nearestCode_le_infinity _) (toNat_toBits_add hx hy hxn hyn)

end

end Choreo.Double
