import Choreo.Proofs.Number.Accuracy
import Choreo.Proofs.Number.Sign
import Choreo.Proofs.Number.Sums

/-! # Calculations that keep the order

On doubles from zero on, minus zero among them, multiplying by a factor, dividing by a divisor and
adding keep the order, as each is an exact calculation rounded once. What is finite in the end was
finite all the way.

Adding the rest to a number of whole units is different, since the units are rounded before: it
keeps the order because a rest below one is lost where the units are rounded
(`nearestCode_add_of_two_mul_lt`), and elsewhere does not reach the next unit
(`nearestCode_ofNat_add_le`). -/

namespace Choreo.Double

open Float.Model Float.Model.UnpackedFloat

variable {x y z : Float}

/-! ### From zero on -/

theorem zero_le_iff : 0.0 ≤ x ↔
    code x ≤ BinaryFormat.double.infinity ∧ (isNegative x = false ∨ code x = 0) := by
  have hzero : code 0.0 ≤ BinaryFormat.double.infinity := by decide +kernel
  rw [le_iff, rank_zero, and_iff_right hzero, rank, signed]
  refine and_congr_right fun _ => ?_
  cases isNegative x
  · simp
  · simp only [if_true, Bool.true_eq_false, false_or]
    omega

theorem code_le_of_le (h0 : 0.0 ≤ x) (h : x ≤ y) : code x ≤ code y := by
  obtain ⟨-, hsign⟩ := zero_le_iff.mp h0
  obtain ⟨-, hrank⟩ := le_iff.mp h
  rw [rank, rank, signed, signed] at hrank
  rcases hsign with hsign | hsign
  · rw [hsign, if_neg Bool.false_ne_true] at hrank
    split_ifs at hrank <;> omega
  · omega

section

variable (hx : code x < BinaryFormat.double.infinity) (hy : code y < BinaryFormat.double.infinity)
  (h0 : 0.0 ≤ x) (hn : isNegative y = false)
include hx hy h0 hn

theorem zero_le_mul : 0.0 ≤ x * y := by
  obtain ⟨hcode, hsign⟩ := code_mul hx hy
  refine zero_le_iff.mpr ⟨hcode ▸ nearestCode_le_infinity _, ?_⟩
  rcases (zero_le_iff.mp h0).2 with h | h
  · exact Or.inl (by rw [hsign, h, hn]; rfl)
  · exact Or.inr (by rw [hcode, h, codeValue_zero, zero_mul, nearestCode_zero])

theorem zero_le_div (hy0 : code y ≠ 0) : 0.0 ≤ x / y := by
  obtain ⟨hcode, hsign⟩ := code_div hx hy hy0
  refine zero_le_iff.mpr ⟨hcode ▸ nearestCode_le_infinity _, ?_⟩
  rcases (zero_le_iff.mp h0).2 with h | h
  · exact Or.inl (by rw [hsign, h, hn]; rfl)
  · exact Or.inr (by rw [hcode, h, codeValue_zero, zero_div, nearestCode_zero])

end

/-! ### Infinite numbers -/

theorem isFinite_eq (x : Float) : x.isFinite = x.toModel.unpack.isFinite := rfl

/-- What is packed from an infinite number, or from what is no number, is not finite. -/
theorem isFinite_of_pack {u : UnpackedFloat}
    (hz : z.toBits.toNat = (UnpackedFloat.pack Format.binary64 u).toNat) (h : z.isFinite = true) :
    u.isFinite = true := by
  have hcode := isFinite_iff.mp h
  rw [code, hz] at hcode
  cases u with
  | zero s => rfl
  | finite s m e pos => rfl
  | infinity s =>
    revert hcode
    cases s <;> decide +kernel
  | notANumber =>
    revert hcode
    decide +kernel

/-- **A product is finite only if its factors are.** -/
theorem isFinite_of_mul (h : (x * y).isFinite = true) : x.isFinite = true := by
  have hmul := isFinite_of_pack (toNat_toBits_mul_eq x y) h
  rw [isFinite_eq]
  revert hmul
  cases x.toModel.unpack <;> cases y.toModel.unpack <;>
    simp [UnpackedFloat.mul, UnpackedFloat.isFinite]

/-- **A quotient is finite only if the dividend is.** -/
theorem isFinite_of_div (h : (x / y).isFinite = true) : x.isFinite = true := by
  have hdiv := isFinite_of_pack (toNat_toBits_div_eq x y) h
  rw [isFinite_eq]
  revert hdiv
  cases x.toModel.unpack <;> cases y.toModel.unpack <;>
    simp [UnpackedFloat.div, UnpackedFloat.isFinite]

theorem code_div_zero (hx : code x < BinaryFormat.double.infinity) (hxn : isNegative x = false)
    (h0 : code x ≠ 0) :
    code (x / 0.0) = BinaryFormat.double.infinity ∧ isNegative (x / 0.0) = false := by
  have hzero : (0.0 : Float).toModel.unpack = .zero .positive := by
    rw [unpack_eq, show code 0.0 = 0 by decide +kernel, decoded_zero,
      show isNegative 0.0 = false by decide +kernel]
    rfl
  refine code_of_signedBits le_rfl ?_
  rw [toNat_toBits_div_eq, hzero, unpack_eq, hxn, decoded_of_lt_infinity h0 hx]
  simp only [UnpackedFloat.div]
  decide +kernel

/-! ### Sums -/

/-- **Greater summands give no lesser sum.** -/
theorem code_add_le {x' y' : Float} (hx : code x < BinaryFormat.double.infinity)
    (hy : code y < BinaryFormat.double.infinity) (hxn : isNegative x = false)
    (hyn : isNegative y = false) (hx' : code x' < BinaryFormat.double.infinity)
    (hy' : code y' < BinaryFormat.double.infinity) (hxn' : isNegative x' = false)
    (hyn' : isNegative y' = false) (h : code x ≤ code x') (h' : code y ≤ code y') :
    code (x + y) ≤ code (x' + y') := by
  rw [(code_add hx hy hxn hyn).1, (code_add hx' hy' hxn' hyn').1]
  exact nearestCode_mono (add_nonneg (codeValue_nonneg _) (codeValue_nonneg _))
    (add_le_add (codeValue_le hx hx' h) (codeValue_le hy hy' h'))

/-- A fraction of less than half a unit is lost above a significand that has all its bits. -/
theorem nearestCode_of_fraction {m : ℕ} {e : ℤ} (hm : 0 < m) (hlt : m < 2 ^ 53) (he : -1074 ≤ e)
    (hlast : e = -1074 ∨ 2 ^ 52 ≤ m) {num den : ℕ} (hless : 2 * num < den)
    (hc : (e + 1074).toNat * 2 ^ 52 + m < BinaryFormat.double.infinity) :
    nearestCode ((m * den + num : ℕ) / den * 2 ^ e) = (e + 1074).toNat * 2 ^ 52 + m := by
  have hden : 0 < den := by omega
  have hden' : 0 < den * 2 ^ (-e).toNat := Nat.mul_pos hden (Nat.two_pow_pos _)
  have hnum : 0 < m * den + num := Nat.add_pos_left (Nat.mul_pos hm hden) _
  have hdiv : (m * den + num) / den = m := by
    rw [Nat.mul_comm, Nat.mul_add_div hden, Nat.div_eq_of_lt (by omega), Nat.add_zero]
  have hmod : (m * den + num) % den = num := by
    rw [Nat.mul_comm, Nat.mul_add_mod, Nat.mod_eq_of_lt (by omega)]
  have hlog : max ((m.log2 : ℤ) + e - 52) (-1074) = e := by
    have hhigh : m.log2 < 53 := (Nat.log2_lt hm.ne').mpr hlt
    rcases hlast with rfl | hlast
    · omega
    · have hlow : 52 ≤ m.log2 := (Nat.le_log2 hm.ne').mpr hlast
      omega
  have hplace := place_of_truncated hnum hden hdiv.symm hlog.ge
  rw [hlog] at hplace
  have hsig := significand_of_place (k := 0) hden (hplace.trans (by rw [Nat.cast_zero, add_zero]))
  have hround : roundDiv .toEven (m * den + num) (den * 2 ^ 0) = m := by
    simp only [roundDiv, Nat.pow_zero, Nat.mul_one, hmod, hdiv, Nat.compare_eq_lt.mpr hless]
  rw [← cast_mul_eq, ← nearest_eq_nearestCode _ hden',
    nearest_eq (Nat.mul_pos hnum (Nat.two_pow_pos _)).ne', hsig, hplace, hround]
  exact min_eq_left hc.le

/-- **Less than half a unit of the last place is lost** when it is added to a finite number. -/
theorem nearestCode_add_of_two_mul_lt {c : ℕ} (h0 : c ≠ 0) (hc : c < BinaryFormat.double.infinity)
    {q : ℚ} (hq : 0 ≤ q) (hhalf : 2 * q < 2 ^ (BinaryFormat.double.dyadic c).exponent) :
    nearestCode (codeValue c + q) = c := by
  obtain ⟨m, e, hd, hm, hlt, he, -, hlast, hcode⟩ := dyadic_bounds h0 hc
  rw [hd] at hhalf
  have hunit : (0 : ℚ) < 2 ^ e := zpow_pos two_pos _
  obtain ⟨num, den, hden, hfraction⟩ := exists_eq_div (div_nonneg hq hunit.le)
  have hden0 : (0 : ℚ) < den := Nat.cast_pos.mpr hden
  have hless : 2 * num < den := by
    have hlt1 : 2 * (q / 2 ^ e) < 1 := by rwa [mul_div_assoc', div_lt_one hunit]
    rw [hfraction, mul_div_assoc', div_lt_one hden0] at hlt1
    exact_mod_cast hlt1
  have hvalue : codeValue c + q = (m * den + num : ℕ) / den * 2 ^ e := by
    rw [codeValue, hd, Dyadic.value, (div_eq_iff hunit.ne').mp hfraction]
    push_cast
    field_simp
  rw [hvalue, nearestCode_of_fraction hm hlt he hlast hless (hcode ▸ hc), hcode]

/-! ### Natural numbers -/

theorem code_ofNat (n : ℕ) : code (ofNat n) = nearestCode n := by
  rw [ofNat, nearest, code_ofCode _ (nearest_le_infinity _ _), nearest_eq_nearestCode n one_pos,
    Nat.cast_one, div_one]

theorem code_ofNat_le {n m : ℕ} (h : n ≤ m) : code (ofNat n) ≤ code (ofNat m) := by
  rw [code_ofNat, code_ofNat]
  exact nearestCode_mono (Nat.cast_nonneg _) (Nat.cast_le.mpr h)

/-- **Natural numbers up to `2 ^ 53` are doubles.** -/
theorem codeValue_ofNat {n : ℕ} (h : n ≤ 2 ^ 53) : codeValue (code (ofNat n)) = n := by
  rcases Nat.eq_zero_or_pos n with rfl | h0
  · exact codeValue_zero
  obtain ⟨k, hk, hlow, hhigh⟩ : ∃ k ≤ 52, 2 ^ 52 ≤ n * 2 ^ k ∧ n * 2 ^ k ≤ 2 ^ 53 := by
    have hself := Nat.log2_self_le h0.ne'
    have hlt : n < 2 ^ (n.log2 + 1) := Nat.lt_log2_self
    rcases Nat.lt_or_ge n (2 ^ 53) with hn | hn
    · have hlog : n.log2 < 53 := (Nat.log2_lt h0.ne').mpr hn
      refine ⟨52 - n.log2, by omega, ?_, ?_⟩
      · calc 2 ^ 52 = 2 ^ n.log2 * 2 ^ (52 - n.log2) := by rw [← pow_add]; congr 1; omega
          _ ≤ n * 2 ^ (52 - n.log2) := Nat.mul_le_mul_right _ hself
      · calc n * 2 ^ (52 - n.log2) ≤ 2 ^ (n.log2 + 1) * 2 ^ (52 - n.log2) :=
            Nat.mul_le_mul_right _ hlt.le
          _ = 2 ^ 53 := by rw [← pow_add]; congr 1; omega
    · exact ⟨0, by omega, by omega, by omega⟩
  have hinf := infinity_eq
  have hvalue := codeValue_of_significand hlow hhigh (e := -k) (by omega)
  have hexact : ((n * 2 ^ k : ℕ) : ℚ) * 2 ^ (-(k : ℤ)) = n := by
    rw [zpow_neg, zpow_natCast]
    push_cast
    field_simp
  rw [hexact] at hvalue
  rw [code_ofNat, ← hvalue, nearestCode_codeValue (by omega)]

/-- From `2 ^ 53` on a unit of the last place is two at least. -/
theorem one_le_exponent {c : ℕ} (hc : c < BinaryFormat.double.infinity) (h : 2 ^ 53 ≤ codeValue c) :
    1 ≤ (BinaryFormat.double.dyadic c).exponent := by
  have h0 : c ≠ 0 := by
    rintro rfl
    norm_num at h
  obtain ⟨m, e, hd, -, hlt, -⟩ := dyadic_bounds h0 hc
  rw [codeValue, hd, Dyadic.value] at h
  rw [hd]
  by_contra hneg
  have hunit : (2 : ℚ) ^ e ≤ 1 :=
    zpow_le_one_of_nonpos₀ one_le_two (Int.lt_add_one_iff.mp (not_le.mp hneg))
  have hm : (m : ℚ) < 2 ^ 53 := by exact_mod_cast hlt
  have hle : (m : ℚ) * 2 ^ e ≤ m * 1 := mul_le_mul_of_nonneg_left hunit (Nat.cast_nonneg _)
  linarith

/-- **A part of a unit does not reach beyond the next one**, also where the units are rounded. -/
theorem nearestCode_ofNat_add_le {n m : ℕ} (h : n < m) {q : ℚ} (hq : 0 ≤ q) (hq1 : q < 1)
    (hm : code (ofNat m) < BinaryFormat.double.infinity) :
    nearestCode (codeValue (code (ofNat n)) + q) ≤ code (ofNat m) := by
  have hn : code (ofNat n) < BinaryFormat.double.infinity := (code_ofNat_le h.le).trans_lt hm
  rcases Nat.lt_or_ge n (2 ^ 53) with hsmall | hlarge
  · have hnext : (n : ℚ) + q ≤ m := by
      have : (n : ℚ) + 1 ≤ m := by exact_mod_cast h
      linarith
    rw [codeValue_ofNat hsmall.le, code_ofNat m]
    exact nearestCode_mono (add_nonneg (Nat.cast_nonneg _) hq) hnext
  · have hvalue : (2 : ℚ) ^ 53 ≤ codeValue (code (ofNat n)) := by
      have hpow : code (ofNat (2 ^ 53)) ≤ code (ofNat n) := code_ofNat_le hlarge
      have hle := codeValue_le (hpow.trans_lt hn) hn hpow
      rw [codeValue_ofNat le_rfl] at hle
      exact_mod_cast hle
    have hunit : (2 : ℚ) ^ (1 : ℤ) ≤ 2 ^ (BinaryFormat.double.dyadic (code (ofNat n))).exponent :=
      zpow_le_zpow_right₀ one_le_two (one_le_exponent hn hvalue)
    have h0 : code (ofNat n) ≠ 0 := by
      intro hzero
      rw [hzero, codeValue_zero] at hvalue
      norm_num at hvalue
    rw [nearestCode_add_of_two_mul_lt h0 hn hq (by rw [zpow_one] at hunit; linarith)]
    exact code_ofNat_le h.le

end Choreo.Double
