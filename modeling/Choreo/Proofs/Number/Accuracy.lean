import Choreo.Proofs.Number.Nearest

/-! # The accuracy of rounding

Away from the ends of the range a rounded number differs from the exact one by at most one part in
`2 ^ 53` (`abs_codeValue_nearestCode_sub_le`). `Near n p q` says that `p` and `q` differ by no more
than `n` such roundings do. It is symmetric, and the counts add up along a calculation: sums of near
numbers are near (`Near.add`), so are quotients (`Near.div`), and rounding counts for one more
(`Near.rounded`). -/

namespace Choreo

/-! ### Half a unit -/

theorem roundDiv_bounds (tie : Tie) (num : ℕ) {den : ℕ} (hden : 0 < den) :
    2 * (roundDiv tie num den * den) ≤ 2 * num + den ∧
      2 * num ≤ 2 * (roundDiv tie num den * den) + den := by
  have hsplit := Nat.div_add_mod' num den
  have hlt := Nat.mod_lt num hden
  have hup : (num / den + 1) * den = num / den * den + den := Nat.succ_mul _ _
  rcases lt_trichotomy (2 * (num % den)) den with h | h | h
  · simp only [roundDiv, Nat.compare_eq_lt.mpr h]
    omega
  · cases tie with
    | up =>
      simp only [roundDiv, Nat.compare_eq_eq.mpr h, hup]
      omega
    | toEven =>
      simp only [roundDiv, Nat.compare_eq_eq.mpr h]
      rcases Nat.mod_two_eq_zero_or_one (num / den) with he | he
      · rw [he, Nat.add_zero]
        omega
      · rw [he, hup]
        omega
  · simp only [roundDiv, Nat.compare_eq_gt.mpr h, hup]
    omega

/-- **A rounded quotient is within half a unit of the exact one.** -/
theorem abs_roundDiv_sub_le (tie : Tie) (num : ℕ) {den : ℕ} (hden : 0 < den) :
    |(roundDiv tie num den : ℚ) - num / den| ≤ 1 / 2 := by
  obtain ⟨hle, hge⟩ := roundDiv_bounds tie num hden
  have hd : (0 : ℚ) < den := Nat.cast_pos.mpr hden
  have hle : 2 * ((roundDiv tie num den : ℚ) * den) ≤ 2 * num + den := by exact_mod_cast hle
  have hge : 2 * (num : ℚ) ≤ 2 * ((roundDiv tie num den : ℚ) * den) + den := by exact_mod_cast hge
  have hdiv : (num : ℚ) / den * den = num := div_mul_cancel₀ _ hd.ne'
  rw [abs_sub_le_iff]
  constructor <;> refine le_of_mul_le_mul_right ?_ hd <;> rw [sub_mul, hdiv] <;> linarith

namespace Double

/-! ### One rounding -/

/-- The value of a code by significand and exponent, also where the significand is one bit too
long. -/
theorem codeValue_of_significand {m : ℕ} {e : ℤ} (hm : 2 ^ 52 ≤ m) (hm' : m ≤ 2 ^ 53)
    (he : -1074 ≤ e) : codeValue ((e + 1074).toNat * 2 ^ 52 + m) = m * 2 ^ e := by
  obtain ⟨k, hk⟩ := Int.eq_ofNat_of_zero_le (show 0 ≤ e + 1074 by omega)
  rw [hk, Int.toNat_natCast, codeValue, dyadic_of_le (by omega), Dyadic.value]
  rcases hm'.lt_or_eq with hlt | rfl
  · rw [show 2 ^ 52 + (k * 2 ^ 52 + m) % 2 ^ 52 = m by omega,
      show (((k * 2 ^ 52 + m) / 2 ^ 52 : ℕ) : ℤ) - 1075 = e by omega]
  · rw [show 2 ^ 52 + (k * 2 ^ 52 + 2 ^ 53) % 2 ^ 52 = 2 ^ 52 by omega,
      show (((k * 2 ^ 52 + 2 ^ 53) / 2 ^ 52 : ℕ) : ℤ) - 1075 = e + 1 by omega,
      zpow_add₀ two_ne_zero]
    norm_num
    ring

/-- What one rounding can add to or take from a number, as a part of the number. -/
def roundoff : ℚ := 2 ^ (-53 : ℤ)

/-- **A rounded number is within one part in `2 ^ 53` of the exact one.** -/
theorem abs_codeValue_nearestCode_sub_le {q : ℚ} {low high : ℤ} (hlow : (2 : ℚ) ^ low ≤ q)
    (hhigh : q ≤ 2 ^ high) (hl : -1021 ≤ low) (hh : high ≤ 1022) :
    nearestCode q < BinaryFormat.double.infinity ∧
      |codeValue (nearestCode q) - q| ≤ roundoff * q := by
  have hq : 0 < q := (zpow_pos two_pos _).trans_le hlow
  obtain ⟨num, den, hden, rfl⟩ := exists_eq_div hq.le
  have hnum : 0 < num := by
    refine Nat.pos_of_ne_zero fun h0 => hq.ne' ?_
    rw [h0, Nat.cast_zero, zero_div]
  rw [← nearest_eq_nearestCode num hden, nearest_eq hnum.ne']
  -- the last bit has its place well within the range
  have h1 := two_zpow_le_div hnum hden
  have h2 := div_lt_two_zpow hnum hden
  generalize hlead : BinaryFormat.leadingExponent num den = lead at h1 h2
  have hlead1 : low < lead + 1 := (zpow_lt_zpow_iff_right₀ one_lt_two).mp (hlow.trans_lt h2)
  have hlead2 : lead ≤ high := (zpow_le_zpow_iff_right₀ one_lt_two).mp (h1.trans hhigh)
  have hplace : place num den = lead - 52 := by rw [place, hlead]; omega
  have hsig := le_significand hnum hden (by omega)
  have hsig' := significand_le hnum hden
  have hinf := infinity_eq
  have hden' : 0 < den * 2 ^ (place num den).toNat := Nat.mul_pos hden (Nat.two_pow_pos _)
  have herror : |(significand num den : ℚ) - num / den / 2 ^ place num den| ≤ 1 / 2 := by
    rw [← cast_div_eq]
    exact abs_roundDiv_sub_le .toEven _ hden'
  have hunit : (0 : ℚ) < 2 ^ place num den := zpow_pos two_pos _
  have hscale := abs_mul ((significand num den : ℚ) - num / den / 2 ^ place num den)
    (2 ^ place num den)
  rw [abs_of_pos hunit, sub_mul, div_mul_cancel₀ _ hunit.ne'] at hscale
  rw [min_eq_left (by omega), codeValue_of_significand hsig hsig' (by omega)]
  refine ⟨by omega, ?_⟩
  calc |(significand num den : ℚ) * 2 ^ place num den - num / den|
      = |(significand num den : ℚ) - num / den / 2 ^ place num den| * 2 ^ place num den := hscale
    _ ≤ 1 / 2 * 2 ^ place num den := mul_le_mul_of_nonneg_right herror hunit.le
    _ = roundoff * 2 ^ lead := by
        rw [hplace, roundoff, ← zpow_add₀ two_ne_zero, show (1 / 2 : ℚ) = 2 ^ (-1 : ℤ) by norm_num,
          ← zpow_add₀ two_ne_zero]
        congr 1
        omega
    _ ≤ roundoff * (num / den) := mul_le_mul_of_nonneg_left h1 (zpow_pos two_pos _).le

/-! ### Several roundings -/

/-- Neither number is less than the other by more than `n` roundings. -/
structure Near (n : ℕ) (p q : ℚ) : Prop where
  left : (1 - roundoff) ^ n * p ≤ q
  right : (1 - roundoff) ^ n * q ≤ p

variable {n m : ℕ} {p q r p' q' : ℚ}

theorem one_sub_roundoff_pos : 0 < 1 - roundoff := by
  norm_num [roundoff]

theorem one_sub_mul_roundoff_le (n : ℕ) : 1 - n * roundoff ≤ (1 - roundoff) ^ n := by
  have h := one_add_mul_le_pow (show -2 ≤ -roundoff by norm_num [roundoff]) n
  rwa [mul_neg, ← sub_eq_add_neg, ← sub_eq_add_neg] at h

theorem Near.refl (p : ℚ) : Near 0 p p := by
  constructor <;> rw [pow_zero, one_mul]

theorem Near.symm (h : Near n p q) : Near n q p := ⟨h.right, h.left⟩

theorem Near.trans (h : Near n p q) (h' : Near m q r) : Near (n + m) p r := by
  have hn := pow_pos one_sub_roundoff_pos n
  have hm := pow_pos one_sub_roundoff_pos m
  constructor
  · calc (1 - roundoff) ^ (n + m) * p = (1 - roundoff) ^ m * ((1 - roundoff) ^ n * p) := by ring
      _ ≤ (1 - roundoff) ^ m * q := mul_le_mul_of_nonneg_left h.left hm.le
      _ ≤ r := h'.left
  · calc (1 - roundoff) ^ (n + m) * r = (1 - roundoff) ^ n * ((1 - roundoff) ^ m * r) := by ring
      _ ≤ (1 - roundoff) ^ n * q := mul_le_mul_of_nonneg_left h'.right hn.le
      _ ≤ p := h.right

theorem Near.mono (h : Near n p q) (hn : n ≤ m) (hp : 0 ≤ p) (hq : 0 ≤ q) : Near m p q := by
  have hpow : (1 - roundoff) ^ m ≤ (1 - roundoff) ^ n :=
    pow_le_pow_of_le_one one_sub_roundoff_pos.le (by norm_num [roundoff]) hn
  exact ⟨(mul_le_mul_of_nonneg_right hpow hp).trans h.left,
    (mul_le_mul_of_nonneg_right hpow hq).trans h.right⟩

theorem Near.add (h : Near n p q) (h' : Near n p' q') : Near n (p + p') (q + q') := by
  constructor <;> rw [mul_add]
  · exact add_le_add h.left h'.left
  · exact add_le_add h.right h'.right

theorem Near.div (h : Near n p q) (h' : Near m p' q') (hp : 0 ≤ p) (hq : 0 ≤ q) (hp' : 0 < p')
    (hq' : 0 < q') : Near (n + m) (p / p') (q / q') := by
  have hn := pow_pos one_sub_roundoff_pos n
  have hm := pow_pos one_sub_roundoff_pos m
  constructor
  · rw [pow_add, ← mul_div_assoc, div_le_div_iff₀ hp' hq']
    calc (1 - roundoff) ^ n * (1 - roundoff) ^ m * p * q'
        = ((1 - roundoff) ^ n * p) * ((1 - roundoff) ^ m * q') := by ring
      _ ≤ q * p' := mul_le_mul h.left h'.right (mul_pos hm hq').le hq
  · rw [pow_add, ← mul_div_assoc, div_le_div_iff₀ hq' hp']
    calc (1 - roundoff) ^ n * (1 - roundoff) ^ m * q * p'
        = ((1 - roundoff) ^ n * q) * ((1 - roundoff) ^ m * p') := by ring
      _ ≤ p * q' := mul_le_mul h.right h'.left (mul_pos hm hp').le hp

/-- The number is zero or far from both ends of the range. -/
def Ordinary (p : ℚ) : Prop := p = 0 ∨ (2 : ℚ) ^ (-200 : ℤ) ≤ p ∧ p ≤ 2 ^ (200 : ℤ)

theorem Ordinary.nonneg (h : Ordinary p) : 0 ≤ p := by
  rcases h with rfl | ⟨h, -⟩
  · exact le_rfl
  · exact (zpow_pos two_pos _).le.trans h

theorem ordinary_div {num den : ℕ} (hnum : num < 2 ^ 100) (hden : 0 < den) (hden' : den < 2 ^ 100) :
    Ordinary (num / den) := by
  have hd : (0 : ℚ) < den := Nat.cast_pos.mpr hden
  have hd1 : (1 : ℚ) ≤ den := by exact_mod_cast hden
  have hd2 : (den : ℚ) ≤ 2 ^ 100 := by exact_mod_cast hden'.le
  rcases Nat.eq_zero_or_pos num with rfl | hpos
  · exact Or.inl (by rw [Nat.cast_zero, zero_div])
  · have hn1 : (1 : ℚ) ≤ num := by exact_mod_cast hpos
    have hn2 : (num : ℚ) ≤ 2 ^ 100 := by exact_mod_cast hnum.le
    refine Or.inr ⟨?_, ?_⟩
    · rw [le_div_iff₀ hd]
      calc (2 : ℚ) ^ (-200 : ℤ) * den ≤ 2 ^ (-200 : ℤ) * 2 ^ 100 := by gcongr
        _ ≤ 1 := by norm_num
        _ ≤ num := hn1
    · rw [div_le_iff₀ hd]
      calc (num : ℚ) ≤ 2 ^ 100 := hn2
        _ ≤ 2 ^ (200 : ℤ) * 1 := by norm_num
        _ ≤ 2 ^ (200 : ℤ) * den := by gcongr

theorem Near.le_two_mul (h : Near n p q) (hn : n ≤ 8) (hp : 0 ≤ p) : p ≤ 2 * q := by
  have hcast : (n : ℚ) ≤ 8 := by exact_mod_cast hn
  have hsum := mul_le_mul_of_nonneg_right hcast (show 0 ≤ roundoff by norm_num [roundoff])
  have hsmall : 8 * roundoff ≤ 1 / 2 := by norm_num [roundoff]
  have hhalf : 1 / 2 ≤ (1 - roundoff) ^ n := by linarith [one_sub_mul_roundoff_le n]
  linarith [mul_le_mul_of_nonneg_right hhalf hp, h.left]

/-- **One rounding more.** What is rounded need only be near to a number of the range. -/
theorem Near.rounded (h : Near n p q) (hn : n ≤ 8) (hp : Ordinary p) (hq : 0 ≤ q) :
    nearestCode q < BinaryFormat.double.infinity ∧ Near (n + 1) p (codeValue (nearestCode q)) := by
  have hpq := h.le_two_mul hn hp.nonneg
  have hqp := h.symm.le_two_mul hn hq
  rcases hp with rfl | ⟨hlow, hhigh⟩
  · -- what is near to zero is zero
    obtain rfl : q = 0 := by linarith
    rw [nearestCode_zero, codeValue_zero]
    exact ⟨by rw [infinity_eq]; norm_num, by constructor <;> rw [mul_zero]⟩
  · have hlow : (2 : ℚ) ^ (-201 : ℤ) ≤ q :=
      calc (2 : ℚ) ^ (-201 : ℤ) = 2 ^ (-200 : ℤ) / 2 := by norm_num
        _ ≤ p / 2 := by gcongr
        _ ≤ q := by linarith
    have hhigh : q ≤ 2 ^ (201 : ℤ) :=
      calc q ≤ 2 * p := hqp
        _ ≤ 2 * 2 ^ (200 : ℤ) := by gcongr
        _ = 2 ^ (201 : ℤ) := by norm_num
    obtain ⟨hfin, herror⟩ := abs_codeValue_nearestCode_sub_le hlow hhigh (by norm_num) (by norm_num)
    obtain ⟨hle, hge⟩ := abs_le.mp herror
    refine ⟨hfin, h.trans ⟨?_, ?_⟩⟩
    · rw [pow_one]
      linarith
    · rw [pow_one]
      have hless : (1 - roundoff) * codeValue (nearestCode q) ≤
          (1 - roundoff) * ((1 + roundoff) * q) :=
        mul_le_mul_of_nonneg_left (by linarith) one_sub_roundoff_pos.le
      have hsquare : 0 ≤ roundoff ^ 2 * q := mul_nonneg (sq_nonneg _) hq
      linarith

/-- After seven roundings a number is within one part in `2 ^ 50` of the exact one. -/
theorem Near.abs_sub_le (h : Near 7 p q) (hp : 0 ≤ p) (hq : 0 ≤ q) : |q - p| ≤ p / 2 ^ 50 := by
  have hpow := one_sub_mul_roundoff_le 7
  have hleft := (mul_le_mul_of_nonneg_right hpow hp).trans h.left
  have hright := (mul_le_mul_of_nonneg_right hpow hq).trans h.right
  norm_num [roundoff] at hleft hright
  rw [abs_le]
  constructor <;> linarith

end Double

end Choreo
