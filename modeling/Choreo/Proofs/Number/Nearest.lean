import Choreo.Proofs.Number.Rounded

/-! # The nearest double as a function of the quotient

Rounding a quotient depends on its value only, not on how it is written, and greater quotients are
not rounded to less. So the nearest code is a function `Double.nearestCode` of a rational number, it
is monotone (`nearestCode_mono`), and it takes the exact value of a finite code back to the code
(`nearestCode_codeValue`). -/

namespace Choreo

/-! ### Rounding -/

theorem roundDiv_mul_right (tie : Tie) (num den : ℕ) {k : ℕ} (hk : 0 < k) :
    roundDiv tie (num * k) (den * k) = roundDiv tie num den := by
  have hdiv : num * k / (den * k) = num / den := Nat.mul_div_mul_right _ _ hk
  have hmod : num * k % (den * k) = num % den * k := Nat.mul_mod_mul_right ..
  have hcmp : compare (2 * (num % den * k)) (den * k) = compare (2 * (num % den)) den := by
    rw [← Nat.mul_assoc]
    rcases Nat.lt_trichotomy (2 * (num % den)) den with h | h | h
    · rw [Nat.compare_eq_lt.mpr h, Nat.compare_eq_lt.mpr (Nat.mul_lt_mul_of_pos_right h hk)]
    · rw [h, Nat.compare_eq_eq.mpr rfl, Nat.compare_eq_eq.mpr rfl]
    · rw [Nat.compare_eq_gt.mpr h, Nat.compare_eq_gt.mpr (Nat.mul_lt_mul_of_pos_right h hk)]
  simp only [roundDiv, hdiv, hmod, hcmp]

theorem roundDiv_le_succ (tie : Tie) (num den : ℕ) :
    roundDiv tie num den ≤ num / den + 1 := by
  unfold roundDiv
  simp only
  split <;> omega

theorem roundDiv_mono_left (tie : Tie) {num num' : ℕ} (den : ℕ) (h : num ≤ num') :
    roundDiv tie num den ≤ roundDiv tie num' den := by
  rcases Nat.lt_or_eq_of_le (Nat.div_le_div_right (c := den) h) with hlt | heq
  · calc roundDiv tie num den ≤ num / den + 1 := roundDiv_le_succ _ _ _
      _ ≤ num' / den := hlt
      _ ≤ roundDiv tie num' den := div_le_roundDiv _ _ _
  · -- with the same floor, the remainders decide
    have hmod : num % den ≤ num' % den := by
      have h1 := Nat.div_add_mod num den
      have h2 := Nat.div_add_mod num' den
      rw [heq] at h1
      omega
    simp only [roundDiv, heq]
    rcases lt_trichotomy (2 * (num % den)) den with h1 | h1 | h1 <;>
      rcases lt_trichotomy (2 * (num' % den)) den with h2 | h2 | h2 <;>
      cases tie <;>
      simp only [Nat.compare_eq_lt.mpr, Nat.compare_eq_eq.mpr, Nat.compare_eq_gt.mpr, h1, h2] <;>
      omega

/-- **A greater quotient is not rounded to less.** -/
theorem roundDiv_mono (tie : Tie) {a b c d : ℕ} (hb : 0 < b) (hd : 0 < d) (h : a * d ≤ c * b) :
    roundDiv tie a b ≤ roundDiv tie c d := by
  rw [← roundDiv_mul_right tie a b hd, ← roundDiv_mul_right tie c d hb, Nat.mul_comm d b]
  exact roundDiv_mono_left tie _ h

/-- **Equal quotients are rounded to the same.** -/
theorem roundDiv_congr (tie : Tie) {a b c d : ℕ} (hb : 0 < b) (hd : 0 < d) (h : a * d = c * b) :
    roundDiv tie a b = roundDiv tie c d :=
  Nat.le_antisymm (roundDiv_mono tie hb hd h.le) (roundDiv_mono tie hd hb h.ge)

/-! ### The leading exponent -/

theorem two_zpow_eq (e : ℤ) : (2 : ℚ) ^ e = (2 ^ e.toNat : ℕ) / (2 ^ (-e).toNat : ℕ) := by
  rcases Int.le_total 0 e with h | h
  · obtain ⟨n, rfl⟩ := Int.eq_ofNat_of_zero_le h
    simp
  · obtain ⟨n, hn⟩ := Int.eq_ofNat_of_zero_le (Int.neg_nonneg_of_nonpos h)
    obtain rfl : e = -n := by omega
    simp

theorem two_zpow_le_div_iff (num : ℕ) {den : ℕ} (hden : 0 < den) (e : ℤ) :
    (2 : ℚ) ^ e ≤ (num : ℚ) / den ↔ den * 2 ^ e.toNat ≤ num * 2 ^ (-e).toNat := by
  have hd : (0 : ℚ) < den := Nat.cast_pos.mpr hden
  have hp : (0 : ℚ) < (2 ^ (-e).toNat : ℕ) := Nat.cast_pos.mpr (Nat.two_pow_pos _)
  rw [two_zpow_eq, div_le_div_iff₀ hp hd, ← Nat.cast_mul, ← Nat.cast_mul, Nat.cast_le,
    Nat.mul_comm]

section

variable {num den : ℕ} (hnum : 0 < num) (hden : 0 < den)
include hnum hden

/-- **The leading exponent is the logarithm of the quotient**, rounded down. -/
theorem leadingExponent_eq_log :
    BinaryFormat.leadingExponent num den = Int.log 2 ((num : ℚ) / den) := by
  have hd : (0 : ℚ) < den := Nat.cast_pos.mpr hden
  have hpos : (0 : ℚ) < num / den := div_pos (Nat.cast_pos.mpr hnum) hd
  have hn2 : (2 : ℚ) ^ num.log2 ≤ num ∧ (num : ℚ) < 2 ^ (num.log2 + 1) :=
    ⟨by exact_mod_cast Nat.log2_self_le hnum.ne', by exact_mod_cast Nat.lt_log2_self⟩
  have hd2 : (2 : ℚ) ^ den.log2 ≤ den ∧ (den : ℚ) < 2 ^ (den.log2 + 1) :=
    ⟨by exact_mod_cast Nat.log2_self_le hden.ne', by exact_mod_cast Nat.lt_log2_self⟩
  have hlow : (2 : ℚ) ^ ((num.log2 : ℤ) - den.log2 - 1) ≤ num / den := by
    rw [le_div_iff₀ hd]
    calc (2 : ℚ) ^ ((num.log2 : ℤ) - den.log2 - 1) * den
        ≤ 2 ^ ((num.log2 : ℤ) - den.log2 - 1) * 2 ^ (den.log2 + 1) := by gcongr; exact hd2.2.le
      _ = 2 ^ num.log2 := by
        rw [← zpow_natCast, ← zpow_natCast, ← zpow_add₀ two_ne_zero]
        congr 1
        push_cast
        ring
      _ ≤ num := hn2.1
  have hhigh : (num : ℚ) / den < 2 ^ ((num.log2 : ℤ) - den.log2 + 1) := by
    rw [div_lt_iff₀ hd]
    calc (num : ℚ) < 2 ^ (num.log2 + 1) := hn2.2
      _ = 2 ^ ((num.log2 : ℤ) - den.log2 + 1) * 2 ^ den.log2 := by
        rw [← zpow_natCast, ← zpow_natCast, ← zpow_add₀ two_ne_zero]
        congr 1
        push_cast
        ring
      _ ≤ 2 ^ ((num.log2 : ℤ) - den.log2 + 1) * den := by gcongr; exact hd2.1
  have hlog : ∀ e : ℤ, (2 : ℚ) ^ e ≤ num / den ↔ e ≤ Int.log 2 ((num : ℚ) / den) := fun e => by
    simpa using Int.zpow_le_iff_le_log Nat.one_lt_two hpos (x := e)
  have hge := (hlog _).mp hlow
  have hlt := mt (hlog _).mpr (not_le.mpr hhigh)
  have hiff := (two_zpow_le_div_iff num hden _).symm.trans (hlog (num.log2 - den.log2))
  simp only [BinaryFormat.leadingExponent]
  split_ifs with h
  · have := hiff.mp h
    omega
  · have := mt hiff.mpr h
    omega

end

theorem log_mul_two_zpow {q : ℚ} (hq : 0 < q) (e : ℤ) :
    Int.log 2 (q * 2 ^ e) = Int.log 2 q + e := by
  have hlog : ∀ {r : ℚ}, 0 < r → ∀ k : ℤ, (2 : ℚ) ^ k ≤ r ↔ k ≤ Int.log 2 r := fun hr k => by
    simpa using Int.zpow_le_iff_le_log Nat.one_lt_two hr (x := k)
  have hiff : ∀ k : ℤ, k ≤ Int.log 2 (q * 2 ^ e) ↔ k - e ≤ Int.log 2 q := fun k => by
    rw [← hlog (mul_pos hq (zpow_pos two_pos _)), ← hlog hq, zpow_sub₀ two_ne_zero,
      div_le_iff₀ (zpow_pos two_pos _)]
  have h1 := (hiff _).mp le_rfl
  have h2 := (hiff (Int.log 2 q + e)).mpr (by omega)
  omega

/-! ### The place of the last bit -/

namespace Double

/-- The place that the last bit of the significand has for a quotient. -/
def place (num den : ℕ) : ℤ := max (BinaryFormat.leadingExponent num den - 52) (-1074)

/-- The significand that a quotient is rounded to, at its place. -/
def significand (num den : ℕ) : ℕ :=
  roundDiv .toEven (num * 2 ^ (-place num den).toNat) (den * 2 ^ (place num den).toNat)

theorem nearest_eq {num : ℕ} (h : num ≠ 0) (den : ℕ) : BinaryFormat.double.nearest num den =
    min ((place num den + 1074).toNat * 2 ^ 52 + significand num den)
      BinaryFormat.double.infinity := by
  rw [BinaryFormat.nearest, if_neg h]
  rfl

theorem neg_le_place (num den : ℕ) : -1074 ≤ place num den := le_max_right _ _

theorem cast_div_eq (num den : ℕ) (e : ℤ) :
    ((num * 2 ^ (-e).toNat : ℕ) : ℚ) / (den * 2 ^ e.toNat : ℕ) = num / den / 2 ^ e := by
  rw [two_zpow_eq, Nat.cast_mul, Nat.cast_mul, div_div_div_eq]

theorem cast_mul_eq (num den : ℕ) (e : ℤ) :
    ((num * 2 ^ e.toNat : ℕ) : ℚ) / (den * 2 ^ (-e).toNat : ℕ) = num / den * 2 ^ e := by
  have h := cast_div_eq num den (-e)
  rwa [neg_neg, zpow_neg, div_inv_eq_mul] at h

section

variable {num den num' den' : ℕ} (hnum : 0 < num) (hden : 0 < den)
include hnum hden

theorem div_lt_two_zpow :
    (num : ℚ) / den < 2 ^ (BinaryFormat.leadingExponent num den + 1) := by
  rw [leadingExponent_eq_log hnum hden]
  simpa using Int.lt_zpow_succ_log_self Nat.one_lt_two ((num : ℚ) / den)

theorem two_zpow_le_div : (2 : ℚ) ^ BinaryFormat.leadingExponent num den ≤ num / den := by
  rw [leadingExponent_eq_log hnum hden]
  have hpos : (0 : ℚ) < num / den := div_pos (Nat.cast_pos.mpr hnum) (Nat.cast_pos.mpr hden)
  simpa using Int.zpow_log_le_self Nat.one_lt_two hpos

theorem significand_le : significand num den ≤ 2 ^ 53 := by
  refine roundDiv_le _ ?_
  have hd : 0 < den * 2 ^ (place num den).toNat := Nat.mul_pos hden (Nat.two_pow_pos _)
  rw [← Nat.cast_lt (α := ℚ), Nat.cast_mul (2 ^ 53), ← div_lt_iff₀ (Nat.cast_pos.mpr hd),
    cast_div_eq, div_lt_iff₀ (zpow_pos two_pos _)]
  refine (div_lt_two_zpow hnum hden).trans_le ?_
  rw [Nat.cast_pow, Nat.cast_ofNat, ← zpow_natCast, ← zpow_add₀ two_ne_zero]
  refine zpow_le_zpow_right₀ one_le_two ?_
  have := le_max_left (BinaryFormat.leadingExponent num den - 52) (-1074)
  unfold place
  push_cast
  omega

theorem le_significand (h : -1074 < place num den) : 2 ^ 52 ≤ significand num den := by
  have hd : 0 < den * 2 ^ (place num den).toNat := Nat.mul_pos hden (Nat.two_pow_pos _)
  refine le_trans ?_ (div_le_roundDiv _ _ _)
  rw [Nat.le_div_iff_mul_le hd, ← Nat.cast_le (α := ℚ), Nat.cast_mul (2 ^ 52),
    ← le_div_iff₀ (Nat.cast_pos.mpr hd), cast_div_eq, le_div_iff₀ (zpow_pos two_pos _)]
  refine le_trans (le_of_eq ?_) (two_zpow_le_div hnum hden)
  rw [Nat.cast_pow, Nat.cast_ofNat, ← zpow_natCast, ← zpow_add₀ two_ne_zero]
  unfold place at h ⊢
  congr 1
  push_cast
  omega

theorem place_mono (hden' : 0 < den') (h : num * den' ≤ num' * den) :
    place num den ≤ place num' den' := by
  have hnum' : 0 < num' := by
    by_contra h0
    obtain rfl : num' = 0 := by omega
    have := Nat.mul_pos hnum hden'
    omega
  have hle : (num : ℚ) / den ≤ num' / den' := by
    rw [div_le_div_iff₀ (Nat.cast_pos.mpr hden) (Nat.cast_pos.mpr hden')]
    exact_mod_cast h
  have hlog := Int.log_mono_right (b := 2)
    (div_pos (Nat.cast_pos.mpr hnum) (Nat.cast_pos.mpr hden)) hle
  rw [← leadingExponent_eq_log hnum hden, ← leadingExponent_eq_log hnum' hden'] at hlog
  unfold place
  omega

end

/-- **A greater quotient has no lesser code.** -/
theorem nearest_mono {num den num' den' : ℕ} (hden : 0 < den) (hden' : 0 < den')
    (h : num * den' ≤ num' * den) :
    BinaryFormat.double.nearest num den ≤ BinaryFormat.double.nearest num' den' := by
  rcases Nat.eq_zero_or_pos num with rfl | hnum
  · exact Nat.zero_le _
  rcases Nat.eq_zero_or_pos num' with rfl | hnum'
  · have := Nat.mul_pos hnum hden'
    omega
  rw [nearest_eq hnum.ne', nearest_eq hnum'.ne']
  refine min_le_min_right _ ?_
  have hplace := neg_le_place num den
  rcases (place_mono hnum hden hden' h).lt_or_eq with hlt | heq
  · have h1 := significand_le hnum hden
    have h2 := le_significand hnum' hden' (hplace.trans_lt hlt)
    omega
  · have hsig : significand num den ≤ significand num' den' := by
      unfold significand
      rw [← heq]
      refine roundDiv_mono _ (Nat.mul_pos hden (Nat.two_pow_pos _))
        (Nat.mul_pos hden' (Nat.two_pow_pos _)) ?_
      calc num * 2 ^ (-place num den).toNat * (den' * 2 ^ (place num den).toNat)
          = num * den' * (2 ^ (-place num den).toNat * 2 ^ (place num den).toNat) := by ring
        _ ≤ num' * den * (2 ^ (-place num den).toNat * 2 ^ (place num den).toNat) :=
          Nat.mul_le_mul_right _ h
        _ = num' * 2 ^ (-place num den).toNat * (den * 2 ^ (place num den).toNat) := by ring
    rw [heq]
    omega

/-! ### Codes of rational numbers -/

theorem exists_eq_div {q : ℚ} (hq : 0 ≤ q) : ∃ num den : ℕ, 0 < den ∧ q = (num : ℚ) / den := by
  have hcast : ((q.num.toNat : ℕ) : ℚ) = q.num := by
    exact_mod_cast congrArg (Int.cast (R := ℚ)) (Int.toNat_of_nonneg (Rat.num_nonneg.mpr hq))
  exact ⟨q.num.toNat, q.den, q.den_pos, by rw [hcast, Rat.num_div_den]⟩

/-- The code nearest to a rational number that is not negative. -/
def nearestCode (q : ℚ) : ℕ := BinaryFormat.double.nearest q.num.toNat q.den

/-- **The nearest code depends on the value of a quotient only.** -/
theorem nearest_eq_nearestCode (num : ℕ) {den : ℕ} (hden : 0 < den) :
    BinaryFormat.double.nearest num den = nearestCode (num / den) := by
  have hd : (den : ℚ) ≠ 0 := Nat.cast_ne_zero.mpr hden.ne'
  have hnum : (((num : ℚ) / den).num.toNat : ℤ) = ((num : ℚ) / den).num :=
    Int.toNat_of_nonneg (Rat.num_nonneg.mpr (by positivity))
  have heq : ((num : ℚ) / den).num.toNat * den = num * ((num : ℚ) / den).den := by
    have h := Rat.num_div_den ((num : ℚ) / den)
    rw [div_eq_div_iff (Nat.cast_ne_zero.mpr (Rat.den_nz _)) hd] at h
    rw [← hnum] at h
    exact_mod_cast h
  exact Nat.le_antisymm (nearest_mono hden (Rat.den_pos _) heq.ge)
    (nearest_mono (Rat.den_pos _) hden heq.le)

theorem nearestCode_mono {q r : ℚ} (hq : 0 ≤ q) (h : q ≤ r) : nearestCode q ≤ nearestCode r := by
  refine nearest_mono (Rat.den_pos _) (Rat.den_pos _) ?_
  have hr := hq.trans h
  rw [Rat.le_iff] at h
  rw [← Int.toNat_of_nonneg (Rat.num_nonneg.mpr hq),
    ← Int.toNat_of_nonneg (Rat.num_nonneg.mpr hr)] at h
  exact_mod_cast h

theorem nearestCode_le_infinity (q : ℚ) : nearestCode q ≤ BinaryFormat.double.infinity :=
  nearest_le_infinity _ _

@[simp] theorem nearestCode_zero : nearestCode 0 = 0 := rfl

end Double

/-! ### Exact values -/

/-- The value of a dyadic number. -/
def Dyadic.value (x : Dyadic) : ℚ := x.significand * 2 ^ x.exponent

theorem Dyadic.value_eq (x : Dyadic) : x.value = (x.num : ℚ) / x.den := by
  rw [value, num, den, two_zpow_eq, Nat.cast_mul, mul_div_assoc]

namespace Double

/-- The exact value of a finite code. -/
def codeValue (c : ℕ) : ℚ := (BinaryFormat.double.dyadic c).value

@[simp] theorem codeValue_zero : codeValue 0 = 0 := by
  rw [codeValue, dyadic_of_lt (by norm_num)]
  simp [Dyadic.value]

theorem codeValue_nonneg (c : ℕ) : 0 ≤ codeValue c :=
  mul_nonneg (Nat.cast_nonneg _) (zpow_nonneg two_pos.le _)

theorem codeValue_pos {c : ℕ} (h : c ≠ 0) : 0 < codeValue c :=
  mul_pos (Nat.cast_pos.mpr (significand_pos h)) (zpow_pos two_pos _)

/-- Significand and exponent of a finite code: the significand has all its bits unless the exponent
is the least. -/
theorem dyadic_bounds {c : ℕ} (h0 : c ≠ 0) (h : c < BinaryFormat.double.infinity) :
    ∃ m e, BinaryFormat.double.dyadic c = ⟨m, e⟩ ∧ 0 < m ∧ m < 2 ^ 53 ∧ -1074 ≤ e ∧ e ≤ 971 ∧
      (e = -1074 ∨ 2 ^ 52 ≤ m) ∧ (e + 1074).toNat * 2 ^ 52 + m = c := by
  have hinf := infinity_eq
  rcases Nat.lt_or_ge c (2 ^ 52) with hlt | hge
  · exact ⟨c, -1074, dyadic_of_lt hlt, by omega⟩
  · exact ⟨_, _, dyadic_of_le hge, by omega⟩

theorem place_dyadic {m : ℕ} {e : ℤ} (h0 : 0 < m) (hlt : m < 2 ^ 53) (he : -1074 ≤ e)
    (h : e = -1074 ∨ 2 ^ 52 ≤ m) : place (Dyadic.mk m e).num (Dyadic.mk m e).den = e := by
  have hnum : 0 < (Dyadic.mk m e).num := Nat.mul_pos h0 (Nat.two_pow_pos _)
  have hlead : BinaryFormat.leadingExponent (Dyadic.mk m e).num (Dyadic.mk m e).den =
      m.log2 + e := by
    rw [leadingExponent_eq_log hnum (Dyadic.den_pos _), ← Dyadic.value_eq]
    change Int.log 2 ((m : ℚ) * 2 ^ e) = _
    rw [log_mul_two_zpow (Nat.cast_pos.mpr h0), Int.log_natCast, Nat.log2_eq_log_two]
  have hhigh : m.log2 < 53 := (Nat.log2_lt h0.ne').mpr hlt
  rw [place, hlead]
  rcases h with rfl | h
  · omega
  · have hlow : 52 ≤ m.log2 := (Nat.le_log2 h0.ne').mpr h
    omega

/-- **A finite code is the one nearest to its value.** -/
theorem nearestCode_codeValue {c : ℕ} (h : c < BinaryFormat.double.infinity) :
    nearestCode (codeValue c) = c := by
  rcases Nat.eq_zero_or_pos c with rfl | h0
  · simp
  obtain ⟨m, e, hd, hm, hlt, he, -, hlast, hc⟩ := dyadic_bounds h0.ne' h
  have hplace := place_dyadic hm hlt he hlast
  have hnum : (Dyadic.mk m e).num ≠ 0 := (Nat.mul_pos hm (Nat.two_pow_pos _)).ne'
  have hsig : significand (Dyadic.mk m e).num (Dyadic.mk m e).den = m := by
    rw [significand, hplace, Dyadic.num, Dyadic.den, Nat.mul_assoc,
      Nat.mul_comm (2 ^ e.toNat) (2 ^ (-e).toNat)]
    exact roundDiv_of_dvd _ _ (Nat.mul_pos (Nat.two_pow_pos _) (Nat.two_pow_pos _))
  rw [codeValue, hd, Dyadic.value_eq, ← nearest_eq_nearestCode _ (Dyadic.den_pos _),
    nearest_eq hnum, hplace, hsig, hc]
  exact min_eq_left h.le

end Double

end Choreo
