import Choreo.Number.Decimal
import Choreo.Proofs.Number.Nearest

/-! # Decimals that read back

The code of a decimal is the one nearest to its value (`Decimal.code_eq`), however far its digits
reach: the bounds beyond which no digits are looked at are those of infinity and zero. So the
decimal that is selected for a finite number reads back as that number (`Decimal.code_shortest`):
one from a decimal grid was checked, the exact value is itself, and zeros at the end do not count. -/

namespace Choreo

/-! ### Decimal digits -/

theorem lt_pow_length_decimalDigits (n : ℕ) : n < 10 ^ (decimalDigits n).length :=
  (Nat.length_toDigits_le_iff (by norm_num) Nat.length_toDigits_pos).mp le_rfl

theorem pow_length_decimalDigits_le {n : ℕ} (h : n ≠ 0) :
    10 ^ ((decimalDigits n).length - 1) ≤ n := by
  rcases Nat.eq_zero_or_pos ((decimalDigits n).length - 1) with h0 | h0
  · rw [h0]
    exact Nat.one_le_iff_ne_zero.mpr h
  · by_contra hlt
    have hle := (Nat.length_toDigits_le_iff (n := n) (b := 10) (by norm_num) h0).mpr (by omega)
    have hpos : 0 < (decimalDigits n).length := Nat.length_toDigits_pos
    have hle : (decimalDigits n).length ≤ (decimalDigits n).length - 1 := hle
    omega

/-! ### Values of decimals -/

namespace Decimal

/-- The value of a decimal. -/
def value (d : Decimal) : ℚ := d.digits * 10 ^ d.exponent

theorem value_nonneg (d : Decimal) : 0 ≤ d.value := by
  unfold value
  positivity

theorem value_of_nonneg {n : ℕ} {e : ℤ} (h : 0 ≤ e) :
    value ⟨n, e⟩ = ((n * 10 ^ e.toNat : ℕ) : ℚ) := by
  obtain ⟨k, rfl⟩ := Int.eq_ofNat_of_zero_le h
  simp [value]

theorem value_of_nonpos {n : ℕ} {e : ℤ} (h : e ≤ 0) :
    value ⟨n, e⟩ = (n : ℚ) / (10 ^ (-e).toNat : ℕ) := by
  obtain ⟨k, hk⟩ := Int.eq_ofNat_of_zero_le (Int.neg_nonneg_of_nonpos h)
  obtain rfl : e = -k := by omega
  simp [value, div_eq_mul_inv]

theorem value_eq (d : Decimal) : d.value = (d.num : ℚ) / d.den := by
  obtain ⟨n, e⟩ := d
  rcases Int.le_total 0 e with h | h
  · rw [value_of_nonneg h, num, den, Int.toNat_of_nonpos (by omega : -e ≤ 0)]
    simp
  · rw [value_of_nonpos h, num, den, Int.toNat_of_nonpos h]
    simp

theorem pow_leadingExponent_le {d : Decimal} (h : d.digits ≠ 0) :
    (10 : ℚ) ^ d.leadingExponent ≤ d.value := by
  have hlow := pow_length_decimalDigits_le h
  have hpos : 0 < (decimalDigits d.digits).length := Nat.length_toDigits_pos
  have hexp : d.leadingExponent = ((decimalDigits d.digits).length - 1 : ℕ) + d.exponent := by
    rw [leadingExponent]
    omega
  rw [hexp, zpow_add₀ (by norm_num), value, zpow_natCast]
  refine mul_le_mul_of_nonneg_right ?_ (by positivity)
  exact_mod_cast hlow

theorem value_lt (d : Decimal) : d.value < 10 ^ (d.leadingExponent + 1) := by
  have hhigh := lt_pow_length_decimalDigits d.digits
  have hexp : d.leadingExponent + 1 = ((decimalDigits d.digits).length : ℕ) + d.exponent := by
    rw [leadingExponent]
    omega
  rw [hexp, zpow_add₀ (by norm_num), value, zpow_natCast]
  refine mul_lt_mul_of_pos_right ?_ (by positivity)
  exact_mod_cast hhigh

/-! ### The code of a decimal -/

theorem nearestCode_reach : Double.nearestCode (10 ^ (400 : ℤ)) = BinaryFormat.double.infinity := by
  have hvalue : (10 : ℚ) ^ (400 : ℤ) = ((10 ^ 400 : ℕ) : ℚ) / (1 : ℕ) := by norm_num
  rw [hvalue, ← Double.nearest_eq_nearestCode _ Nat.one_pos]
  decide +kernel

theorem nearestCode_neg_reach : Double.nearestCode (10 ^ (-400 : ℤ)) = 0 := by
  have hvalue : (10 : ℚ) ^ (-400 : ℤ) = ((1 : ℕ) : ℚ) / (10 ^ 400 : ℕ) := by norm_num
  rw [hvalue, ← Double.nearest_eq_nearestCode _ (by positivity)]
  decide +kernel

/-- **The code of a decimal is the one nearest to its value.** -/
theorem code_eq (d : Decimal) : d.code .double = Double.nearestCode d.value := by
  unfold code
  split_ifs with h0 hlarge hsmall
  · rw [value, h0]
    simp
  · refine Nat.le_antisymm ?_ (Double.nearestCode_le_infinity _)
    rw [← nearestCode_reach]
    refine Double.nearestCode_mono (by positivity) (le_trans ?_ (pow_leadingExponent_le h0))
    exact zpow_le_zpow_right₀ (by norm_num) hlarge
  · refine Nat.le_antisymm (Nat.zero_le _) ?_
    rw [← nearestCode_neg_reach]
    refine Double.nearestCode_mono d.value_nonneg (d.value_lt.le.trans ?_)
    exact zpow_le_zpow_right₀ (by norm_num) (Int.add_one_le_of_lt hsmall)
  · rw [value_eq, Double.nearest_eq_nearestCode _ (by unfold den; positivity)]

theorem code_congr {d e : Decimal} (h : d.value = e.value) : d.code .double = e.code .double := by
  rw [code_eq, code_eq, h]

/-! ### The selected decimal -/

theorem value_ofDyadic (x : Dyadic) : (ofDyadic x).value = x.value := by
  obtain ⟨m, e⟩ := x
  unfold ofDyadic
  simp only
  split_ifs with h
  · rw [value_of_nonneg le_rfl, Dyadic.value]
    obtain ⟨k, rfl⟩ := Int.eq_ofNat_of_zero_le h
    simp
  · obtain ⟨k, hk⟩ := Int.eq_ofNat_of_zero_le (by omega : 0 ≤ -e)
    obtain rfl : e = -k := by omega
    rw [value_of_nonpos (by omega), Dyadic.value]
    have hten : (10 : ℚ) ^ k = 5 ^ k * 2 ^ k := by
      rw [← mul_pow]
      norm_num
    simp only [neg_neg, Int.toNat_natCast, zpow_neg, zpow_natCast]
    push_cast
    rw [hten, mul_comm ((5 : ℚ) ^ k), mul_div_mul_right _ _ (by positivity), div_eq_mul_inv]

@[simp] theorem value_stripZeros (fuel : ℕ) (d : Decimal) :
    (stripZeros fuel d).value = d.value := by
  induction fuel generalizing d with
  | zero => rfl
  | succ fuel ih =>
    rw [stripZeros]
    split_ifs with h
    · have hdigits : d.digits = d.digits / 10 * 10 := by omega
      rw [ih, value, value, zpow_add_one₀ (by norm_num)]
      conv_rhs => rw [hdigits]
      push_cast
      ring
    · rfl

theorem code_of_onGrid {tie : Tie} {code num den : ℕ} {exponent : ℤ} {d : Decimal}
    (h : onGrid .double tie code num den exponent = some d) : d.code .double = code := by
  unfold onGrid at h
  simp only at h
  split at h
  · -- both neighbours read back, and the nearer one is one of them
    rename_i hbelow habove
    rw [Option.some.injEq] at h
    subst h
    rw [beq_iff_eq] at hbelow habove
    have hle := roundDiv_le_succ tie (num * 10 ^ (-exponent).toNat) (den * 10 ^ exponent.toNat)
    have hge := div_le_roundDiv tie (num * 10 ^ (-exponent).toNat) (den * 10 ^ exponent.toNat)
    rcases Nat.lt_or_eq_of_le hge with hlt | heq
    · rw [Nat.le_antisymm hle hlt]
      exact habove
    · rw [← heq]
      exact hbelow
  · rename_i hbelow _
    rw [Option.some.injEq] at h
    subst h
    exact beq_iff_eq.mp hbelow
  · rename_i _ habove
    rw [Option.some.injEq] at h
    subst h
    exact beq_iff_eq.mp habove
  · cases h

/-- **The selected decimal reads back** as the finite number that it was selected for. -/
theorem code_shortest (tie : Tie) {c : ℕ} (h : c < BinaryFormat.double.infinity) :
    (shortest .double tie c).code .double = c := by
  unfold shortest
  simp only
  split_ifs with h0
  · by_contra hc
    have hpos := @Double.significand_pos c (by rintro rfl; exact hc rfl)
    omega
  · rw [code_congr (value_stripZeros _ _)]
    rcases hfound : (List.range 17).findSome? _ with _ | d
    · rw [Option.getD_none, code_eq, value_ofDyadic]
      exact Double.nearestCode_codeValue h
    · obtain ⟨n, -, hgrid⟩ := List.exists_of_findSome?_eq_some hfound
      rw [Option.getD_some]
      exact code_of_onGrid hgrid

theorem digits_shortest_ne_zero (tie : Tie) {c : ℕ} (h : c < BinaryFormat.double.infinity)
    (h0 : c ≠ 0) : (shortest .double tie c).digits ≠ 0 := by
  intro hdigits
  have hcode := code_shortest tie h
  rw [code, if_pos hdigits] at hcode
  exact h0 hcode.symm

end Decimal

end Choreo
