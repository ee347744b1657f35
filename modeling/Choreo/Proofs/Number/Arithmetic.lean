import Choreo.Proofs.Number.Nearest

/-! # Products and quotients of doubles

The arithmetic of doubles shifts a truncated significand to its place and keeps two bits of what it
drops. These bits say where the exact number lies between its neighbours (`Represents`), so the
result is the exact product or quotient rounded once: its code is `nearestCode` of it (`code_mul`,
`code_div`). With that, products and quotients are monotone. -/

namespace Choreo.Double

open Float.Model Float.Model.UnpackedFloat

/-! ### Truncated significands -/

/-- The significand with its two further bits says where `num / den` lies: its floor, whether it is
at least half a unit above, and whether it is neither on the floor nor halfway. -/
structure Represents (em : ExtendedMantissa) (num den : ℕ) : Prop where
  mantissa : em.mantissa = num / den
  roundBit : em.roundBit = true ↔ den ≤ 2 * (num % den)
  stickyBit : em.stickyBit = true ↔ num % den ≠ 0 ∧ 2 * (num % den) ≠ den

variable {em : ExtendedMantissa} {num den : ℕ}

theorem represents_exact (m : ℕ) :
    Represents (ExtendedMantissa.ofMantissaAndAccuracy m .exact) m 1 := by
  refine ⟨(Nat.div_one m).symm, ?_, ?_⟩ <;>
    simp [ExtendedMantissa.ofMantissaAndAccuracy, Nat.mod_one]

theorem represents_ofFraction (num : ℕ) (hden : 0 < den) : Represents
    (ExtendedMantissa.ofMantissaAndAccuracy (num / den) (accuracyOfFraction (num % den) den))
    num den := by
  unfold accuracyOfFraction
  split_ifs with h0
  · refine ⟨rfl, ?_, ?_⟩ <;> simp [ExtendedMantissa.ofMantissaAndAccuracy, h0, hden.ne']
  · rcases Nat.lt_trichotomy (2 * (num % den)) den with h | h | h
    · rw [Nat.compare_eq_lt.mpr h]
      exact ⟨rfl, ⟨nofun, fun h1 => absurd h1 (Nat.not_le.mpr h)⟩,
        ⟨fun _ => ⟨h0, h.ne⟩, fun _ => rfl⟩⟩
    · rw [Nat.compare_eq_eq.mpr h]
      exact ⟨rfl, ⟨fun _ => h.ge, fun _ => rfl⟩, ⟨nofun, fun h1 => absurd h h1.2⟩⟩
    · rw [Nat.compare_eq_gt.mpr h]
      exact ⟨rfl, ⟨fun _ => h.le, fun _ => rfl⟩, ⟨fun _ => ⟨h0, h.ne'⟩, fun _ => rfl⟩⟩

theorem Represents.roundedMantissa (h : Represents em num den) :
    em.roundedMantissa = roundDiv .toEven num den := by
  obtain ⟨m, r, s⟩ := em
  obtain ⟨hm, hr, hs⟩ := h
  simp only at hm hr hs
  subst hm
  simp only [roundDiv]
  cases r <;> cases s <;>
    simp only [Bool.false_eq_true, false_iff, true_iff, ne_eq, not_and, not_not, not_le] at hr hs
  · have hlt : 2 * (num % den) < den := by omega
    rw [Nat.compare_eq_lt.mpr hlt]
    rfl
  · rw [Nat.compare_eq_lt.mpr hr]
    rfl
  · rw [Nat.compare_eq_eq.mpr (by omega)]
    rfl
  · rw [Nat.compare_eq_gt.mpr (by omega)]
    rfl

theorem Represents.shiftRightOne (h : Represents em num den) (hden : 0 < den) :
    Represents em.shiftRightOne num (den * 2) := by
  obtain ⟨hm, hr, hs⟩ := h
  have hlt := Nat.mod_lt num hden
  have hmod : num % (den * 2) = num % den + den * (num / den % 2) := Nat.mod_mul
  have hbit : em.shiftRightOne.roundBit = true ↔ num / den % 2 = 1 := by
    rw [ExtendedMantissa.shiftRightOne, hm, bne_iff_ne]
    omega
  have hsticky : em.shiftRightOne.stickyBit = true ↔ num % den ≠ 0 := by
    rw [ExtendedMantissa.shiftRightOne, Bool.or_eq_true, hr, hs]
    omega
  refine ⟨?_, hbit.trans ?_, hsticky.trans ?_⟩
  · rw [← Nat.div_div_eq_div_mul, ← hm]
    rfl
  · rw [hmod]
    rcases Nat.mod_two_eq_zero_or_one (num / den) with h | h <;> rw [h] <;> omega
  · rw [hmod]
    rcases Nat.mod_two_eq_zero_or_one (num / den) with h | h <;> rw [h] <;> omega

/-- **Shifting keeps what the bits say.** -/
theorem Represents.shiftRight (h : Represents em num den) (hden : 0 < den) (k : ℕ) :
    Represents (em >>> k) num (den * 2 ^ k) := by
  change Represents (k.repeat ExtendedMantissa.shiftRightOne em) _ _
  induction k with
  | zero => rwa [Nat.pow_zero, Nat.mul_one]
  | succ k ih =>
    rw [Nat.pow_succ, ← Nat.mul_assoc]
    exact ih.shiftRightOne (Nat.mul_pos hden (Nat.two_pow_pos _))

/-! ### Rounding to a place -/

theorem targetExponent_eq (total : ℤ) :
    Format.binary64.targetExponent total = max (total - 53) (-1074) := rfl

theorem targetExponent_total (m : ℕ) (e : ℤ) :
    Format.binary64.targetExponent (totalExponent m e) = max (m.log2 + e - 52) (-1074) := by
  rw [targetExponent_eq, totalExponent]
  congr 1
  omega

/-- A significand that rounding has made one bit too long is shifted by that bit. -/
theorem shift_rounded {s : ℕ} {e : ℤ} (hs : s ≤ 2 ^ 53) (he : -1074 ≤ e) :
    ∃ em e', shiftToTargetExponent Format.binary64 s e .exact = (em, e') ∧
      (s < 2 ^ 53 ∧ em.mantissa = s ∧ e' = e ∨ s = 2 ^ 53 ∧ em.mantissa = 2 ^ 52 ∧ e' = e + 1) := by
  have hrep : ∀ k : ℕ, ((ExtendedMantissa.ofMantissaAndAccuracy s .exact) >>> k).mantissa =
      s / 2 ^ k := fun k => by
    rw [((represents_exact s).shiftRight Nat.one_pos k).mantissa, Nat.one_mul]
  rw [shiftToTargetExponent, shiftToExponent, targetExponent_total]
  refine ⟨_, _, rfl, ?_⟩
  rw [hrep]
  rcases hs.lt_or_eq with hlt | rfl
  · have hlog : s.log2 < 53 := by
      rcases Nat.eq_zero_or_pos s with rfl | h0
      · decide
      · exact (Nat.log2_lt h0.ne').mpr hlt
    rw [show (max ((s.log2 : ℤ) + e - 52) (-1074) - e).toNat = 0 by omega]
    exact Or.inl ⟨hlt, by rw [Nat.pow_zero, Nat.div_one], by omega⟩
  · rw [Nat.log2_two_pow, show (max (((53 : ℕ) : ℤ) + e - 52) (-1074) - e).toNat = 1 by omega]
    exact Or.inr ⟨rfl, rfl, rfl⟩

/-! ### Packing -/

/-- The bits of a number: its sign, and its code below. -/
def signedBits (s : Sign) (c : ℕ) : ℕ := s.toBitVec.toNat * 2 ^ 63 + c

theorem toNat_packComponents (s : Sign) (exponent : BitVec 11) (mantissa : BitVec 52) :
    (packComponents Format.binary64 s exponent mantissa).toNat =
      signedBits s (exponent.toNat * 2 ^ 52 + mantissa.toNat) := by
  have h1 := exponent.isLt
  have h2 := mantissa.isLt
  change (s.toBitVec ++ exponent ++ mantissa).toNat = _
  rw [BitVec.toNat_append, ← Nat.shiftLeft_add_eq_or_of_lt h2, BitVec.toNat_append,
    ← Nat.shiftLeft_add_eq_or_of_lt h1, Nat.shiftLeft_eq, Nat.shiftLeft_eq, signedBits]
  omega

/-- **A rounded number is packed into its code**, or into that of infinity if it is too large. -/
theorem toNat_pack_finite (s : Sign) {m : ℕ} {e : ℤ} (hm : 0 < m) (hlt : m < 2 ^ 53)
    (he : -1074 ≤ e) (h : e = -1074 ∨ 2 ^ 52 ≤ m) :
    (UnpackedFloat.pack Format.binary64 (.finite s m e hm)).toNat =
      signedBits s (min ((e + 1074).toNat * 2 ^ 52 + m) BinaryFormat.double.infinity) := by
  have hinf := infinity_eq
  have hbias : e + (Format.binary64.exponentBias : ℤ) + ((52 : ℕ) : ℤ) = e + 1075 := by
    rw [show (Format.binary64.exponentBias : ℤ) = 1023 from rfl]
    omega
  have hlog : m.log2 + 1 = 53 ↔ 2 ^ 52 ≤ m := by
    rw [← Nat.le_log2 hm.ne']
    have := (Nat.log2_lt hm.ne').mpr hlt
    omega
  unfold UnpackedFloat.pack
  simp only [hbias]
  split_ifs with h1 h2
  · rw [min_eq_right (by omega), packedInfinity, toNat_packComponents]
    rfl
  · have h2 : 2 ^ 52 ≤ m := hlog.mp h2
    rw [min_eq_left (by omega), toNat_packComponents, BitVec.toNat_ofNat, BitVec.toNat_ofNat]
    exact congrArg (signedBits s) (by omega)
  · have h2 : ¬ 2 ^ 52 ≤ m := mt hlog.mpr h2
    have hmant : (BitVec.ofNat 52 m).toNat = m := by rw [BitVec.toNat_ofNat]; omega
    rw [min_eq_left (by omega)]
    refine (toNat_packComponents s 0#11 (BitVec.ofNat 52 m)).trans ?_
    rw [hmant, BitVec.toNat_zero, h.resolve_right h2]
    rfl

theorem toNat_pack_zero (s : Sign) :
    (UnpackedFloat.pack Format.binary64 (.zero s)).toNat = signedBits s 0 := by
  unfold UnpackedFloat.pack packedZero
  rw [toNat_packComponents]
  rfl

theorem place_of_truncated (hnum : 0 < num) (hden : 0 < den) {m : ℕ} (hm : m = num / den) {e : ℤ}
    (he : e ≤ max ((m.log2 : ℤ) + e - 52) (-1074)) :
    place (num * 2 ^ e.toNat) (den * 2 ^ (-e).toNat) = max ((m.log2 : ℤ) + e - 52) (-1074) := by
  have hd : (0 : ℚ) < den := Nat.cast_pos.mpr hden
  have hpos : (0 : ℚ) < num / den := div_pos (Nat.cast_pos.mpr hnum) hd
  have hlead : BinaryFormat.leadingExponent (num * 2 ^ e.toNat) (den * 2 ^ (-e).toNat) =
      Int.log 2 ((num : ℚ) / den) + e := by
    rw [leadingExponent_eq_log (Nat.mul_pos hnum (Nat.two_pow_pos _))
      (Nat.mul_pos hden (Nat.two_pow_pos _)), cast_mul_eq, log_mul_two_zpow hpos]
  rw [place, hlead]
  rcases Nat.lt_or_ge num den with hlt | hge
  · have h0 : m.log2 = 0 := by rw [hm, Nat.div_eq_of_lt hlt]; rfl
    have hone : (num : ℚ) / den < (2 : ℕ) ^ (0 : ℤ) := by
      rw [zpow_zero, div_lt_one hd]
      exact_mod_cast hlt
    have hneg := (Int.lt_zpow_iff_log_lt Nat.one_lt_two hpos).mp hone
    omega
  · have hone : (1 : ℚ) ≤ num / den := by
      rw [one_le_div hd]
      exact_mod_cast hge
    rw [Int.log_of_one_le_right _ hone, Nat.floor_div_eq_div, ← hm, Nat.log2_eq_log_two]

theorem significand_of_place (hden : 0 < den) {e : ℤ} {k : ℕ}
    (h : place (num * 2 ^ e.toNat) (den * 2 ^ (-e).toNat) = e + k) :
    significand (num * 2 ^ e.toNat) (den * 2 ^ (-e).toNat) =
      roundDiv .toEven num (den * 2 ^ k) := by
  rw [significand, h]
  refine roundDiv_congr _ (Nat.mul_pos (Nat.mul_pos hden (Nat.two_pow_pos _)) (Nat.two_pow_pos _))
    (Nat.mul_pos hden (Nat.two_pow_pos _)) ?_
  have hpow : 2 ^ e.toNat * 2 ^ (-(e + k)).toNat * 2 ^ k =
      2 ^ (-e).toNat * 2 ^ (e + k).toNat := by
    rw [← pow_add, ← pow_add, ← pow_add]
    congr 1
    omega
  calc num * 2 ^ e.toNat * 2 ^ (-(e + k)).toNat * (den * 2 ^ k)
      = num * den * (2 ^ e.toNat * 2 ^ (-(e + k)).toNat * 2 ^ k) := by ring
    _ = num * (den * 2 ^ (-e).toNat * 2 ^ (e + k).toNat) := by rw [hpow]; ring

/-- **Numbers are rounded once.** A truncated quotient whose exponent leaves enough bits is rounded
to the code nearest to the quotient. -/
theorem toNat_pack_roundWithAccuracy (s : Sign) {m : ℕ} {e : ℤ} {acc : Accuracy} (hnum : 0 < num)
    (hden : 0 < den) (hrep : Represents (.ofMantissaAndAccuracy m acc) num den)
    (he : e ≤ max ((m.log2 : ℤ) + e - 52) (-1074)) :
    (UnpackedFloat.pack Format.binary64 (roundWithAccuracy Format.binary64 s m e acc)).toNat =
      signedBits s (nearestCode (num / den * 2 ^ e)) := by
  have hm : m = num / den := by
    rw [← hrep.mantissa]
    unfold ExtendedMantissa.ofMantissaAndAccuracy
    split <;> rfl
  have hplace := place_of_truncated hnum hden hm he
  have hleast := neg_le_place (num * 2 ^ e.toNat) (den * 2 ^ (-e).toNat)
  obtain ⟨k, hk⟩ : ∃ k : ℕ, max ((m.log2 : ℤ) + e - 52) (-1074) = e + k :=
    ⟨(max ((m.log2 : ℤ) + e - 52) (-1074) - e).toNat, by omega⟩
  rw [hk] at hplace
  rw [hplace] at hleast
  have hsig := significand_of_place hden hplace
  have hnum' : 0 < num * 2 ^ e.toNat := Nat.mul_pos hnum (Nat.two_pow_pos _)
  have hden' : 0 < den * 2 ^ (-e).toNat := Nat.mul_pos hden (Nat.two_pow_pos _)
  -- the rounded significand, and what is nearest
  have hle := significand_le hnum' hden'
  have hge := le_significand hnum' hden'
  rw [hsig] at hle hge
  rw [hplace] at hge
  rw [← cast_mul_eq, ← nearest_eq_nearestCode _ hden', nearest_eq hnum'.ne', hplace, hsig]
  -- the first shift brings the significand to its place
  have hround : ((ExtendedMantissa.ofMantissaAndAccuracy m acc) >>> k).roundedMantissa =
      roundDiv .toEven num (den * 2 ^ k) := (hrep.shiftRight hden k).roundedMantissa
  have hfirst : shiftToTargetExponent Format.binary64 m e acc =
      ((ExtendedMantissa.ofMantissaAndAccuracy m acc) >>> k, e + k) := by
    rw [shiftToTargetExponent, shiftToExponent, targetExponent_total, hk,
      show (e + k - e).toNat = k by omega]
  obtain ⟨em, e', hsecond, hcases⟩ := shift_rounded hle hleast
  unfold roundWithAccuracy
  simp only [hfirst, hround, hsecond]
  rcases hcases with ⟨hlt, hem, rfl⟩ | ⟨heq, hem, rfl⟩
  · split_ifs with h0
    · rw [toNat_pack_zero]
      rw [hem] at h0
      rw [h0, show ((e + k : ℤ) + 1074).toNat = 0 by omega]
      rfl
    · rw [toNat_pack_finite s _ (by omega) hleast (by omega), hem]
  · rw [dif_neg (by omega), toNat_pack_finite s _ (by omega) (by omega) (by omega), hem, heq]
    exact congrArg (fun c => signedBits s (min c _)) (by omega)

/-! ### Multiplying and dividing -/

theorem toNat_toBits_mul_eq (x y : Float) : (x * y).toBits.toNat = (UnpackedFloat.pack
    Format.binary64 (UnpackedFloat.mul Format.binary64 x.toModel.unpack y.toModel.unpack)).toNat :=
  rfl

theorem toNat_toBits_div_eq (x y : Float) : (x / y).toBits.toNat = (UnpackedFloat.pack
    Format.binary64 (UnpackedFloat.div Format.binary64 x.toModel.unpack y.toModel.unpack)).toNat :=
  rfl

theorem decoded_of_finite (negative : Bool) {c : ℕ} (h : c < BinaryFormat.double.infinity) :
    (c = 0 ∧ decoded negative c = .zero (signOf negative)) ∨
    ∃ m e pos, decoded negative c = .finite (signOf negative) m e pos ∧
      codeValue c = m * 2 ^ e ∧ -1074 ≤ e ∧ (e = -1074 ∨ 2 ^ 52 ≤ m) := by
  rcases Nat.eq_zero_or_pos c with rfl | h0
  · exact Or.inl ⟨rfl, decoded_zero _⟩
  · obtain ⟨m, e, hd, hm, -, he, -, hlast, -⟩ := dyadic_bounds h0.ne' h
    refine Or.inr ⟨m, e, hm, ?_, ?_, he, hlast⟩
    · rw [decoded_of_lt_infinity h0.ne' h]
      exact finite_congr (by rw [hd]) (by rw [hd]) _ _
    · rw [codeValue, hd]
      rfl

/-- The truncated quotient has enough bits to be rounded. -/
theorem divCore_eq {m₁ m₂ : ℕ} (p₁ : 0 < m₁) (p₂ : 0 < m₂) (e₁ e₂ : ℤ) :
    ∃ m e acc k, divCore Format.binary64 m₁ e₁ m₂ e₂ = (m, e, acc) ∧ e₁ - e₂ = e + (k : ℕ) ∧
      Represents (.ofMantissaAndAccuracy m acc) (m₁ * 2 ^ k) m₂ ∧
      e ≤ max ((m.log2 : ℤ) + e - 52) (-1074) := by
  rw [divCore, targetExponent_eq, totalExponent, totalExponent]
  generalize he : min (e₁ - e₂) (max ((m₁.log2 : ℤ) + 1 + e₁ - (m₂.log2 + 1 + e₂) - 53) (-1074)) = e
  generalize hk : (e₁ - e₂ - e).toNat = k
  refine ⟨_, _, _, k, rfl, by omega, ?_, ?_⟩
  · rw [Nat.shiftLeft_eq]
    exact represents_ofFraction _ p₂
  · rw [Nat.shiftLeft_eq]
    by_cases hleast : e ≤ -1074
    · omega
    · have hlong : 2 ^ 52 ≤ m₁ * 2 ^ k / m₂ := by
        rw [Nat.le_div_iff_mul_le p₂]
        calc 2 ^ 52 * m₂ ≤ 2 ^ 52 * 2 ^ (m₂.log2 + 1) :=
              Nat.mul_le_mul_left _ Nat.lt_log2_self.le
          _ ≤ 2 ^ m₁.log2 * 2 ^ k := by
              rw [← pow_add, ← pow_add]
              exact Nat.pow_le_pow_right two_pos (by omega)
          _ ≤ m₁ * 2 ^ k := Nat.mul_le_mul_right _ (Nat.log2_self_le p₁.ne')
      have hlog := (Nat.le_log2 (show m₁ * 2 ^ k / m₂ ≠ 0 by omega)).mpr hlong
      omega

section

variable {x y : Float} (hx : code x < BinaryFormat.double.infinity)
  (hy : code y < BinaryFormat.double.infinity)
include hx hy

/-- **A product is the exact product rounded once.** -/
theorem toNat_toBits_mul : (x * y).toBits.toNat =
    signedBits (signOf (isNegative x) * signOf (isNegative y))
      (nearestCode (codeValue (code x) * codeValue (code y))) := by
  rw [toNat_toBits_mul_eq, unpack_eq, unpack_eq]
  rcases decoded_of_finite (isNegative x) hx with ⟨h1, hd1⟩ | ⟨m₁, e₁, p₁, hd1, hv1, he1, hl1⟩ <;>
    rcases decoded_of_finite (isNegative y) hy with ⟨h2, hd2⟩ | ⟨m₂, e₂, p₂, hd2, hv2, he2, hl2⟩ <;>
    rw [hd1, hd2]
  · rw [h1, codeValue_zero, zero_mul]
    exact toNat_pack_zero _
  · rw [h1, codeValue_zero, zero_mul]
    exact toNat_pack_zero _
  · rw [h2, codeValue_zero, mul_zero]
    exact toNat_pack_zero _
  · have hvalue : codeValue (code x) * codeValue (code y) =
        ((m₁ * m₂ : ℕ) : ℚ) / (1 : ℕ) * 2 ^ (e₁ + e₂) := by
      rw [hv1, hv2, zpow_add₀ two_ne_zero]
      push_cast
      ring
    have hpos : 0 < m₁ * m₂ := Nat.mul_pos p₁ p₂
    rw [hvalue]
    refine toNat_pack_roundWithAccuracy _ hpos Nat.one_pos (represents_exact _) ?_
    have hlog : 2 ^ 52 ≤ m₁ * m₂ → 52 ≤ (m₁ * m₂).log2 := (Nat.le_log2 hpos.ne').mpr
    rcases hl1 with rfl | hl1
    · rcases hl2 with rfl | hl2
      · omega
      · have := hlog (hl2.trans (Nat.le_mul_of_pos_left _ p₁))
        omega
    · have := hlog (hl1.trans (Nat.le_mul_of_pos_right _ p₂))
      omega

/-- **A quotient is the exact quotient rounded once.** -/
theorem toNat_toBits_div (h0 : code y ≠ 0) : (x / y).toBits.toNat =
    signedBits (signOf (isNegative x) / signOf (isNegative y))
      (nearestCode (codeValue (code x) / codeValue (code y))) := by
  rw [toNat_toBits_div_eq, unpack_eq, unpack_eq]
  rcases decoded_of_finite (isNegative y) hy with ⟨h2, -⟩ | ⟨m₂, e₂, p₂, hd2, hv2, -, -⟩
  · exact absurd h2 h0
  rcases decoded_of_finite (isNegative x) hx with ⟨h1, hd1⟩ | ⟨m₁, e₁, p₁, hd1, hv1, -, -⟩ <;>
    rw [hd1, hd2]
  · rw [h1, codeValue_zero, zero_div]
    exact toNat_pack_zero _
  · obtain ⟨m, e, acc, k, hcore, hek, hrep, he⟩ := divCore_eq p₁ p₂ e₁ e₂
    have hvalue : codeValue (code x) / codeValue (code y) =
        ((m₁ * 2 ^ k : ℕ) : ℚ) / m₂ * 2 ^ e := by
      rw [hv1, hv2, mul_div_mul_comm, ← zpow_sub₀ two_ne_zero, hek, zpow_add₀ two_ne_zero,
        zpow_natCast]
      push_cast
      ring
    rw [hvalue]
    simp only [UnpackedFloat.div, hcore]
    exact toNat_pack_roundWithAccuracy _ (Nat.mul_pos p₁ (Nat.two_pow_pos _)) p₂ hrep he

end

theorem code_of_signedBits {z : Float} {negative : Bool} {c : ℕ}
    (hc : c ≤ BinaryFormat.double.infinity)
    (h : z.toBits.toNat = signedBits (signOf negative) c) :
    code z = c ∧ isNegative z = negative := by
  have hinf := infinity_eq
  rw [code, isNegative, h, signedBits, signBit]
  cases negative
  · exact ⟨by change (0 * 2 ^ 63 + c) % 2 ^ 63 = c; omega, decide_eq_false (by
      change ¬ 2 ^ 63 ≤ 0 * 2 ^ 63 + c; omega)⟩
  · exact ⟨by change (1 * 2 ^ 63 + c) % 2 ^ 63 = c; omega, decide_eq_true (by
      change 2 ^ 63 ≤ 1 * 2 ^ 63 + c; omega)⟩

theorem signOf_mul (a b : Bool) : signOf a * signOf b = signOf (a ^^ b) := by
  cases a <;> cases b <;> rfl

theorem signOf_div (a b : Bool) : signOf a / signOf b = signOf (a ^^ b) := by
  cases a <;> cases b <;> rfl

section

variable {x y z : Float} (hx : code x < BinaryFormat.double.infinity)
  (hy : code y < BinaryFormat.double.infinity)
include hx hy

theorem code_mul : code (x * y) = nearestCode (codeValue (code x) * codeValue (code y)) ∧
    isNegative (x * y) = (isNegative x ^^ isNegative y) :=
  code_of_signedBits (nearestCode_le_infinity _)
    ((toNat_toBits_mul hx hy).trans (by rw [signOf_mul]))

theorem code_div (h0 : code y ≠ 0) :
    code (x / y) = nearestCode (codeValue (code x) / codeValue (code y)) ∧
    isNegative (x / y) = (isNegative x ^^ isNegative y) :=
  code_of_signedBits (nearestCode_le_infinity _)
    ((toNat_toBits_div hx hy h0).trans (by rw [signOf_div]))

theorem codeValue_le (h : code x ≤ code y) : codeValue (code x) ≤ codeValue (code y) := by
  by_contra hlt
  have hmono := nearestCode_mono (codeValue_nonneg _) (not_le.mp hlt).le
  rw [nearestCode_codeValue hx, nearestCode_codeValue hy] at hmono
  exact hlt (by rw [Nat.le_antisymm h hmono])

/-- **A greater factor gives no lesser product.** -/
theorem code_mul_le (hz : code z < BinaryFormat.double.infinity) (h : code x ≤ code y) :
    code (x * z) ≤ code (y * z) := by
  rw [(code_mul hx hz).1, (code_mul hy hz).1]
  exact nearestCode_mono (mul_nonneg (codeValue_nonneg _) (codeValue_nonneg _))
    (mul_le_mul_of_nonneg_right (codeValue_le hx hy h) (codeValue_nonneg _))

/-- **A greater dividend gives no lesser quotient.** -/
theorem code_div_le_left (hz : code z < BinaryFormat.double.infinity) (h0 : code z ≠ 0)
    (h : code x ≤ code y) : code (x / z) ≤ code (y / z) := by
  rw [(code_div hx hz h0).1, (code_div hy hz h0).1]
  exact nearestCode_mono (div_nonneg (codeValue_nonneg _) (codeValue_nonneg _))
    (div_le_div_of_nonneg_right (codeValue_le hx hy h) (codeValue_nonneg _))

/-- **A greater divisor gives no greater quotient.** -/
theorem code_div_le_right (hz : code z < BinaryFormat.double.infinity) (h0 : code x ≠ 0)
    (h : code x ≤ code y) : code (z / y) ≤ code (z / x) := by
  have hy0 : code y ≠ 0 := by omega
  rw [(code_div hz hx h0).1, (code_div hz hy hy0).1]
  exact nearestCode_mono (div_nonneg (codeValue_nonneg _) (codeValue_nonneg _))
    (div_le_div_of_nonneg_left (codeValue_nonneg _) (codeValue_pos h0) (codeValue_le hx hy h))

end

end Choreo.Double
