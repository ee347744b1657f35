import Choreo.Number.Double
import Mathlib

/-! # What the bits of a double say

A double is known by its sign and its magnitude code (`Double.isNegative`, `Double.code`). `decoded`
says what the code means: zero, a finite number by significand and exponent, infinity, or no number.
`unpack_eq` says that this is how the arithmetic reads the bits. -/

namespace Choreo.Double

open Float.Model Float.Model.UnpackedFloat

/-- The sign of arithmetic for a sign bit. -/
def signOf (negative : Bool) : Sign := if negative then .negative else .positive

/-! ### Exact values -/

theorem infinity_eq : BinaryFormat.double.infinity = 2047 * 2 ^ 52 := rfl

theorem dyadic_of_lt {code : Nat} (h : code < 2 ^ 52) :
    BinaryFormat.double.dyadic code = ⟨code, -1074⟩ := by
  have h0 : code / BinaryFormat.double.binade = 0 := Nat.div_eq_of_lt h
  rw [BinaryFormat.dyadic, h0]
  rfl

theorem dyadic_of_le {code : Nat} (h : 2 ^ 52 ≤ code) : BinaryFormat.double.dyadic code =
    ⟨2 ^ 52 + code % 2 ^ 52, ((code / 2 ^ 52 : Nat) : Int) - 1075⟩ := by
  obtain ⟨field, hf⟩ : ∃ field, code / 2 ^ 52 = field + 1 := ⟨code / 2 ^ 52 - 1, by omega⟩
  have hf' : code / BinaryFormat.double.binade = field + 1 := hf
  rw [BinaryFormat.dyadic, hf', hf]
  simp only [Dyadic.mk.injEq]
  refine ⟨rfl, ?_⟩
  rw [show BinaryFormat.double.leastExponent = -1074 from rfl]
  omega

theorem significand_pos {code : Nat} (h : code ≠ 0) :
    0 < (BinaryFormat.double.dyadic code).significand := by
  rcases Nat.lt_or_ge code (2 ^ 52) with hlt | hge
  · rw [dyadic_of_lt hlt]
    exact Nat.pos_of_ne_zero h
  · rw [dyadic_of_le hge]
    simp

/-- What sign and magnitude code say. -/
def decoded (negative : Bool) (code : Nat) : UnpackedFloat :=
  if BinaryFormat.double.infinity < code then .notANumber
  else if code = BinaryFormat.double.infinity then .infinity (signOf negative)
  else if h : code = 0 then .zero (signOf negative)
  else .finite (signOf negative) (BinaryFormat.double.dyadic code).significand
    (BinaryFormat.double.dyadic code).exponent (significand_pos h)

theorem decoded_of_infinity_lt {negative : Bool} {code : Nat}
    (h : BinaryFormat.double.infinity < code) : decoded negative code = .notANumber := by
  rw [decoded, if_pos h]

theorem decoded_infinity (negative : Bool) :
    decoded negative BinaryFormat.double.infinity = .infinity (signOf negative) := by
  rw [decoded, if_neg (Nat.lt_irrefl _), if_pos rfl]

theorem decoded_zero (negative : Bool) : decoded negative 0 = .zero (signOf negative) := by
  rw [decoded, if_neg (Nat.not_lt_zero _), if_neg (by rw [infinity_eq]; norm_num), dif_pos rfl]

theorem decoded_of_lt_infinity {negative : Bool} {code : Nat} (h0 : code ≠ 0)
    (h : code < BinaryFormat.double.infinity) : decoded negative code =
      .finite (signOf negative) (BinaryFormat.double.dyadic code).significand
        (BinaryFormat.double.dyadic code).exponent (significand_pos h0) := by
  rw [decoded, if_neg (Nat.lt_asymm h), if_neg (Nat.ne_of_lt h), dif_neg h0]

theorem decoded_cases (negative : Bool) {c : Nat} (h : c ≤ BinaryFormat.double.infinity) :
    (c = 0 ∧ decoded negative c = .zero (signOf negative)) ∨
    (∃ pos, (0 < c ∧ c < BinaryFormat.double.infinity) ∧ decoded negative c =
      .finite (signOf negative) (BinaryFormat.double.dyadic c).significand
        (BinaryFormat.double.dyadic c).exponent pos) ∨
    (c = BinaryFormat.double.infinity ∧ decoded negative c = .infinity (signOf negative)) := by
  by_cases h0 : c = 0
  · exact Or.inl ⟨h0, h0 ▸ decoded_zero negative⟩
  · by_cases h1 : c = BinaryFormat.double.infinity
    · exact Or.inr (Or.inr ⟨h1, h1 ▸ decoded_infinity negative⟩)
    · have hlt : c < BinaryFormat.double.infinity := by omega
      exact Or.inr (Or.inl ⟨_, ⟨by omega, hlt⟩, decoded_of_lt_infinity h0 hlt⟩)

/-! ### The fields -/

theorem toNat_unpackMantissa (b : BitVec 64) :
    (@unpackMantissa Format.binary64 b).toNat = b.toNat % 2 ^ 52 := by
  simp [unpackMantissa]

theorem toNat_unpackExponent (b : BitVec 64) :
    (@unpackExponent Format.binary64 b).toNat = b.toNat % 2 ^ 63 / 2 ^ 52 := by
  simp [unpackExponent, Nat.shiftRight_eq_div_pow]
  omega

theorem toNat_unpackSign (b : BitVec 64) :
    (@unpackSign Format.binary64 b).toNat = b.toNat / 2 ^ 63 := by
  have hb : b.toNat < 2 ^ 64 := b.isLt
  simp [unpackSign, Nat.shiftRight_eq_div_pow]
  omega

theorem ofBitVec_unpackSign (b : BitVec 64) :
    Sign.ofBitVec (@unpackSign Format.binary64 b) = signOf (2 ^ 63 ≤ b.toNat) := by
  have hz : @unpackSign Format.binary64 b = 0#1 ↔ ¬ 2 ^ 63 ≤ b.toNat := by
    have hb : b.toNat < 2 ^ 64 := b.isLt
    rw [← BitVec.toNat_inj, toNat_unpackSign]
    change b.toNat / 2 ^ 63 = 0 ↔ _
    omega
  unfold Sign.ofBitVec signOf
  by_cases h : 2 ^ 63 ≤ b.toNat
  · rw [if_neg fun h1 => hz.mp h1 h, decide_eq_true h, if_pos rfl]
  · rw [if_pos (hz.mpr h), decide_eq_false h]
    rfl

theorem unpackMantissa_eq_zero_iff (b : BitVec 64) :
    @unpackMantissa Format.binary64 b = 0#52 ↔ b.toNat % 2 ^ 63 % 2 ^ 52 = 0 := by
  rw [← BitVec.toNat_inj]
  refine Iff.trans (b := b.toNat % 2 ^ 52 = 0) (by rw [← toNat_unpackMantissa]; rfl) ?_
  omega

theorem unpackExponent_eq_iff (b : BitVec 64) (e : BitVec 11) :
    @unpackExponent Format.binary64 b = e ↔ b.toNat % 2 ^ 63 / 2 ^ 52 = e.toNat := by
  rw [← toNat_unpackExponent]
  exact BitVec.toNat_inj.symm

theorem toNat_implicit (m : BitVec 52) : (1#1 ++ m).toNat = 2 ^ 52 + m.toNat := by
  rw [BitVec.toNat_append, ← Nat.shiftLeft_add_eq_or_of_lt m.isLt]
  rfl

theorem finite_congr {s : Sign} {m m' : Nat} {e e' : Int} (hm : m = m') (he : e = e')
    (h : 0 < m) (h' : 0 < m') : finite s m e h = finite s m' e' h' := by
  subst hm he
  rfl

theorem unpack_bits (b : BitVec 64) : UnpackedFloat.unpack Format.binary64 b =
    decoded (2 ^ 63 ≤ b.toNat) (b.toNat % 2 ^ 63) := by
  have hmant : (@unpackMantissa Format.binary64 b).toNat = b.toNat % 2 ^ 63 % 2 ^ 52 := by
    rw [toNat_unpackMantissa]; omega
  have hexp := toNat_unpackExponent b
  have hbias : ((Format.binary64.exponentBias : Nat) : Int) + ((52 : Nat) : Int) = 1075 := rfl
  have hz := unpackMantissa_eq_zero_iff b
  have hlast := unpackExponent_eq_iff b (-1#11)
  have hleast := unpackExponent_eq_iff b 0#11
  rw [show (-1#11).toNat = 2047 from rfl] at hlast
  rw [show (0#11).toNat = 0 from rfl] at hleast
  have hinf := infinity_eq
  have hlt : b.toNat % 2 ^ 63 < 2 ^ 63 := Nat.mod_lt _ (by norm_num)
  set c := b.toNat % 2 ^ 63
  unfold UnpackedFloat.unpack
  simp only [ofBitVec_unpackSign, hlast, hleast, hz]
  split_ifs with h1 h2 h3 h4
  · rw [show c = BinaryFormat.double.infinity by omega, decoded_infinity]
  · rw [decoded_of_infinity_lt (by omega)]
  · rw [show c = 0 by omega, decoded_zero]
  · have hc : c < 2 ^ 52 := by omega
    rw [decoded_of_lt_infinity (by omega) (by omega)]
    refine finite_congr ?_ ?_ _ _
    · rw [hmant, dyadic_of_lt hc, Nat.mod_eq_of_lt hc]
    · rw [hexp, h3, hbias, dyadic_of_lt hc]
      rfl
  · have hc : 2 ^ 52 ≤ c := by omega
    rw [decoded_of_lt_infinity (by omega) (by omega)]
    refine finite_congr ?_ ?_ _ _
    · rw [toNat_implicit, hmant, dyadic_of_le hc]
    · rw [hexp, hbias, dyadic_of_le hc]

/-- **The reading of the bits.** -/
theorem unpack_eq (x : Float) : x.toModel.unpack = decoded (isNegative x) (code x) :=
  unpack_bits x.toModel.toBits.toBitVec

/-! ### Writing the bits -/

theorem isNaNBits_eq_false {b : BitVec 64} (h : b.toNat % 2 ^ 63 ≤ BinaryFormat.double.infinity) :
    @isNaNBits Format.binary64 b = false := by
  have hlast := unpackExponent_eq_iff b (-1#11)
  rw [show (-1#11).toNat = 2047 from rfl] at hlast
  have hz := unpackMantissa_eq_zero_iff b
  rw [infinity_eq] at h
  refine decide_eq_false ?_
  rintro ⟨hexp, hmant⟩
  have h1 := hlast.mp hexp
  exact hmant (hz.mpr (by omega))

section OfCode

variable (negative : Bool) {c : Nat} (h : c ≤ BinaryFormat.double.infinity)
include h

theorem toNat_toBits_ofCode : (ofCode negative c).toBits.toNat = negative.toNat * 2 ^ 63 + c := by
  have hinf := infinity_eq
  have hlt : (if negative then signBit + c else c) = negative.toNat * 2 ^ 63 + c := by
    cases negative <;> simp [signBit]
  have hbits : (UInt64.ofNat (negative.toNat * 2 ^ 63 + c)).toBitVec.toNat =
      negative.toNat * 2 ^ 63 + c := by
    cases negative <;> simp <;> omega
  have hcode : (negative.toNat * 2 ^ 63 + c) % 2 ^ 63 = c := by omega
  rw [ofCode, hlt]
  change (UnpackedFloat.pack Format.binary64 (UnpackedFloat.unpack Format.binary64
    (UInt64.ofNat (negative.toNat * 2 ^ 63 + c)).toBitVec)).toNat = _
  rw [pack_unpack, isNaNBits_eq_false (by rwa [hbits, hcode]), if_neg Bool.false_ne_true, hbits]

@[simp] theorem code_ofCode : code (ofCode negative c) = c := by
  have hinf := infinity_eq
  rw [code, toNat_toBits_ofCode negative h, signBit]
  omega

@[simp] theorem isNegative_ofCode : isNegative (ofCode negative c) = negative := by
  have hinf := infinity_eq
  rw [isNegative, toNat_toBits_ofCode negative h, signBit]
  cases negative <;> simp
  omega

end OfCode

theorem ofCode_code {x : Float} (h : code x ≤ BinaryFormat.double.infinity) :
    ofCode (isNegative x) (code x) = x := by
  have hlt : x.toBits.toNat < 2 ^ 64 := x.toBits.toNat_lt
  refine eq_of_toBits (UInt64.toNat_inj.mp ?_)
  rw [toNat_toBits_ofCode _ h, isNegative, code, signBit]
  by_cases hn : 2 ^ 63 ≤ x.toBits.toNat
  · simp only [hn, decide_true, Bool.toNat_true]
    omega
  · simp only [hn, decide_false, Bool.toNat_false]
    omega

end Choreo.Double
