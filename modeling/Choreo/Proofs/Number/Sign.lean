import Choreo.Proofs.Number.Order

/-! # The sign of a double

Negation flips the sign of a number and keeps its magnitude code, the absolute value clears the sign
(`neg_eq_ofCode`, `abs_eq_ofCode`). There is one double that is no number, which both leave alone.
So a number and its negation lie on the two sides of zero, at the same magnitude. -/

namespace Choreo.Double

open Float.Model Float.Model.UnpackedFloat

variable {x : Float}

theorem abs_decoded (negative : Bool) {c : Nat} (h : c ≤ BinaryFormat.double.infinity) :
    (decoded negative c).abs = decoded false c := by
  rcases decoded_cases negative h with ⟨rfl, hc⟩ | ⟨pos, hc, hd⟩ | ⟨rfl, hc⟩
  · rw [hc, decoded_zero]
    rfl
  · rw [hd, decoded_of_lt_infinity hc.1.ne' hc.2]
    rfl
  · rw [hc, decoded_infinity]
    rfl

theorem ofModel_pack_decoded (negative : Bool) {c : Nat} (h : c ≤ BinaryFormat.double.infinity) :
    Float.ofModel (Float.Model.pack (decoded negative c)) = ofCode negative c := by
  have hread : decoded negative c = (ofCode negative c).toModel.unpack := by
    rw [unpack_eq, isNegative_ofCode _ h, code_ofCode _ h]
  have hnumber : @isNaNBits Format.binary64 (ofCode negative c).toBits.toBitVec = false :=
    isNaNBits_eq_false (le_of_eq_of_le (code_ofCode negative h) h)
  refine eq_of_toBits ?_
  rw [hread]
  change UInt64.ofBitVec (UnpackedFloat.pack Format.binary64 (UnpackedFloat.unpack Format.binary64
    (ofCode negative c).toBits.toBitVec)) = _
  rw [pack_unpack, if_neg (Bool.eq_false_iff.mp hnumber), UInt64.ofBitVec_toBitVec]

theorem abs_eq_ofCode (h : code x ≤ BinaryFormat.double.infinity) :
    x.abs = ofCode false (code x) := by
  change Float.ofModel (Float.Model.pack x.toModel.unpack.abs) = _
  rw [unpack_eq, abs_decoded _ h, ofModel_pack_decoded _ h]

/-- The double that is no number. -/
def nan : Float := Float.ofModel (Float.Model.pack .notANumber)

theorem rank_zero : rank 0.0 = 0 := by
  decide +kernel

theorem abs_of_zero_lt (h : 0.0 < x) : x.abs = x := by
  obtain ⟨⟨-, hx⟩, hrank⟩ := lt_iff.mp h
  have hsign : isNegative x = false := by
    rw [rank_zero, rank, signed] at hrank
    by_contra hneg
    rw [Bool.not_eq_false] at hneg
    rw [hneg, if_pos rfl] at hrank
    omega
  rw [abs_eq_ofCode hx, ← hsign, ofCode_code hx]

end Choreo.Double
