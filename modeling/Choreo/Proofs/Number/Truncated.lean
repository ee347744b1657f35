import Choreo.Proofs.Number.Arithmetic

/-! # Doubles cut off to whole numbers

A double that is not negative becomes the whole number below it (`toNat_toUInt64`), as long as this
has a place in 64 bits. So bounds on the double are bounds on the whole number. -/

namespace Choreo.Double

open Float.Model Float.Model.UnpackedFloat

theorem floor_codeValue (c : ℕ) : ⌊codeValue c⌋₊ =
    (BinaryFormat.double.dyadic c).num / (BinaryFormat.double.dyadic c).den := by
  rw [codeValue, Dyadic.value_eq, Nat.floor_div_eq_div]

theorem roundToInt_eq (s : Sign) (m : ℕ) (e : ℤ) : roundToInt s m e =
    s.apply (((Dyadic.mk m e).num / (Dyadic.mk m e).den : ℕ) : ℤ) := by
  have hshift : (0 - (e - (((e - 0).toNat : ℕ) : ℤ))).toNat = (-e).toNat := by omega
  have hrep := ((represents_exact (m <<< (e - 0).toNat)).shiftRight Nat.one_pos
    (-e).toNat).mantissa
  unfold roundToInt decreaseExponent shiftToExponent
  simp only [hshift]
  rw [hrep, Nat.shiftLeft_eq, Nat.one_mul, Int.sub_zero]
  rfl

variable {x : Float}

theorem toInt_eq_floor (hx : code x < BinaryFormat.double.infinity) (hn : isNegative x = false)
    (a b : ℤ) : x.toModel.unpack.toInt a b = (⌊codeValue (code x)⌋₊ : ℤ) := by
  rw [unpack_eq, hn]
  by_cases h0 : code x = 0
  · rw [h0, decoded_zero, codeValue_zero, Nat.floor_zero]
    rfl
  · rw [decoded_of_lt_infinity h0 hx, floor_codeValue]
    change roundToInt .positive _ _ = _
    rw [roundToInt_eq]
    rfl

/-- **A double that is not negative is cut off to the whole number below it.** -/
theorem toNat_toUInt64 (hx : code x < BinaryFormat.double.infinity) (hn : isNegative x = false)
    (hfloor : ⌊codeValue (code x)⌋₊ < 2 ^ 64) : x.toUInt64.toNat = ⌊codeValue (code x)⌋₊ := by
  change (UInt64.ofNatClamp (x.toModel.unpack.toInt _ _).toNat).toNat = _
  rw [toInt_eq_floor hx hn, Int.toNat_natCast, UInt64.ofNatClamp, dif_pos hfloor]
  exact UInt64.toNat_ofNatLT

theorem floor_codeValue_le {y : Float} (hx : code x < BinaryFormat.double.infinity)
    (hy : code y < BinaryFormat.double.infinity) (h : code x ≤ code y) :
    ⌊codeValue (code x)⌋₊ ≤ ⌊codeValue (code y)⌋₊ :=
  Nat.floor_mono (codeValue_le hx hy h)

end Choreo.Double
