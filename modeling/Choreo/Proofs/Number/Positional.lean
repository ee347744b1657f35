import Choreo.Number.Format
import Choreo.Number.Literal
import Choreo.Proofs.Number.ReadBack

/-! # Positional texts

The text of a decimal without an exponent part is digits, a point and more digits, no zero before
another digit in front; read as a decimal again it has the same value (`exists_writePositional`). -/

namespace Choreo

/-! ### Digits -/

theorem isDigit_eq (c : Char) : isDigit c = c.isDigit := by
  simp only [isDigit, Char.isDigit, Char.le_def]

theorem isDigit_of_mem_decimalDigits {n : ℕ} {c : Char} (h : c ∈ decimalDigits n) :
    isDigit c = true := by
  rw [isDigit_eq]
  exact Nat.isDigit_of_mem_toDigits (by norm_num) (by norm_num) h

theorem digitValue_of_isDigit {c : Char} (h : isDigit c = true) :
    digitValue c = c.toNat - '0'.toNat := by
  rw [digitValue, if_pos h]

theorem digitsValue_eq {cs : List Char} (h : ∀ c ∈ cs, isDigit c = true) :
    digitsValue 10 cs = Nat.ofDigitChars 10 cs 0 := by
  rw [digitsValue, Nat.ofDigitChars_eq_foldl]
  refine List.foldl_ext _ _ _ fun n c hc => ?_
  rw [digitValue_of_isDigit (h c hc)]

theorem decimalDigits_ne_zero_cons {n : ℕ} (h : n ≠ 0) (rest : List Char) :
    decimalDigits n ≠ '0' :: rest := by
  unfold decimalDigits
  induction n using Nat.strongRecOn generalizing rest with
  | ind n ih =>
    intro hrest
    rcases Nat.lt_or_ge n 10 with hlt | hge
    · rw [Nat.toDigits_of_lt_base hlt] at hrest
      have hzero : ∀ m < 10, m ≠ 0 → Nat.digitChar m ≠ '0' := by decide
      exact hzero n hlt h (List.cons.inj hrest).1
    · rw [Nat.toDigits_of_base_le (by norm_num) hge] at hrest
      rcases hd : Nat.toDigits 10 (n / 10) with _ | ⟨c, more⟩
      · exact Nat.toDigits_ne_nil hd
      · rw [hd] at hrest
        obtain rfl : c = '0' := (List.cons.inj hrest).1
        exact ih (n / 10) (by omega) (by omega) more hd

/-! ### The positional text -/

namespace Decimal

theorem value_ofDigits {whole fraction : List Char}
    (h : ∀ c ∈ whole ++ fraction, isDigit c = true) : (ofDigits whole fraction 0).value =
      (Nat.ofDigitChars 10 (whole ++ fraction) 0 : ℕ) / (10 ^ fraction.length : ℕ) := by
  rw [ofDigits, digitsValue_eq h, value_of_nonpos (by omega)]
  congr 3
  omega

end Decimal

namespace NumberFormat

theorem isDigit_zero : isDigit '0' = true := by decide

/-- **A positional text reads back.** It has digits on both sides of its point, and before the point
no zero in front of another digit. -/
theorem exists_writePositional {d : Decimal} (h : d.digits ≠ 0) :
    ∃ whole fraction, writePositional ".0".toList d = whole ++ '.' :: fraction ∧
      whole ≠ [] ∧ fraction ≠ [] ∧ (∀ c ∈ whole ++ fraction, isDigit c = true) ∧
      (∀ rest, whole = '0' :: rest → rest = []) ∧
      (Decimal.ofDigits whole fraction 0).value = d.value := by
  obtain ⟨n, e⟩ := d
  have hlen : 0 < (decimalDigits n).length := Nat.length_toDigits_pos
  have hvalue : Nat.ofDigitChars 10 (decimalDigits n) 0 = n := Nat.ofDigitChars_ten_toDigits
  unfold writePositional
  simp only
  split_ifs with he
  · -- zeros up to the point, and one after it
    have hdigits : ∀ c ∈ decimalDigits n ++ List.replicate e.toNat '0' ++ ['0'],
        isDigit c = true := by
      intro c hc
      simp only [List.mem_append, List.mem_replicate, List.mem_singleton] at hc
      rcases hc with (hc | ⟨-, rfl⟩) | rfl
      · exact isDigit_of_mem_decimalDigits hc
      · exact isDigit_zero
      · exact isDigit_zero
    refine ⟨decimalDigits n ++ List.replicate e.toNat '0', ['0'], rfl, ?_, by simp, hdigits, ?_, ?_⟩
    · exact List.append_ne_nil_of_left_ne_nil (List.length_pos_iff.mp hlen) _
    · intro rest hrest
      rcases hd : decimalDigits n with _ | ⟨c, more⟩
      · rw [hd] at hlen
        exact absurd hlen (lt_irrefl 0)
      · rw [hd] at hrest
        obtain rfl : c = '0' := (List.cons.inj hrest).1
        exact absurd hd (decimalDigits_ne_zero_cons h more)
    · rw [Decimal.value_ofDigits hdigits, Decimal.value_of_nonneg he, Nat.ofDigitChars_append,
        Nat.ofDigitChars_append, hvalue, Nat.ofDigitChars_replicate_zero, Nat.ofDigitChars_cons,
        Nat.ofDigitChars_nil]
      push_cast
      simp
      ring
  · -- the digits are split, with zeros in front if there are too few
    obtain ⟨k, hk⟩ := Int.eq_ofNat_of_zero_le (by omega : 0 ≤ -e)
    obtain rfl : e = -k := by omega
    simp only [neg_neg, Int.toNat_natCast]
    generalize hpadded : List.replicate (k + 1 - (decimalDigits n).length) '0' ++ decimalDigits n =
      padded
    have hpaddedLen : padded.length = max (k + 1) (decimalDigits n).length := by
      rw [← hpadded, List.length_append, List.length_replicate]
      omega
    have hdigits : ∀ c ∈ padded, isDigit c = true := by
      intro c hc
      rw [← hpadded, List.mem_append, List.mem_replicate] at hc
      rcases hc with ⟨-, rfl⟩ | hc
      · exact isDigit_zero
      · exact isDigit_of_mem_decimalDigits hc
    have hsplit := List.take_append_drop (padded.length - k) padded
    refine ⟨padded.take (padded.length - k), padded.drop (padded.length - k), rfl, ?_, ?_, ?_, ?_,
      ?_⟩
    · rw [← List.length_pos_iff, List.length_take]
      omega
    · rw [← List.length_pos_iff, List.length_drop]
      omega
    · rwa [hsplit]
    · intro rest hrest
      rcases Nat.lt_or_ge k (decimalDigits n).length with hlt | hge
      · -- nothing was put in front
        rw [show k + 1 - (decimalDigits n).length = 0 by omega, List.replicate_zero,
          List.nil_append] at hpadded
        rw [← hpadded] at hrest
        have htake := List.take_append_drop ((decimalDigits n).length - k) (decimalDigits n)
        rw [hrest, List.cons_append] at htake
        exact absurd htake.symm (decimalDigits_ne_zero_cons h _)
      · have hone : (padded.take (padded.length - k)).length = 1 := by
          rw [List.length_take]
          omega
        rw [hrest, List.length_cons] at hone
        exact List.length_eq_zero_iff.mp (by omega)
    · rw [Decimal.value_ofDigits (by rwa [hsplit]), hsplit, Decimal.value_of_nonpos (by omega),
        ← hpadded, Nat.ofDigitChars_append, Nat.ofDigitChars_replicate_zero, Nat.mul_zero, hvalue,
        hpadded, List.length_drop]
      congr 3
      omega

end NumberFormat

end Choreo
