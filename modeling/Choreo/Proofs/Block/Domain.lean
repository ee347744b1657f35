import Choreo.Block.Basic
import Choreo.Duration
import Choreo.Proofs.Number.Rounded

/-! # The domains of the parameters

Every value that a block stores lies in the domain of its parameter (`Param.clamp?_admits`), and so
does the default that counts where nothing is stored. A count is one of the whole numbers from one
to ten, so a repeat runs its children as often as its parameter says (`Param.Admits.count`). -/

namespace Choreo

open Double (code isNegative rank signed)

namespace Param

/-! ### Bounds -/

theorem code_low_le (p : Param) : code p.low ≤ BinaryFormat.double.infinity := by
  cases p <;> decide

theorem code_high_lt (p : Param) : code p.high < BinaryFormat.double.infinity := by
  cases p <;> decide

theorem isNegative_high (p : Param) : isNegative p.high = false := by
  cases p <;> decide

theorem isNegative_low (p : Param) : isNegative p.low = false := by
  cases p <;> decide

theorem code_low_pos (p : Param) : 0 < code p.low := by
  cases p <;> decide

theorem admits_low (p : Param) : p.Admits p.low := by
  cases p <;> refine ⟨by decide, by decide, by decide, fun h => ?_⟩
  case times => exact ⟨1, by decide⟩
  all_goals cases h

theorem admits_high (p : Param) : p.Admits p.high := by
  cases p <;> refine ⟨by decide, by decide, by decide, fun h => ?_⟩
  case times => exact ⟨10, by decide⟩
  all_goals cases h

theorem admits_defaultValue (p : Param) : p.Admits p.defaultValue := by
  cases p <;> refine ⟨by decide, by decide, by decide, fun h => ?_⟩
  case times => exact ⟨1, by decide⟩
  all_goals cases h

theorem bounds_of_le {p : Param} {x : Float} (hl : p.low ≤ x) (hh : x ≤ p.high) :
    isNegative x = false ∧ code p.low ≤ code x ∧ code x ≤ code p.high := by
  have hpos := p.code_low_pos
  obtain ⟨-, hl⟩ := Double.le_iff.mp hl
  obtain ⟨-, hh⟩ := Double.le_iff.mp hh
  simp only [rank, signed, isNegative_low, isNegative_high, Bool.false_eq_true, if_false] at hl hh
  cases hn : isNegative x
  · simp only [hn, Bool.false_eq_true, if_false] at hl hh
    exact ⟨rfl, by omega, by omega⟩
  · simp only [hn, if_true] at hl
    omega

theorem isFinite_of_le {p : Param} {x : Float} (hl : p.low ≤ x) (hh : x ≤ p.high) :
    x.isFinite = true := by
  obtain ⟨-, -, hx⟩ := bounds_of_le hl hh
  exact Double.isFinite_iff.mpr (Nat.lt_of_le_of_lt hx p.code_high_lt)

theorem Admits.bounds {p : Param} {x : Float} (h : p.Admits x) :
    isNegative x = false ∧ code p.low ≤ code x ∧ code x ≤ code p.high :=
  bounds_of_le h.2.1 h.2.2.1

/-! ### Clamping -/

theorem admits_between {p : Param} {x : Float} (hx : code x ≤ BinaryFormat.double.infinity)
    (hwhole : p.isWhole → isNegative x = false → ∃ n : Nat, x = Double.ofNat n) :
    p.Admits (if x < p.low then p.low else if p.high < x then p.high else x) := by
  split_ifs with hl hh
  · exact p.admits_low
  · exact p.admits_high
  · have h1 := Double.le_of_not_lt hx p.code_low_le hl
    have h2 := Double.le_of_not_lt p.code_high_lt.le hx hh
    exact ⟨isFinite_of_le h1 h2, h1, h2, fun h => hwhole h (bounds_of_le h1 h2).1⟩

/-- **Clamped values lie in the domain.** -/
theorem clamp?_admits {p : Param} {value x : Float} (h : p.clamp? value = some x) :
    p.Admits x := by
  unfold clamp? at h
  by_cases hfin : value.isFinite
  · rw [if_pos hfin] at h
    cases h
    by_cases hwhole : p.isWhole
    · rw [if_pos hwhole]
      exact admits_between (Double.code_roundAway_le hfin) fun _ => Double.roundAway_eq_ofNat hfin
    · rw [if_neg hwhole]
      exact admits_between (Double.isFinite_iff.mp hfin).le fun h => absurd h hwhole
  · rw [if_neg hfin] at h
    cases h

/-! ### Counts and lengths -/

/-- **A count is a whole number from one to ten.** -/
theorem Admits.count {x : Float} (h : times.Admits x) :
    ∃ n, x = Double.ofNat n ∧ 1 ≤ n ∧ n ≤ 10 ∧ x.toUInt32.toNat = n := by
  have hsmall : ∀ n < 16, times.low ≤ Double.ofNat n → Double.ofNat n ≤ times.high →
      1 ≤ n ∧ n ≤ 10 ∧ (Double.ofNat n).toUInt32.toNat = n := by decide
  obtain ⟨-, -, hle⟩ := h.bounds
  obtain ⟨-, hl, hh, hwhole⟩ := h
  obtain ⟨n, rfl⟩ := hwhole rfl
  have hn : n < 16 := by
    by_contra hge
    have hcode := @Double.le_code_ofNat n 4 (Nat.not_lt.mp hge) (by omega)
    have hhigh : code times.high < (1023 + 4) * 2 ^ 52 := by decide
    omega
  exact ⟨n, rfl, hsmall n hn hl hh⟩

end Param

theorem Duration.ofSeconds_eq_ok {x : Float} {d : Duration} :
    ofSeconds x = .ok d ↔ (¬ x < 0.0 ∧ x.isFinite = true) ∧
      roundDiv .toEven ((Double.magnitude x).num * nanosPerSecond) (Double.magnitude x).den =
        d.nanos ∧ d.nanos < limit := by
  unfold ofSeconds
  obtain ⟨n⟩ := d
  split_ifs with hneg hfin
  · simp [hneg]
  · simp only
    split_ifs with hlt
    · simp only [Except.ok.injEq, Duration.mk.injEq, hneg, hfin, not_false_iff, and_self, true_and]
      exact ⟨fun h => ⟨h, h ▸ hlt⟩, And.left⟩
    · simp only [false_iff]
      rintro ⟨-, rfl, h⟩
      exact hlt h
  · simp [hfin]

theorem Duration.ofSeconds_of_code {x : Float} {k : ℕ} (hneg : ¬ x < 0.0)
    (hcode : code x < (1023 + k) * 2 ^ 52) (hk : k < 64) :
    ∃ d, Duration.ofSeconds x = .ok d ∧ d.nanos ≤ 2 ^ k * Duration.nanosPerSecond := by
  have hinf := Double.infinity_eq
  have hfin : x.isFinite = true := Double.isFinite_iff.mpr (by omega)
  obtain ⟨n, hn⟩ : ∃ n, roundDiv .toEven ((Double.magnitude x).num * Duration.nanosPerSecond)
      (Double.magnitude x).den = n := ⟨_, rfl⟩
  have hnanos : n ≤ 2 ^ k * Duration.nanosPerSecond := by
    rw [← hn]
    refine roundDiv_le _ ?_
    rw [Nat.mul_right_comm]
    exact Nat.mul_lt_mul_of_pos_right (Double.num_lt hcode) (by decide)
  have hlimit : 2 ^ k * Duration.nanosPerSecond < Duration.limit :=
    Nat.mul_lt_mul_of_pos_right (Nat.pow_lt_pow_right (by norm_num) hk) (by decide)
  exact ⟨⟨n⟩, Duration.ofSeconds_eq_ok.mpr ⟨⟨hneg, hfin⟩, hn, hnanos.trans_lt hlimit⟩, hnanos⟩

/-- **The length of a straight motion is a duration.** -/
theorem Duration.ofSeconds_of_admits {x : Float} (h : Param.duration.Admits x) :
    ∃ d, Duration.ofSeconds x = .ok d := by
  obtain ⟨hn, -, hle⟩ := h.bounds
  have hneg : ¬ x < 0.0 := by
    rw [Double.lt_iff, show rank 0.0 = 0 by decide, rank, signed, hn]
    simp
  have hhigh : code Param.duration.high < (1023 + 4) * 2 ^ 52 := by decide
  obtain ⟨d, hd, -⟩ := Duration.ofSeconds_of_code hneg (lt_of_le_of_lt hle hhigh) (by norm_num)
  exact ⟨d, hd⟩

end Choreo
