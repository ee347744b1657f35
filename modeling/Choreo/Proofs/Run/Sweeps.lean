import Choreo.Proofs.Number.Monotone
import Choreo.Proofs.Run.Turns

/-! # How long turns sweep

A turn publishes a velocity for each tick of its length. The number of ticks is the length in
seconds over the tick in seconds, rounded up, and both numbers of seconds and their quotient are
doubles. Seven roundings go into it, so it is within one part in `2 ^ 50` of the exact quotient
(`Timing.exists_sweep`).

This is as good as exact for lengths below `2 ^ 50` nanoseconds, about thirteen days, that are not
whole numbers of ticks: an exact quotient that is no whole number is further from the next one than
the error. At a whole number of ticks the quotient can come out above it, and the sweep is one tick
too long. -/

namespace Choreo

open Double (code codeValue isNegative nearestCode Near Ordinary)

/-! ### Quotients rounded up -/

theorem ceilDiv_le_iff {num den k : ℕ} (hden : 0 < den) :
    ceilDiv num den ≤ k ↔ num ≤ k * den := by
  rw [ceilDiv, Nat.div_le_iff_le_mul_add_pred hden, Nat.mul_comm]
  omega

theorem ceilDiv_eq_ceil (num : ℕ) {den : ℕ} (hden : 0 < den) :
    ceilDiv num den = ⌈(num : ℚ) / den⌉₊ := by
  refine eq_of_forall_ge_iff fun k => ?_
  rw [ceilDiv_le_iff hden, Nat.ceil_le, div_le_iff₀ (Nat.cast_pos.mpr hden)]
  exact_mod_cast Iff.rfl

theorem Double.ceilUpTo_eq (top : ℕ) {x : Float} (hx : code x < BinaryFormat.double.infinity)
    (hn : isNegative x = false) : ceilUpTo top x = min ⌈codeValue (code x)⌉₊ top := by
  have hnumber : (x.isNaN || isNegative x) = false := by
    rw [Double.isNaN_eq_false hx.le, hn, Bool.or_false]
  rw [ceilUpTo, hnumber, if_neg Bool.false_ne_true, if_pos (Double.isFinite_iff.mpr hx), magnitude,
    ceilDiv_eq_ceil _ (Dyadic.den_pos _), codeValue, Dyadic.value_eq]

/-! ### Numbers of seconds -/

theorem Double.near_ofNat {n : ℕ} (hn : n < 2 ^ 64) :
    (code (ofNat n) < BinaryFormat.double.infinity ∧ isNegative (ofNat n) = false) ∧
      Near 1 n (codeValue (code (ofNat n))) := by
  have hordinary : Ordinary (n : ℚ) := by
    simpa using Double.ordinary_div (hn.trans (by norm_num)) one_pos (by norm_num)
  obtain ⟨hfin, hnear⟩ := (Near.refl (n : ℚ)).rounded (Nat.zero_le _) hordinary (Nat.cast_nonneg _)
  rw [code_ofNat]
  exact ⟨⟨hfin, isNegative_ofCode _ (nearest_le_infinity _ _)⟩, hnear⟩

theorem Double.billion : (code 1e9 < BinaryFormat.double.infinity ∧ isNegative 1e9 = false) ∧
    code 1e9 ≠ 0 ∧ codeValue (code 1e9) = 10 ^ 9 := by
  have hnum : (BinaryFormat.double.dyadic (code 1e9)).num =
      10 ^ 9 * (BinaryFormat.double.dyadic (code 1e9)).den := by decide +kernel
  refine ⟨by decide +kernel, by decide +kernel, ?_⟩
  have hden := Nat.cast_pos (α := ℚ).mpr (BinaryFormat.double.dyadic (code 1e9)).den_pos
  rw [codeValue, Dyadic.value_eq, hnum, Nat.cast_mul, mul_div_cancel_right₀ _ hden.ne']
  norm_num

namespace Duration

variable {d : Duration}

theorem ordinary_seconds {n : ℕ} (hn : n < limit) : Ordinary ((n : ℚ) / 10 ^ 9) := by
  have h := Double.ordinary_div (hn.trans (show limit < 2 ^ 100 by decide))
    (show 0 < 10 ^ 9 by norm_num) (by norm_num)
  exact_mod_cast h

/-- **A duration in seconds** is three roundings away from the exact number. -/
theorem near_seconds (hd : d.nanos < limit) :
    (code d.seconds < BinaryFormat.double.infinity ∧ isNegative d.seconds = false) ∧
      Near 3 (d.nanos / 10 ^ 9) (codeValue (code d.seconds)) := by
  have hlimit : limit = 2 ^ 64 * 10 ^ 9 := rfl
  obtain ⟨⟨hw, hwn⟩, hwhole⟩ :=
    Double.near_ofNat (n := d.nanos / nanosPerSecond) (by rw [nanosPerSecond]; omega)
  obtain ⟨⟨hr, hrn⟩, hrest⟩ :=
    Double.near_ofNat (n := d.nanos % nanosPerSecond) (by rw [nanosPerSecond]; omega)
  obtain ⟨⟨hb, hbn⟩, hb0, hbillion⟩ := Double.billion
  -- the rest of a second
  obtain ⟨hq, hqn⟩ := Double.code_div hr hb hb0
  rw [hrn, hbn] at hqn
  rw [hbillion] at hq
  have hpart := hrest.div (Near.refl (10 ^ 9)) (Nat.cast_nonneg _) (Double.codeValue_nonneg _)
    (by norm_num) (by norm_num)
  have hordinary : Ordinary ((d.nanos % nanosPerSecond : ℕ) / 10 ^ 9) :=
    ordinary_seconds ((Nat.mod_le _ _).trans_lt hd)
  obtain ⟨hqfin, hpart⟩ := hpart.rounded (by norm_num) hordinary
    (div_nonneg (Double.codeValue_nonneg _) (by norm_num))
  rw [← hq] at hqfin hpart
  -- and the whole seconds
  obtain ⟨hs, hsn⟩ := Double.code_add hw hqfin hwn hqn
  have hsum := (hwhole.mono (show 1 ≤ 2 by norm_num) (Nat.cast_nonneg _)
    (Double.codeValue_nonneg _)).add hpart
  have hexact : ((d.nanos / nanosPerSecond : ℕ) : ℚ) + (d.nanos % nanosPerSecond : ℕ) / 10 ^ 9 =
      d.nanos / 10 ^ 9 := by
    have hsplit : ((d.nanos / 10 ^ 9 * 10 ^ 9 + d.nanos % 10 ^ 9 : ℕ) : ℚ) = d.nanos := by
      rw [Nat.div_add_mod']
    rw [← hsplit, nanosPerSecond]
    push_cast
    ring
  rw [hexact] at hsum
  obtain ⟨hsfin, hsum⟩ := hsum.rounded (by norm_num) (ordinary_seconds hd)
    (add_nonneg (Double.codeValue_nonneg _) (Double.codeValue_nonneg _))
  rw [← hs] at hsfin hsum
  exact ⟨⟨hsfin, hsn⟩, hsum⟩

theorem code_seconds_ne_zero (hd : d.nanos < limit) (h0 : d.nanos ≠ 0) : code d.seconds ≠ 0 := by
  obtain ⟨-, hnear⟩ := near_seconds hd
  have hpos : (0 : ℚ) < d.nanos / 10 ^ 9 :=
    div_pos (Nat.cast_pos.mpr (Nat.pos_of_ne_zero h0)) (by norm_num)
  intro hzero
  have hle := hnear.le_two_mul (by norm_num) hpos.le
  rw [hzero, Double.codeValue_zero, mul_zero] at hle
  exact absurd hpos (not_lt.mpr hle)

end Duration

/-! ### Ticks -/

namespace Timing

variable {t : Timing} {d : Duration}

/-- The least number of ticks that last as long as `d`. -/
def ticksFor (t : Timing) (d : Duration) : ℕ := ceilDiv d.nanos t.tickDuration.nanos

theorem nanos_tickDuration (t : Timing) : t.tickDuration.nanos = t.tick * 10 ^ 6 := rfl

theorem cast_nanos_tickDuration_pos (h0 : t.tick ≠ 0) : (0 : ℚ) < t.tickDuration.nanos := by
  rw [Nat.cast_pos, nanos_tickDuration]
  omega

theorem ticksFor_le_iff (h0 : t.tick ≠ 0) (n : ℕ) :
    t.ticksFor d ≤ n ↔ d.nanos ≤ n * t.tickDuration.nanos :=
  ceilDiv_le_iff (by rw [nanos_tickDuration]; omega)

/-- **The number of ticks is an inexact quotient rounded up.** -/
theorem exists_sweep (h0 : t.tick ≠ 0) (htick : t.tick < 2 ^ 64) (hd : d.nanos < Duration.limit) :
    ∃ q : ℚ, t.sweepTicks d = min ⌈q⌉₊ maxTicks ∧
      |q * t.tickDuration.nanos - d.nanos| ≤ d.nanos / 2 ^ 50 := by
  have hlimit : Duration.limit = 2 ^ 64 * 10 ^ 9 := rfl
  have htick' : t.tickDuration.nanos < Duration.limit := by rw [nanos_tickDuration]; omega
  have hordinary : Ordinary (d.nanos / t.tickDuration.nanos) :=
    Double.ordinary_div (by omega) (by rw [nanos_tickDuration]; omega) (by omega)
  obtain ⟨⟨hx, hxn⟩, hnear⟩ := Duration.near_seconds hd
  obtain ⟨⟨hy, hyn⟩, hnear'⟩ := Duration.near_seconds htick'
  have htick0 := cast_nanos_tickDuration_pos h0
  have hpos : (0 : ℚ) < t.tickDuration.nanos / 10 ^ 9 := div_pos htick0 (by norm_num)
  have hy0 := Duration.code_seconds_ne_zero htick' (Nat.cast_pos.mp htick0).ne'
  obtain ⟨hq, hqn⟩ := Double.code_div hx hy hy0
  rw [hxn, hyn] at hqn
  have hquotient := hnear.div hnear' (div_nonneg (Nat.cast_nonneg _) (by norm_num))
    (Double.codeValue_nonneg _) hpos (Double.codeValue_pos hy0)
  rw [div_div_div_cancel_right₀ (by norm_num)] at hquotient
  obtain ⟨hfin, hrounded⟩ := hquotient.rounded (by norm_num) hordinary
    (div_nonneg (Double.codeValue_nonneg _) (Double.codeValue_nonneg _))
  rw [← hq] at hfin hrounded
  refine ⟨_, Double.ceilUpTo_eq maxTicks hfin hqn, ?_⟩
  -- the error of the quotient, in nanoseconds
  have herror := hrounded.abs_sub_le (div_nonneg (Nat.cast_nonneg _) htick0.le)
    (Double.codeValue_nonneg _)
  have hscale := abs_mul (codeValue (code (d.seconds / t.tickDuration.seconds)) -
    d.nanos / t.tickDuration.nanos) t.tickDuration.nanos
  rw [abs_of_pos htick0, sub_mul, div_mul_cancel₀ _ htick0.ne'] at hscale
  have hscaled := mul_le_mul_of_nonneg_right herror htick0.le
  rwa [← hscale, div_right_comm, div_mul_cancel₀ _ htick0.ne'] at hscaled

section

variable (h0 : t.tick ≠ 0) (htick : t.tick < 2 ^ 64) (hd : d.nanos < Duration.limit)
include h0 htick hd

theorem sweepTicks_of_lt (h : maxTicks < t.ticksFor d) : t.sweepTicks d = maxTicks := by
  obtain ⟨q, hq, herror⟩ := exists_sweep h0 htick hd
  have htick0 := cast_nanos_tickDuration_pos h0
  obtain ⟨hlow, -⟩ := abs_le.mp herror
  have hlong : (maxTicks : ℚ) * t.tickDuration.nanos < d.nanos := by
    exact_mod_cast Nat.not_le.mp (mt (ticksFor_le_iff h0 maxTicks).mpr (Nat.not_le.mpr h))
  have hceil : maxTicks - 1 < ⌈q⌉₊ := by
    refine Nat.lt_ceil.mpr (lt_of_mul_lt_mul_right ?_ htick0.le)
    norm_num [maxTicks] at hlong ⊢
    linarith
  rw [hq, min_eq_right (by omega)]

theorem sweepTicks_bounds (h : t.ticksFor d ≤ maxTicks) :
    t.ticksFor d ≤ t.sweepTicks d + 1 ∧ t.sweepTicks d ≤ t.ticksFor d + 1 := by
  obtain ⟨q, hq, herror⟩ := exists_sweep h0 htick hd
  have htick0 := cast_nanos_tickDuration_pos h0
  obtain ⟨hlow, hhigh⟩ := abs_le.mp herror
  have hnanos : (d.nanos : ℚ) ≤ t.ticksFor d * t.tickDuration.nanos := by
    exact_mod_cast (ticksFor_le_iff h0 _).mp le_rfl
  have hticks : (t.ticksFor d : ℚ) ≤ 2 ^ 50 := by
    exact_mod_cast h.trans (by norm_num [maxTicks])
  -- the error is no more than one tick
  have hone : (d.nanos : ℚ) / 2 ^ 50 ≤ t.tickDuration.nanos := by
    rw [div_le_iff₀ (by norm_num), mul_comm]
    exact hnanos.trans (mul_le_mul_of_nonneg_right hticks htick0.le)
  have hup : ⌈q⌉₊ ≤ t.ticksFor d + 1 := by
    refine Nat.ceil_le.mpr (le_of_mul_le_mul_right ?_ htick0)
    push_cast
    linarith
  have hdown : t.ticksFor d ≤ ⌈q⌉₊ + 1 := by
    rw [ticksFor_le_iff h0]
    have hceil := mul_le_mul_of_nonneg_right (Nat.le_ceil q) htick0.le
    have hle : (d.nanos : ℚ) ≤ (⌈q⌉₊ + 1) * t.tickDuration.nanos := by linarith
    exact_mod_cast hle
  omega

theorem exists_sweep_of_lt (hshort : d.nanos < 2 ^ 50) :
    ∃ q : ℚ, t.sweepTicks d = min ⌈q⌉₊ maxTicks ∧ |q * t.tickDuration.nanos - d.nanos| < 1 := by
  obtain ⟨q, hq, herror⟩ := exists_sweep h0 htick hd
  refine ⟨q, hq, herror.trans_lt ?_⟩
  rw [div_lt_one (by norm_num)]
  exact_mod_cast hshort

theorem ticksFor_le_sweepTicks (h : t.ticksFor d ≤ maxTicks) (hshort : d.nanos < 2 ^ 50) :
    t.ticksFor d ≤ t.sweepTicks d := by
  obtain ⟨q, hq, herror⟩ := exists_sweep_of_lt h0 htick hd hshort
  obtain ⟨hlow, -⟩ := abs_lt.mp herror
  have hceil := mul_le_mul_of_nonneg_right (Nat.le_ceil q) (cast_nanos_tickDuration_pos h0).le
  have hlt : (d.nanos : ℚ) < ⌈q⌉₊ * t.tickDuration.nanos + 1 := by linarith
  have hcover : d.nanos ≤ ⌈q⌉₊ * t.tickDuration.nanos := Nat.lt_succ_iff.mp (by exact_mod_cast hlt)
  rw [hq]
  exact le_min ((ticksFor_le_iff h0 _).mpr hcover) h

/-- Within `2 ^ 50` nanoseconds no tick is too many, but at a whole number of ticks. -/
theorem sweepTicks_le_ticksFor (hshort : d.nanos < 2 ^ 50)
    (hdvd : ¬ t.tickDuration.nanos ∣ d.nanos) : t.sweepTicks d ≤ t.ticksFor d := by
  obtain ⟨q, hq, herror⟩ := exists_sweep_of_lt h0 htick hd hshort
  obtain ⟨-, hhigh⟩ := abs_lt.mp herror
  -- there is a nanosecond at least to the end of the last tick
  have hnanos : d.nanos + 1 ≤ t.ticksFor d * t.tickDuration.nanos := by
    refine lt_of_le_of_ne ((ticksFor_le_iff h0 _).mp le_rfl) fun heq => hdvd ?_
    exact heq ▸ Nat.dvd_mul_left _ _
  have hnanos : (d.nanos : ℚ) + 1 ≤ t.ticksFor d * t.tickDuration.nanos := by exact_mod_cast hnanos
  rw [hq]
  refine (min_le_left _ _).trans (Nat.ceil_le.mpr ?_)
  refine le_of_mul_le_mul_right ?_ (cast_nanos_tickDuration_pos h0)
  linarith

end

theorem nanos_lt_of_turnDuration {angle : Float} (h : t.turnDuration angle = .ok d) :
    d.nanos < Duration.limit :=
  (Duration.ofSeconds_eq_ok.mp h).2.2

/-- **How long a sweep lasts.** Under a checked timing the number of ticks of a sweep differs from
the least number of them that lasts as long as the turn by one at most, or is the greatest number
that can be counted if the turn needs more. For less than `2 ^ 50` nanoseconds no tick is missing,
and there is none too many unless the turn lasts a whole number of ticks. This is said for all
durations, and what a turn lasts is one. -/
theorem sweeps_last_nearly_as_long (hchecked : t.validate = .ok ()) (htick : t.tick < 2 ^ 64) :
    (∀ d n, t.ticksFor d ≤ n ↔ d.nanos ≤ n * t.tickDuration.nanos) ∧
    (∀ angle d, t.turnDuration angle = .ok d → d.nanos < Duration.limit) ∧
    ∀ d, d.nanos < Duration.limit →
      (maxTicks < t.ticksFor d → t.sweepTicks d = maxTicks) ∧
      (t.ticksFor d ≤ maxTicks →
        t.ticksFor d ≤ t.sweepTicks d + 1 ∧ t.sweepTicks d ≤ t.ticksFor d + 1) ∧
      (t.ticksFor d ≤ maxTicks → d.nanos < 2 ^ 50 → t.ticksFor d ≤ t.sweepTicks d ∧
        (¬ t.tickDuration.nanos ∣ d.nanos → t.sweepTicks d = t.ticksFor d)) := by
  obtain ⟨h0, -, -⟩ := validate_iff.mp hchecked
  refine ⟨fun d n => ticksFor_le_iff h0 n, fun angle d => nanos_lt_of_turnDuration, fun d hd =>
    ⟨sweepTicks_of_lt h0 htick hd, sweepTicks_bounds h0 htick hd, fun hmax hshort => ?_⟩⟩
  have hge := ticksFor_le_sweepTicks h0 htick hd hmax hshort
  exact ⟨hge, fun hdvd => le_antisymm (sweepTicks_le_ticksFor h0 htick hd hshort hdvd) hge⟩

end Timing

/-- Half a turn at the rates that hold by default sweeps for the 87 ticks that it lasts. -/
theorem half_turn_sweeps_87_ticks :
    ∃ t : Timing, t = {} ∧ t.validate = .ok () ∧ t.tick < 2 ^ 64 ∧
      ∃ d, t.turnDuration 180.0 = .ok d ∧ d.nanos ≤ 87 * t.tickDuration.nanos ∧
        t.sweepTicks d = 87 := by
  have hchecked : Timing.validate {} = .ok () := Timing.validate_iff.mpr (by decide +kernel)
  have hd : Timing.turnDuration {} 180.0 = .ok ⟨8644999047⟩ := by decide +kernel
  obtain ⟨hcover, hlimit, hticks⟩ := Timing.sweeps_last_nearly_as_long hchecked (by decide)
  obtain ⟨-, -, hshort⟩ := hticks _ (hlimit _ _ hd)
  have hneeded : Timing.ticksFor {} ⟨8644999047⟩ = 87 := rfl
  obtain ⟨-, hexact⟩ := hshort (by rw [hneeded]; decide) (by decide)
  exact ⟨{}, rfl, hchecked, by decide, _, hd, (hcover _ _).mp hneeded.le,
    (hexact (by decide)).trans hneeded⟩

/-- **A turn that lasts for 255 ticks sweeps for 256.** Its length is 7.65 seconds and the tick 0.03
seconds, and the quotient of the two doubles lies above 255. -/
theorem read_timing_sweeps_too_long :
    ∃ t d, Timing.ofText "[timing]\ntick_ms = 30\n" = .ok t ∧ t.validate = .ok () ∧
      Param.angle.Admits 159.28284 ∧ t.turnDuration 159.28284 = .ok d ∧
      d.nanos ≤ 255 * t.tickDuration.nanos ∧ t.sweepTicks d = 256 := by
  have hread : (match Timing.ofText "[timing]\ntick_ms = 30\n" with
      | .ok t => decide (t = { tick := 30 })
      | .error _ => false) = true := by decide +kernel
  rcases htext : Timing.ofText "[timing]\ntick_ms = 30\n" with fault | t
  · rw [htext] at hread
    cases hread
  rw [htext] at hread
  obtain rfl : t = { tick := 30 } := of_decide_eq_true hread
  have hangle : Param.angle.Admits 159.28284 :=
    ⟨by decide +kernel, by decide +kernel, by decide +kernel, nofun⟩
  exact ⟨{ tick := 30 }, ⟨7650000000⟩, rfl, Timing.validate_of_ofText htext, hangle,
    by decide +kernel, by decide, by decide +kernel⟩

end Choreo
