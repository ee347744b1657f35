import Choreo.Proofs.Block.Clamped
import Choreo.Proofs.Number.Monotone
import Choreo.Proofs.Run.Sweeps

/-! # Larger turns take no less

The length of a turn and the number of its ticks are calculated in many steps, each of which
rounds: degrees to radians, over the rate, to whole nanoseconds, back to seconds, over the tick, up
to a whole number. Each step keeps the order, so a larger angle takes no less time and no fewer
ticks (`Timing.larger_turns_take_no_less`).

The step back to seconds adds the whole seconds and the rest of one, both rounded before. It keeps
the order also where the seconds go one up and the rest falls back (`Duration.code_seconds_le`). The
ticks of a longer time are no fewer whatever the tick is, also if it is zero (`sweepTicks_le`). -/

namespace Choreo

open Double (code codeValue isNegative nearestCode)

/-! ### Numbers rounded up -/

namespace Double

variable {x y : Float}

theorem ceilUpTo_le_top (top : ℕ) (x : Float) : ceilUpTo top x ≤ top := by
  unfold ceilUpTo
  split_ifs
  · exact Nat.zero_le _
  · exact Nat.min_le_right _ _
  · exact le_rfl

theorem ceilUpTo_of_infinite (top : ℕ) (hx : code x = BinaryFormat.double.infinity)
    (hn : isNegative x = false) : ceilUpTo top x = top := by
  have hnumber : (x.isNaN || isNegative x) = false := by
    rw [isNaN_eq_false hx.le, hn, Bool.or_false]
  have hfin : ¬ x.isFinite = true := mt isFinite_iff.mp hx.not_lt
  rw [ceilUpTo, hnumber, if_neg Bool.false_ne_true, if_neg hfin]

/-- **Rounding up keeps the order.** -/
theorem ceilUpTo_mono (top : ℕ) (hxn : isNegative x = false) (hyn : isNegative y = false)
    (hy : code y ≤ BinaryFormat.double.infinity) (h : code x ≤ code y) :
    ceilUpTo top x ≤ ceilUpTo top y := by
  rcases hy.lt_or_eq with hfin | hinf
  · have hx := h.trans_lt hfin
    rw [ceilUpTo_eq top hx hxn, ceilUpTo_eq top hfin hyn]
    exact min_le_min_right _ (Nat.ceil_mono (codeValue_le hx hfin h))
  · rw [ceilUpTo_of_infinite top hinf hyn]
    exact ceilUpTo_le_top top x

end Double

/-! ### Durations -/

namespace Duration

variable {x y : Float} {d e : Duration}

/-- **A greater number of seconds is no shorter duration.** -/
theorem ofSeconds_le (h0 : 0.0 ≤ x) (h : code x ≤ code y) (hy : ofSeconds y = .ok e) :
    ∃ d, ofSeconds x = .ok d ∧ d.nanos ≤ e.nanos := by
  obtain ⟨⟨-, hfin⟩, hnanos, hlimit⟩ := ofSeconds_eq_ok.mp hy
  have hycode := Double.isFinite_iff.mp hfin
  have hxcode := h.trans_lt hycode
  obtain ⟨n, hn⟩ : ∃ n, roundDiv .toEven ((Double.magnitude x).num * nanosPerSecond)
      (Double.magnitude x).den = n := ⟨_, rfl⟩
  have hle : n ≤ e.nanos := by
    rw [← hn, ← hnanos]
    refine roundDiv_mono _ (Dyadic.den_pos _) (Dyadic.den_pos _) ?_
    rw [Nat.mul_right_comm, Nat.mul_right_comm _ nanosPerSecond]
    exact Nat.mul_le_mul_right _ (Double.magnitude_le hxcode hycode h)
  exact ⟨⟨n⟩, ofSeconds_eq_ok.mpr
    ⟨⟨Double.not_lt_of_le h0, Double.isFinite_iff.mpr hxcode⟩, hn, hle.trans_lt hlimit⟩, hle⟩

theorem rest_lt_one {r : ℕ} (hr : r < nanosPerSecond) :
    (code (Double.ofNat r / 1e9) < BinaryFormat.double.infinity ∧
      isNegative (Double.ofNat r / 1e9) = false) ∧
      codeValue (code (Double.ofNat r / 1e9)) < 1 := by
  obtain ⟨⟨hfin, hn⟩, -⟩ := Double.near_ofNat (hr.trans (by decide))
  obtain ⟨⟨hgreatest, -⟩, -⟩ :=
    Double.near_ofNat (n := nanosPerSecond - 1) (by decide)
  obtain ⟨⟨hb, hbn⟩, hb0, -⟩ := Double.billion
  have hle : code (Double.ofNat r / 1e9) ≤ code (Double.ofNat (nanosPerSecond - 1) / 1e9) :=
    Double.code_div_le_left hfin hgreatest hb hb0 (Double.code_ofNat_le (by omega))
  have hlast : code (Double.ofNat (nanosPerSecond - 1) / 1e9) < (1023 + 0) * 2 ^ 52 := by
    decide +kernel
  have hcode := hle.trans_lt hlast
  have hinf := Double.infinity_eq
  refine ⟨⟨by omega, ?_⟩, ?_⟩
  · rw [(Double.code_div hfin hb hb0).2, hn, hbn]
    rfl
  · have hlt := Double.num_lt hcode
    rw [Nat.pow_zero, Nat.one_mul] at hlt
    rw [codeValue, Dyadic.value_eq, div_lt_one (Nat.cast_pos.mpr (Dyadic.den_pos _))]
    exact Nat.cast_lt.mpr hlt

/-- **A longer duration is no smaller number of seconds.** -/
theorem code_seconds_le (h : d.nanos ≤ e.nanos) (he : e.nanos < limit) :
    code d.seconds ≤ code e.seconds := by
  have hpos : 0 < nanosPerSecond := by decide
  have hwhole := Nat.div_le_div_right (c := nanosPerSecond) h
  have hlast : e.nanos / nanosPerSecond < 2 ^ 64 := (Nat.div_lt_iff_lt_mul hpos).mpr he
  obtain ⟨⟨hw, hwn⟩, -⟩ := Double.near_ofNat (hwhole.trans_lt hlast)
  obtain ⟨⟨hw', hwn'⟩, -⟩ := Double.near_ofNat hlast
  obtain ⟨⟨hr, hrn⟩, hone⟩ := rest_lt_one (Nat.mod_lt d.nanos hpos)
  obtain ⟨⟨hr', hrn'⟩, -⟩ := rest_lt_one (Nat.mod_lt e.nanos hpos)
  rw [seconds, seconds]
  rcases hwhole.lt_or_eq with hlt | heq
  · -- the rest may fall back, but it does not reach the next second
    rw [(Double.code_add hw hr hwn hrn).1, (Double.code_add hw' hr' hwn' hrn').1]
    calc nearestCode (codeValue (code (Double.ofNat (d.nanos / nanosPerSecond))) +
          codeValue (code (Double.ofNat (d.nanos % nanosPerSecond) / 1e9)))
        ≤ code (Double.ofNat (e.nanos / nanosPerSecond)) :=
          Double.nearestCode_ofNat_add_le hlt (Double.codeValue_nonneg _) hone hw'
      _ = nearestCode (codeValue (code (Double.ofNat (e.nanos / nanosPerSecond)))) :=
          (Double.nearestCode_codeValue hw').symm
      _ ≤ _ := Double.nearestCode_mono (Double.codeValue_nonneg _)
          (le_add_of_nonneg_right (Double.codeValue_nonneg _))
  · have hrest : d.nanos % nanosPerSecond ≤ e.nanos % nanosPerSecond := by
      have hd := Nat.div_add_mod d.nanos nanosPerSecond
      have he := Nat.div_add_mod e.nanos nanosPerSecond
      rw [heq] at hd
      omega
    obtain ⟨⟨hn, -⟩, -⟩ := Double.near_ofNat (n := d.nanos % nanosPerSecond)
      ((Nat.mod_lt _ hpos).trans (by decide))
    obtain ⟨⟨hn', -⟩, -⟩ := Double.near_ofNat (n := e.nanos % nanosPerSecond)
      ((Nat.mod_lt _ hpos).trans (by decide))
    obtain ⟨⟨hb, -⟩, hb0, -⟩ := Double.billion
    exact Double.code_add_le hw hr hwn hrn hw' hr' hwn' hrn' (Double.code_ofNat_le hwhole)
      (Double.code_div_le_left hn hn' hb hb0 (Double.code_ofNat_le hrest))

end Duration

/-! ### Turns -/

namespace Timing

variable {t : Timing} {d e : Duration} {a b : Float}

/-- **A longer time has no fewer ticks**, whatever the tick. -/
theorem sweepTicks_le (htick : t.tick < 2 ^ 64) (h : d.nanos ≤ e.nanos)
    (he : e.nanos < Duration.limit) : t.sweepTicks d ≤ t.sweepTicks e := by
  have hcode := Duration.code_seconds_le h he
  obtain ⟨⟨hx, hxn⟩, -⟩ := Duration.near_seconds (h.trans_lt he)
  obtain ⟨⟨hy, hyn⟩, -⟩ := Duration.near_seconds he
  by_cases h0 : t.tick = 0
  · -- a tick of no time is reached without end by every time but that of zero
    have hzero : t.tickDuration.seconds = 0.0 := by
      rw [tickDuration, h0]
      decide +kernel
    by_cases he0 : e.nanos = 0
    · obtain rfl : d = e := congrArg Duration.mk (show d.nanos = e.nanos by omega)
      exact le_rfl
    · obtain ⟨hinf, hn⟩ := Double.code_div_zero hy hyn (Duration.code_seconds_ne_zero he he0)
      rw [sweepTicks, sweepTicks, hzero, Double.ceilUpTo_of_infinite maxTicks hinf hn]
      exact Double.ceilUpTo_le_top _ _
  · have htick0 : t.tickDuration.nanos ≠ 0 := by rw [nanos_tickDuration]; omega
    have hlimit : t.tickDuration.nanos < Duration.limit := by
      rw [nanos_tickDuration, show Duration.limit = 2 ^ 64 * 10 ^ 9 from rfl]
      omega
    obtain ⟨⟨ht, htn⟩, -⟩ := Duration.near_seconds hlimit
    have ht0 := Duration.code_seconds_ne_zero hlimit htick0
    obtain ⟨hq, hqn⟩ := Double.code_div hy ht ht0
    have hpn := (Double.code_div hx ht ht0).2
    rw [hyn, htn] at hqn
    rw [hxn, htn] at hpn
    exact Double.ceilUpTo_mono maxTicks hpn hqn (hq ▸ Double.nearestCode_le_infinity _)
      (Double.code_div_le_left hx hy ht ht0 hcode)

/-- **A larger angle takes no fewer seconds.** -/
theorem code_turnSeconds_le (hchecked : t.validate = .ok ()) (h0 : 0.0 ≤ a) (h : a ≤ b)
    (hfin : (t.turnSeconds b).isFinite = true) :
    0.0 ≤ t.turnSeconds a ∧ code (t.turnSeconds a) ≤ code (t.turnSeconds b) := by
  obtain ⟨hrate, hraten, hrate0⟩ := rate_of_validate hchecked
  have hrate := Double.isFinite_iff.mp hrate
  have hfactor : code radiansPerDegree < BinaryFormat.double.infinity ∧
      isNegative radiansPerDegree = false := by decide +kernel
  have hproduct := Double.isFinite_of_div hfin
  have hb := Double.isFinite_iff.mp (Double.isFinite_of_mul hproduct)
  have hab := Double.code_le_of_le h0 h
  have ha := hab.trans_lt hb
  have hradians := Double.code_mul_le ha hb hfactor.1 hab
  have hproduct := Double.isFinite_iff.mp hproduct
  have hradiansFin := hradians.trans_lt hproduct
  have hpos := Double.zero_le_mul ha hfactor.1 h0 hfactor.2
  exact ⟨Double.zero_le_div hradiansFin hrate hpos hraten hrate0,
    Double.code_div_le_left hradiansFin hproduct hrate hrate0 hradians⟩

/-- **Larger turns take no less.** Under a checked timing, if a turn has a duration so has every
turn by an angle from zero up to its own, which takes no longer and sweeps for no more ticks. That
the ticks are no fewer for a longer duration is so under every timing, checked or not. -/
theorem larger_turns_take_no_less (htick : t.tick < 2 ^ 64) :
    (t.validate = .ok () → ∀ a b e, 0.0 ≤ a → a ≤ b → t.turnDuration b = .ok e →
      ∃ d, t.turnDuration a = .ok d ∧ d.nanos ≤ e.nanos ∧ t.sweepTicks d ≤ t.sweepTicks e) ∧
    ∀ d e : Duration, d.nanos ≤ e.nanos → e.nanos < Duration.limit →
      t.sweepTicks d ≤ t.sweepTicks e := by
  refine ⟨fun hchecked a b e h0 h hb => ?_, fun d e => sweepTicks_le htick⟩
  obtain ⟨⟨-, hfin⟩, -, hlimit⟩ := Duration.ofSeconds_eq_ok.mp hb
  obtain ⟨hpos, hcode⟩ := code_turnSeconds_le hchecked h0 h hfin
  obtain ⟨d, hd, hle⟩ := Duration.ofSeconds_le hpos hcode hb
  exact ⟨d, hd, hle, sweepTicks_le htick hle hlimit⟩

end Timing

/-- One nanosecond short of a second a turn sweeps for ten ticks, one nanosecond past it for
eleven. -/
theorem turns_around_one_second :
    ∃ t : Timing, t = {} ∧ t.tick < 2 ^ 64 ∧ t.validate = .ok () ∧ (0.0 : Float) ≤ 20.82128625 ∧
      (20.82128625 : Float) ≤ 20.8212863 ∧ t.turnDuration 20.8212863 = .ok ⟨1000000001⟩ ∧
      t.turnDuration 20.82128625 = .ok ⟨999999999⟩ ∧ t.sweepTicks ⟨999999999⟩ = 10 ∧
      t.sweepTicks ⟨1000000001⟩ = 11 ∧ t.sweepTicks ⟨999999999⟩ ≤ t.sweepTicks ⟨1000000001⟩ := by
  have hchecked : Timing.validate {} = .ok () := Timing.validate_iff.mpr (by decide +kernel)
  have hshort : Timing.turnDuration {} 20.82128625 = .ok ⟨999999999⟩ := by decide +kernel
  have hlong : Timing.turnDuration {} 20.8212863 = .ok ⟨1000000001⟩ := by decide +kernel
  have h0 : (0.0 : Float) ≤ 20.82128625 := by decide +kernel
  have hle : (20.82128625 : Float) ≤ 20.8212863 := by decide +kernel
  obtain ⟨hturns, -⟩ := Timing.larger_turns_take_no_less (t := {}) (by decide)
  obtain ⟨d, hd, -, hticks⟩ := hturns hchecked _ _ _ h0 hle hlong
  rw [hshort] at hd
  cases hd
  exact ⟨{}, rfl, by decide, hchecked, h0, hle, hlong, hshort, by decide +kernel,
    by decide +kernel, hticks⟩

end Choreo
