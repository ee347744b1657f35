import Choreo.Proofs.Number.Arithmetic
import Choreo.Proofs.Run.Execution
import Choreo.Timing.File

/-! # Turns that have no duration

The only step of valid blocks that can fail is one of a turn: its length may be too great for a
duration, or the sum of the length and one tick (`fail_mem_stepsOf_iff`). Checking a timing rules out
that the length is negative or no number, but not that it is too great: the check asks for a positive
rate and no more. Under rates from `1e-18` radians per second on every turn has a duration
(`turnFits_of_rate`). -/

namespace Choreo

open Double (code isNegative)

/-! ### The faults of a turn -/

/-- The durations that a turn by `angle` degrees waits for do not exist, for this reason. -/
def Timing.TurnFault (t : Timing) (angle : Float) (fault : DurationFault) : Prop :=
  t.turnDuration angle = .error fault ∨
    ∃ d, t.turnDuration angle = .ok d ∧ d.add t.tickDuration = .error fault

theorem Timing.not_turnFits_iff {t : Timing} {angle : Float} :
    ¬ t.TurnFits angle ↔ ∃ fault, t.TurnFault angle fault := by
  unfold TurnFits TurnFault
  rcases hd : t.turnDuration angle with fault | d
  · simp
  · rcases he : d.add t.tickDuration with fault | e
    · simp [he]
    · simp [he]

/-- A block of the kind is a turn. -/
def Kind.IsTurn (k : Kind) : Prop := k = .turnLeft ∨ k = .turnRight

theorem Timing.not_turnsFit_iff {t : Timing} {ls : List Leaf} : ¬ t.TurnsFit ls ↔
    ∃ fault, ∃ l ∈ ls, l.1.IsTurn ∧ t.TurnFault (l.2.value .angle) fault := by
  constructor
  · intro h
    by_contra hnone
    refine h fun l hl hturn => ?_
    by_contra hfits
    obtain ⟨fault, hfault⟩ := not_turnFits_iff.mp hfits
    exact hnone ⟨fault, l, hl, hturn, hfault⟩
  · rintro ⟨fault, l, hl, hturn, hfault⟩ h
    exact not_turnFits_iff.mpr ⟨fault, hfault⟩ (h l hl hturn)

theorem fail_mem_turnPhrases_iff (t : Timing) (motion : Motion) (angle : Float)
    (fault : DurationFault) :
    .fail fault ∈ (t.turnPhrases motion angle).flatMap Phrase.toList ↔ t.TurnFault angle fault := by
  unfold Timing.turnPhrases Timing.TurnFault
  rcases t.turnDuration angle with f | d
  · simp [eq_comm]
  · have hwait : Step.fail fault = .waitFor (d.add t.tickDuration) ↔
        d.add t.tickDuration = .error fault := by
      rcases d.add t.tickDuration with f | e
      · simp [Step.waitFor, eq_comm]
      · simp [Step.waitFor]
    have hsweep : ∀ f : Phrase, .fail fault ∉ f.steps → .fail fault ∉ f.toList :=
      fun f hf hmem => hf (mem_steps_of_mem_toList hmem)
    simp only [List.flatMap_cons, List.flatMap_nil, List.append_nil, List.mem_append,
      Phrase.toList_once]
    rw [or_iff_right (by simp), or_iff_right (hsweep _ (by simp [fail_ne_waitMillis]))]
    simp [hwait]

theorem fail_mem_actionSteps_iff (t : Timing) {l : Leaf} (hfits : l.2.Fits l.1)
    (fault : DurationFault) :
    .fail fault ∈ t.actionSteps l ↔ l.1.IsTurn ∧ t.TurnFault (l.2.value .angle) fault := by
  by_cases hturn : l.1.IsTurn
  · obtain ⟨kind, s⟩ := l
    have hphrases : ∃ motion, t.actionPhrases kind s = t.turnPhrases motion (s.value .angle) := by
      rcases hturn with rfl | rfl
      · exact ⟨.turnLeft, rfl⟩
      · exact ⟨.turnRight, rfl⟩
    obtain ⟨motion, hphrases⟩ := hphrases
    rw [Timing.actionSteps, hphrases, fail_mem_turnPhrases_iff]
    exact (and_iff_right hturn).symm
  · have hnot := fail_not_mem_actionSteps hfits (t := t) (fun h => absurd h hturn) fault
    exact ⟨fun h => absurd h hnot, fun h => absurd h.1 hturn⟩

/-- **The steps that fail are those of turns without a duration.** -/
theorem fail_mem_stepsOf_iff (t : Timing) (prev : Option Kind) {beats : List Beat}
    (hfits : ∀ l ∈ leavesOf beats, l.2.Fits l.1) (fault : DurationFault) :
    .fail fault ∈ t.stepsOf prev beats ↔
      ∃ l ∈ leavesOf beats, l.1.IsTurn ∧ t.TurnFault (l.2.value .angle) fault := by
  induction beats generalizing prev with
  | nil => simp [Timing.stepsOf, leavesOf]
  | cons beat beats ih =>
    have hquiet : beat.isQuiet = true → (.fail fault ∈ t.stepsOf prev (beat :: beats) ↔
        ∃ l ∈ leavesOf (beat :: beats), l.1.IsTurn ∧ t.TurnFault (l.2.value .angle) fault) := by
      intro hq
      obtain ⟨-, -, hfail, -, hleaves⟩ := effects_quiet t prev hq
      rw [hleaves] at hfits ⊢
      rw [Timing.stepsOf, List.mem_append, or_iff_right (hfail fault), ih _ hfits]
    cases beat with
    | checkpoint =>
      rw [Timing.stepsOf, beatSteps_checkpoint, List.mem_append, or_iff_right (by simp),
        ih _ hfits]
      rfl
    | leaf kind s =>
      rw [leavesOf_leaf] at hfits ⊢
      have hrest := ih (Timing.stepsOf.latest prev (.leaf kind s)) fun l hl =>
        hfits l (List.mem_cons_of_mem _ hl)
      have haction := fail_mem_actionSteps_iff t (hfits _ List.mem_cons_self) fault
      have hlocks := fail_not_mem_interlockSteps t prev kind fault
      have hdone : Step.fail fault ∉ [.done] := by simp
      rw [Timing.stepsOf, List.mem_append, hrest, beatSteps_leaf, List.mem_append,
        List.mem_append, or_iff_right hlocks, or_iff_left hdone, haction,
        List.exists_mem_cons_iff]
    | iteration n total => exact hquiet rfl
    | settle => exact hquiet rfl
    | rest => exact hquiet rfl

/-! ### Runs that fail -/

theorem Course.passes {m m' : Moment} (h : Course m m') :
    ∃ taken, m.1 = taken ++ m'.1 ∧ ∀ fault, .fail fault ∉ taken := by
  induction h using Relation.ReflTransGen.head_induction_on with
  | refl => exact ⟨[], rfl, fun _ => List.not_mem_nil⟩
  | @head m m' hm _ ih =>
    obtain ⟨taken, htaken, hfail⟩ := ih
    have hstep : ∃ step, m.1 = step :: m'.1 ∧ ∀ fault, Step.fail fault ≠ step := by
      cases hm <;> exact ⟨_, rfl, nofun⟩
    obtain ⟨step, hstep, hne⟩ := hstep
    refine ⟨step :: taken, by rw [hstep, htaken]; rfl, fun fault hmem => ?_⟩
    rcases List.mem_cons.mp hmem with h | h
    · exact hne fault h
    · exact hfail fault h

variable {t : Timing} {blocks : List Block}

theorem fail_mem_score_iff (t : Timing) (hvalid : Block.AllValid blocks) (fault : DurationFault) :
    .fail fault ∈ t.stepsOf none (beatsOf blocks) ↔
      ∃ l ∈ Block.leavesAll blocks, l.1.IsTurn ∧ t.TurnFault (l.2.value .angle) fault := by
  rw [← leavesOf_beatsOf]
  refine fail_mem_stepsOf_iff t none (fun l hl => ?_) fault
  rw [leavesOf_beatsOf] at hl
  exact (fits_of_mem_leavesAll blocks hvalid l hl).1

theorem Run.fault (hvalid : Block.AllValid blocks) {p q : Performance} {fault : DurationFault}
    (h : Run (t.stepsOf none (beatsOf blocks), p) q (.error fault)) :
    ∃ l ∈ Block.leavesAll blocks, l.1.IsTurn ∧ t.TurnFault (l.2.value .angle) fault := by
  obtain ⟨rest, hcourse, hends⟩ := h.course
  obtain ⟨taken, htaken, -⟩ := hcourse.passes
  cases hends
  have htaken : t.stepsOf none (beatsOf blocks) = taken ++ .fail fault :: _ := htaken
  refine (fail_mem_score_iff t hvalid fault).mp ?_
  rw [htaken]
  exact List.mem_append_right _ List.mem_cons_self

theorem Run.turnsFit (hvalid : Block.AllValid blocks) {p q : Performance}
    (h : Run (t.stepsOf none (beatsOf blocks), p) q (.ok .completed)) :
    t.TurnsFit (Block.leavesAll blocks) := by
  obtain ⟨rest, hcourse, hends⟩ := h.course
  obtain ⟨taken, htaken, hfail⟩ := hcourse.passes
  cases hends
  have htaken : t.stepsOf none (beatsOf blocks) = taken ++ [] := htaken
  rw [List.append_nil] at htaken
  by_contra hnot
  obtain ⟨fault, hfault⟩ := Timing.not_turnsFit_iff.mp hnot
  exact hfail fault (htaken ▸ (fail_mem_score_iff t hvalid fault).mpr hfault)

/-- A run that nobody cancels completes if all turns have durations, and else fails. -/
theorem Run.completed_or_failed (hvalid : Block.AllValid blocks) {p q : Performance}
    {result : Except DurationFault Outcome}
    (h : Run (t.stepsOf none (beatsOf blocks), p) q result) (hq : q.cancelled = false) :
    (result = .ok .completed ∧ t.TurnsFit (Block.leavesAll blocks)) ∨
      ∃ fault, result = .error fault ∧ ¬ t.TurnsFit (Block.leavesAll blocks) := by
  rcases result with fault | outcome
  · exact Or.inr ⟨fault, rfl, Timing.not_turnsFit_iff.mpr ⟨fault, h.fault hvalid⟩⟩
  cases outcome with
  | completed => exact Or.inl ⟨rfl, h.turnsFit hvalid⟩
  | cancelled =>
    obtain ⟨rest, -, hends⟩ := h.course
    cases hends with
    | cancelled stop =>
      rw [hq] at stop
      cases stop

/-! ### Checked timings -/

theorem Timing.validate_iff : t.validate = .ok () ↔
    t.tick ≠ 0 ∧ t.turnRate.isFinite = true ∧ ¬ t.turnRate ≤ 0.0 := by
  unfold Timing.validate
  split_ifs with h0 hrate
  · simp [h0]
  · simpa [h0] using hrate
  · simpa [h0] using hrate

theorem Timing.validate_of_ofText {text : String} (h : Timing.ofText text = .ok t) :
    t.validate = .ok () := by
  unfold Timing.ofText at h
  rcases hdocument : Toml.read? text with _ | document
  · rw [hdocument] at h
    cases h
  rw [hdocument] at h
  rcases hread : Toml.readUnder document "timing" TimingFile.read with fault | timing
  · simp [hread, bind, Except.bind, Except.mapError] at h
  rcases hchecked : (timing.getD {}).validate with fault | ⟨⟩
  · simp [hread, hchecked, bind, Except.bind, Except.mapError] at h
  · simp only [hread, hchecked, bind, Except.bind, Except.mapError, pure, Except.pure,
      Except.ok.injEq] at h
    rwa [h] at hchecked

theorem Timing.rate_of_validate (h : t.validate = .ok ()) : t.turnRate.isFinite = true ∧
    isNegative t.turnRate = false ∧ code t.turnRate ≠ 0 := by
  obtain ⟨-, hfin, hpos⟩ := Timing.validate_iff.mp h
  have hcode := Double.isFinite_iff.mp hfin
  have hzero : code 0.0 ≤ BinaryFormat.double.infinity ∧ Double.rank 0.0 = 0 := by decide
  rw [Double.le_iff, hzero.2, not_and] at hpos
  have hrank := hpos ⟨hcode.le, hzero.1⟩
  rw [Double.rank, Double.signed] at hrank
  cases hn : isNegative t.turnRate
  · simp only [hn, Bool.false_eq_true, if_false] at hrank
    exact ⟨hfin, rfl, by omega⟩
  · simp only [hn, if_true] at hrank
    omega

theorem code_radians {angle : Float} (h : Param.angle.Admits angle) :
    code (angle * Timing.radiansPerDegree) ≤ code (360.0 * Timing.radiansPerDegree) ∧
    code (angle * Timing.radiansPerDegree) < BinaryFormat.double.infinity ∧
    isNegative (angle * Timing.radiansPerDegree) = false := by
  have hfactor : code Timing.radiansPerDegree < BinaryFormat.double.infinity ∧
      isNegative Timing.radiansPerDegree = false := by decide +kernel
  have hcircle : code (360.0 * Timing.radiansPerDegree) < BinaryFormat.double.infinity := by
    decide +kernel
  obtain ⟨hn, -, hle⟩ := h.bounds
  have hfull := Param.angle.code_high_lt
  have hangle := lt_of_le_of_lt hle hfull
  have hcode := Double.code_mul_le hangle hfull hfactor.1 hle
  refine ⟨hcode, lt_of_le_of_lt hcode hcircle, ?_⟩
  rw [(Double.code_mul hangle hfactor.1).2, hn, hfactor.2]
  rfl

section

variable (h : t.validate = .ok ()) {angle : Float} (hangle : Param.angle.Admits angle)
include h hangle

theorem not_turnSeconds_lt : ¬ t.turnSeconds angle < 0.0 := by
  obtain ⟨hfin, hn, h0⟩ := Timing.rate_of_validate h
  obtain ⟨-, hcode, hsign⟩ := code_radians hangle
  have hquot := Double.code_div hcode (Double.isFinite_iff.mp hfin) h0
  rw [hsign, hn] at hquot
  rw [Double.lt_iff, show Double.rank 0.0 = 0 by decide, Double.rank, Double.signed,
    Timing.turnSeconds, hquot.2]
  simp

/-- **Under a checked timing the length of a turn is not negative.** -/
theorem not_turnFault_negative : ¬ t.TurnFault angle .negative := by
  rintro (hf | ⟨d, -, hf⟩)
  · rw [Timing.turnDuration, Duration.ofSeconds, if_neg (not_turnSeconds_lt h hangle)] at hf
    simp only at hf
    split_ifs at hf <;> simp at hf
  · rw [Duration.add] at hf
    split_ifs at hf
    simp at hf

/-- **Turns at a rate from `1e-18` radians per second on have durations**, whatever the tick. -/
theorem turnFits_of_rate (hrate : 1e-18 ≤ t.turnRate) (htick : t.tick < 2 ^ 64) :
    t.TurnFits angle := by
  obtain ⟨hfin, hn, -⟩ := Timing.rate_of_validate h
  obtain ⟨hle, hcode, -⟩ := code_radians hangle
  have hcircle : code (360.0 * Timing.radiansPerDegree) < BinaryFormat.double.infinity := by
    decide +kernel
  have hleast : code 1e-18 < BinaryFormat.double.infinity ∧ code 1e-18 ≠ 0 ∧
      isNegative 1e-18 = false := by decide +kernel
  have hlong : code (360.0 * Timing.radiansPerDegree / 1e-18) < (1023 + 63) * 2 ^ 52 := by
    decide +kernel
  have hrate : code 1e-18 ≤ code t.turnRate := by
    rw [Double.le_iff, Double.rank, Double.rank, hleast.2.2, hn] at hrate
    exact Int.ofNat_le.mp hrate.2
  have hrateFin := Double.isFinite_iff.mp hfin
  have hseconds : code (t.turnSeconds angle) < (1023 + 63) * 2 ^ 52 :=
    calc code (angle * Timing.radiansPerDegree / t.turnRate)
        ≤ code (angle * Timing.radiansPerDegree / 1e-18) :=
          Double.code_div_le_right hleast.1 hrateFin hcode hleast.2.1 hrate
      _ ≤ code (360.0 * Timing.radiansPerDegree / 1e-18) :=
          Double.code_div_le_left hcode hcircle hleast.1 hleast.2.1 hle
      _ < (1023 + 63) * 2 ^ 52 := hlong
  obtain ⟨d, hd, hnanos⟩ :=
    Duration.ofSeconds_of_code (not_turnSeconds_lt h hangle) hseconds (by norm_num)
  have hlimit : 2 ^ 63 * Duration.nanosPerSecond + 2 ^ 64 * Duration.nanosPerMilli <
      Duration.limit := by decide
  have htick : t.tick * Duration.nanosPerMilli ≤ 2 ^ 64 * Duration.nanosPerMilli :=
    Nat.mul_le_mul_right _ htick.le
  exact ⟨d, _, hd, if_pos (show d.nanos + t.tick * Duration.nanosPerMilli < _ by omega)⟩

end

/-- **What checking a timing rules out.** Under a checked timing a run of valid blocks, whoever acts
on it meanwhile, fails only at a turn, and only because the length of the turn, or the sum of its
length and one tick, is too great for a duration. A run that is left alone and not cancelled
completes if there is no such turn and fails if there is one. At rates from `1e-18` radians per
second on no run fails. -/
theorem checked_runs_fail_only_in_long_turns (hvalid : Block.AllValid blocks)
    (hchecked : t.validate = .ok ()) :
    (∀ p q fault, Run (t.stepsOf none (beatsOf blocks), p) q (.error fault) →
      (fault = .tooLarge ∨ fault = .sumTooLarge) ∧
      ∃ l ∈ Block.leavesAll blocks, l.1.IsTurn ∧ t.TurnFault (l.2.value .angle) fault) ∧
    (∀ p, (perform t blocks p).1.cancelled = false →
      ((perform t blocks p).2 = .ended .completed ∧ t.TurnsFit (Block.leavesAll blocks)) ∨
      (∃ fault, (perform t blocks p).2 = .failed fault) ∧
        ¬ t.TurnsFit (Block.leavesAll blocks)) ∧
    (1e-18 ≤ t.turnRate → t.tick < 2 ^ 64 →
      (∀ p q result, Run (t.stepsOf none (beatsOf blocks), p) q result →
        ∃ outcome, result = .ok outcome) ∧
      ∀ p, ∃ outcome, (perform t blocks p).2 = .ended outcome) := by
  refine ⟨fun p q fault hrun => ?_, fun p hq => ?_, fun hrate htick => ?_⟩
  · obtain ⟨l, hl, hturn, hfault⟩ := hrun.fault hvalid
    have hangle := (fits_of_mem_leavesAll blocks hvalid l hl).1.value .angle
    refine ⟨?_, l, hl, hturn, hfault⟩
    cases fault with
    | negative => exact absurd hfault (not_turnFault_negative hchecked hangle)
    | tooLarge => exact Or.inl rfl
    | sumTooLarge => exact Or.inr rfl
  · obtain ⟨result, hresult, hrun⟩ := run_perform t blocks p
    rcases hrun.completed_or_failed hvalid hq with ⟨rfl, hturn⟩ | ⟨fault, rfl, hturn⟩
    · exact Or.inl ⟨hresult, hturn⟩
    · exact Or.inr ⟨⟨fault, hresult⟩, hturn⟩
  · have hturn : t.TurnsFit (Block.leavesAll blocks) := fun l hl _ =>
      turnFits_of_rate hchecked ((fits_of_mem_leavesAll blocks hvalid l hl).1.value .angle)
        hrate htick
    have hok : ∀ p q result, Run (t.stepsOf none (beatsOf blocks), p) q result →
        ∃ outcome, result = .ok outcome := fun p q result hrun => by
      obtain ⟨-, -, outcome, hok, -⟩ := hrun.executes hvalid hturn
      exact ⟨outcome, hok⟩
    refine ⟨hok, fun p => ?_⟩
    obtain ⟨result, hresult, hrun⟩ := run_perform t blocks p
    obtain ⟨outcome, rfl⟩ := hok _ _ _ hrun
    exact ⟨outcome, hresult⟩

/-- A timing of turns that are too slow for a duration. -/
def creepingTiming : Timing := { angularSpeed := 1e-300, drivetrainCorrection := 0.0 }

theorem turnDuration_creepingTiming :
    creepingTiming.turnDuration (Param.angle.defaultValue) = .error .tooLarge := by
  decide +kernel

/-- A checked timing under which a turn fails. -/
theorem creeping_turn_fails : Block.AllValid [.ofKind .turnLeft] ∧
    creepingTiming.validate = .ok () ∧
    ∃ fault, (perform creepingTiming [.ofKind .turnLeft] { id := 0 }).2 = .failed fault := by
  have hvalid : Block.AllValid [.ofKind .turnLeft] := ⟨Block.valid_ofKind _, trivial⟩
  have hchecked : creepingTiming.validate = .ok () :=
    Timing.validate_iff.mpr (by decide +kernel)
  have hgo : (perform creepingTiming [.ofKind .turnLeft] { id := 0 }).1.cancelled = false := by
    decide +kernel
  rcases (checked_runs_fail_only_in_long_turns hvalid hchecked).2.1 _ hgo with
    ⟨-, hturn⟩ | ⟨hfails, -⟩
  · obtain ⟨d, e, hd, -⟩ := hturn (.turnLeft, .empty) List.mem_cons_self (Or.inl rfl)
    have hd : creepingTiming.turnDuration Param.angle.defaultValue = .ok d := hd
    rw [turnDuration_creepingTiming] at hd
    cases hd
  · exact ⟨hvalid, hchecked, hfails⟩

/-- **A timing can be read, be found right, and still fail a run.** -/
theorem read_timing_fails_turn :
    ∃ t, Timing.ofText "[timing]\nangular_speed = 1e-300\ndrivetrain_correction = 0.0\n" = .ok t ∧
      t.validate = .ok () ∧ Block.AllValid [.ofKind .turnLeft] ∧
      (perform t [.ofKind .turnLeft] { id := 0 }).2 = .failed .tooLarge := by
  have hread : (match Timing.ofText
      "[timing]\nangular_speed = 1e-300\ndrivetrain_correction = 0.0\n" with
      | .ok t => decide (t = creepingTiming)
      | .error _ => false) = true := by decide +kernel
  have hfails : (match (perform creepingTiming [.ofKind .turnLeft] { id := 0 }).2 with
      | .failed fault => decide (fault = .tooLarge)
      | _ => false) = true := by decide +kernel
  rcases htext : Timing.ofText
      "[timing]\nangular_speed = 1e-300\ndrivetrain_correction = 0.0\n" with fault | t
  · rw [htext] at hread
    cases hread
  rw [htext] at hread
  obtain rfl : t = creepingTiming := of_decide_eq_true hread
  refine ⟨creepingTiming, rfl, Timing.validate_of_ofText htext,
    ⟨Block.valid_ofKind _, trivial⟩, ?_⟩
  rcases hhalt : (perform creepingTiming [.ofKind .turnLeft] { id := 0 }).2 with o | fault | w
  · rw [hhalt] at hfails
    cases hfails
  · rw [hhalt] at hfails
    rw [show fault = .tooLarge from of_decide_eq_true hfails]
  · rw [hhalt] at hfails
    cases hfails

end Choreo
