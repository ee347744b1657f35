import Choreo.Proofs.Run.Outcomes
import Choreo.Proofs.Run.Stints

/-! # How long a run takes

A run that nobody cancels takes the time of its leaves, of the pauses that its repeats add, and of
its interlocks. The pauses are counted over the blocks: every gesture that a repeat executes settles
(`Block.arms` of the repeats), and every repeat that is executed pauses between its iterations
(`Block.repeatsAll`), however deep it lies. -/

namespace Choreo

/-- How long a leaf takes. -/
def Timing.leafMillis (t : Timing) : Leaf → Nat
  | (.moveForward, s) | (.moveBackward, s) => drive (s.value .duration)
  | (.turnLeft, s) | (.turnRight, s) => turn t (s.value .angle)
  | (.pause, s) => (s.value .seconds * 1000.0).toUInt64.toNat
  | (.loop, _) => 0
  | _ => t.armActuation
where
  /-- The time of a straight motion, rounded up. -/
  drive (seconds : Float) : Nat :=
    match Duration.ofSeconds seconds with
    | .ok d => d.millisUp
    | .error _ => 0
  /-- A tick for every command of the sweep, and then the length of the turn, rounded up, and one
  tick more. -/
  turn (t : Timing) (angle : Float) : Nat :=
    match t.turnDuration angle with
    | .ok d => t.sweepTicks d * t.tick + (d.millisUp + t.tick)
    | .error _ => 0

namespace Block

mutual

/-- The repeats that a block executes, each as often as it is executed, by their settings. -/
def repeats : Block → List Settings
  | ⟨kind, settings, children⟩ =>
    if kind.isContainer then
      settings :: (List.replicate settings.iterations (repeatsAll children)).flatten
    else []

/-- The repeats that a list of blocks executes, each as often as it is executed. -/
def repeatsAll : List Block → List Settings
  | [] => []
  | b :: rest => b.repeats ++ repeatsAll rest

end

end Block

/-- The number of gestures among some leaves. -/
def gestures (ls : List Leaf) : Nat := ls.countP fun l => l.1.category = .arm

/-- The number of pauses between two iterations that some repeats make. -/
def restsOf (repeats : List Settings) : Nat := (repeats.map fun s => s.iterations - 1).sum

/-- How long a run takes that waits for so many interlocks: the time of every leaf, the time to
settle after every gesture in a repeat, the pauses between the iterations of every repeat, and the
interlocks. -/
def Timing.runMillis (t : Timing) (blocks : List Block) (interlocks : Nat) : Nat :=
  ((Block.leavesAll blocks).map t.leafMillis).sum +
    t.armSettle * gestures (Block.leavesAll (blocks.filter (·.isContainer))) +
    t.repeatPause * restsOf (Block.repeatsAll blocks) + t.safetyInterlock * interlocks

variable {t : Timing}

/-! ### The time of a leaf -/

theorem millisOf_toList (f : Phrase) : millisOf f.toList = f.times * millisOf f.steps := by
  rw [millisOf, Phrase.toList, List.map_flatten, List.sum_flatten, List.map_replicate,
    List.map_replicate, List.sum_replicate, smul_eq_mul]
  rfl

@[simp] theorem millis_note (n : StepNote) : (Step.note n).millis = 0 := rfl

@[simp] theorem millis_publish (c : Command) : (Step.publish c).millis = 0 := rfl

@[simp] theorem millis_fail (fault : DurationFault) : (Step.fail fault).millis = 0 := rfl

theorem millisOf_turnPhrases {angle : Float} (h : t.TurnFits angle) (motion : Motion) :
    millisOf ((t.turnPhrases motion angle).flatMap Phrase.toList) =
      Timing.leafMillis.turn t angle := by
  obtain ⟨d, e, hd, he⟩ := h
  have hrest : (Step.waitFor (d.add t.tickDuration)).millis = d.millisUp + t.tick := by
    rw [he]
    exact Duration.millisUp_add_ofMillis he
  unfold Timing.turnPhrases Timing.leafMillis.turn
  rw [hd]
  simp [millisOf_toList, hrest]

theorem millisOf_driveSteps (motion : Motion) (speed seconds : Float) :
    millisOf (Timing.driveSteps motion speed seconds) = Timing.leafMillis.drive seconds := by
  unfold Timing.driveSteps Timing.leafMillis.drive
  rcases Duration.ofSeconds seconds with fault | d
  · simp [Step.waitFor]
  · simp [Step.waitFor]

/-- **The steps of a leaf take its time**, where a turn has a duration. -/
theorem millisOf_actionSteps {l : Leaf} (hleaf : l.1.isContainer = false)
    (hturn : l.1 = .turnLeft ∨ l.1 = .turnRight → t.TurnFits (l.2.value .angle)) :
    millisOf (t.actionSteps l) = t.leafMillis l := by
  obtain ⟨kind, s⟩ := l
  unfold Timing.actionSteps Timing.actionPhrases
  cases kind
  case turnLeft => exact millisOf_turnPhrases (hturn (Or.inl rfl)) .turnLeft
  case turnRight => exact millisOf_turnPhrases (hturn (Or.inr rfl)) .turnRight
  case loop => cases hleaf
  all_goals
    simp [Kind.motion?, Kind.category, Motion.isAngular, Motion.isLinear, Timing.leafMillis,
      millisOf_driveSteps, Timing.pauseSteps]

/-! ### The time of some beats -/

/-- **The steps of some beats** take the time of the leaves, the pauses and the interlocks. -/
theorem millisOf_stepsOf {beats : List Beat} (prev : Option Kind)
    (hleaf : ∀ l ∈ leavesOf beats, l.1.isContainer = false) (hturn : t.TurnsFit (leavesOf beats)) :
    millisOf (t.stepsOf prev beats) = ((leavesOf beats).map t.leafMillis).sum + t.pauses beats +
      t.safetyInterlock * interlocksAfter prev (leavesOf beats) := by
  induction beats generalizing prev with
  | nil => simp [Timing.stepsOf, Timing.pauses, interlocksAfter]
  | cons beat beats ih =>
    rw [Timing.stepsOf, millisOf_append, pauses_cons]
    have hpass : leavesOf (beat :: beats) = leavesOf beats →
        Timing.stepsOf.latest prev beat = prev →
        millisOf (t.beatSteps prev beat) = t.pauseOf beat →
        millisOf (t.beatSteps prev beat) +
          millisOf (t.stepsOf (Timing.stepsOf.latest prev beat) beats) =
        ((leavesOf (beat :: beats)).map t.leafMillis).sum + (t.pauseOf beat + t.pauses beats) +
          t.safetyInterlock * interlocksAfter prev (leavesOf (beat :: beats)) := by
      intro hleaves hlatest hmillis
      rw [hleaves] at hleaf hturn ⊢
      rw [hlatest, hmillis, ih prev hleaf hturn]
      omega
    cases beat with
    | checkpoint => exact hpass rfl rfl rfl
    | leaf kind s =>
      rw [leavesOf_leaf] at hleaf hturn ⊢
      have htail := ih (some kind) (fun l hl => hleaf l (List.mem_cons_of_mem _ hl))
        fun l hl => hturn l (List.mem_cons_of_mem _ hl)
      have haction := millisOf_actionSteps (hleaf _ List.mem_cons_self)
        (hturn _ List.mem_cons_self)
      have hlock : t.interlockTime prev kind =
          t.safetyInterlock * (needsInterlock prev (some kind)).toNat := by
        unfold Timing.interlockTime
        cases needsInterlock prev (some kind) <;> simp
      rw [beatSteps_leaf, millisOf_append, millisOf_append, millisOf_interlockSteps, haction, hlock,
        Timing.stepsOf.latest, htail, List.map_cons, List.sum_cons, interlocksAfter, Nat.mul_add]
      dsimp only
      have hdone : millisOf [.done] = 0 := rfl
      have hleafPause : t.pauseOf (.leaf kind s) = 0 := rfl
      omega
    | iteration n total => exact hpass rfl rfl (millisOf_quiet prev rfl)
    | settle => exact hpass rfl rfl (millisOf_quiet prev rfl)
    | rest => exact hpass rfl rfl (millisOf_quiet prev rfl)

/-! ### The pauses of a program -/

theorem gestures_append (as bs : List Leaf) : gestures (as ++ bs) = gestures as + gestures bs :=
  List.countP_append

theorem restsOf_append (as bs : List Settings) : restsOf (as ++ bs) = restsOf as + restsOf bs := by
  rw [restsOf, List.map_append, List.sum_append]
  rfl

theorem gestures_flatten_replicate (n : Nat) (ls : List Leaf) :
    gestures (List.replicate n ls).flatten = n * gestures ls := by
  rw [gestures, List.countP_flatten, List.map_replicate, List.sum_replicate, smul_eq_mul]
  rfl

theorem restsOf_flatten_replicate (n : Nat) (repeats : List Settings) :
    restsOf (List.replicate n repeats).flatten = n * restsOf repeats := by
  rw [restsOf, List.map_flatten, List.sum_flatten, List.map_replicate, List.map_replicate,
    List.sum_replicate, smul_eq_mul]
  rfl

/-- A repeat pauses between two iterations, but not after the last one. -/
theorem pauses_iterationBeats (body : List Beat) (total : Nat) : ∀ left : Nat,
    t.pauses (iterationBeats body total left) = left * t.pauses body + t.repeatPause * (left - 1)
  | 0 => by simp [iterationBeats]
  | left + 1 => by
    have ih := pauses_iterationBeats body total left
    have hhead : t.pauses (.checkpoint :: .iteration (total - left) total :: body) =
        t.pauses body := by
      rw [pauses_cons, pauses_cons]
      exact (Nat.zero_add _).trans (Nat.zero_add _)
    rw [iterationBeats, pauses_append, pauses_append, hhead, ih, Nat.succ_mul]
    rcases left with _ | left
    · simp
    · have hpause : t.pauses [.rest] = t.repeatPause := List.sum_singleton
      rw [if_neg (Nat.succ_ne_zero left), hpause, Nat.add_sub_cancel, Nat.add_sub_cancel,
        Nat.mul_succ]
      omega

theorem pauses_settleBeats {kind : Kind} (h : kind.isContainer = true) :
    t.pauses kind.settleBeats = 0 := by
  rw [Kind.eq_loop_of_isContainer h]
  rfl

mutual

theorem pauses_child : ∀ b : Block, t.pauses (b.beats ++ b.kind.settleBeats) =
    t.armSettle * gestures b.leaves + t.repeatPause * restsOf b.repeats
  | ⟨kind, settings, children⟩ => by
    rw [Block.beats, Block.leaves, Block.repeats, pauses_append]
    by_cases hc : kind.isContainer = true
    · have hsettle := pauses_settleBeats (t := t) hc
      rw [if_pos hc, if_pos hc, if_pos hc, hsettle, pauses_iterationBeats,
        pauses_childBeats children, gestures_flatten_replicate]
      have hrests : ∀ more, restsOf (settings :: more) = settings.iterations - 1 + restsOf more :=
        fun _ => List.sum_cons
      rw [hrests, restsOf_flatten_replicate, Nat.mul_add, Nat.mul_add]
      have h1 : settings.iterations * (t.armSettle * gestures (Block.leavesAll children)) =
          t.armSettle * (settings.iterations * gestures (Block.leavesAll children)) :=
        Nat.mul_left_comm _ _ _
      have h2 : settings.iterations * (t.repeatPause * restsOf (Block.repeatsAll children)) =
          t.repeatPause * (settings.iterations * restsOf (Block.repeatsAll children)) :=
        Nat.mul_left_comm _ _ _
      omega
    · rw [if_neg hc, if_neg hc, if_neg hc]
      unfold Kind.settleBeats gestures
      by_cases harm : kind.category = .arm
      · simp [harm, Timing.pauseOf, restsOf]
      · simp [harm, Timing.pauseOf, restsOf]

theorem pauses_childBeats : ∀ bs : List Block, t.pauses (Block.childBeats bs) =
    t.armSettle * gestures (Block.leavesAll bs) + t.repeatPause * restsOf (Block.repeatsAll bs)
  | [] => by simp [Block.childBeats, Block.leavesAll, Block.repeatsAll, gestures, restsOf]
  | b :: rest => by
    have hb := pauses_child b
    have hrest := pauses_childBeats rest
    rw [Block.childBeats, Block.leavesAll, Block.repeatsAll, gestures_append, restsOf_append,
      Nat.mul_add, Nat.mul_add, List.cons_append, List.cons_append, pauses_cons, pauses_append, hb,
      hrest]
    have hpoint : t.pauseOf .checkpoint = 0 := rfl
    omega

end

/-- **The pauses of a program.** A gesture that stands in no repeat does not settle. -/
theorem pauses_beatsOf (blocks : List Block) : t.pauses (beatsOf blocks) =
    t.armSettle * gestures (Block.leavesAll (blocks.filter (·.isContainer))) +
      t.repeatPause * restsOf (Block.repeatsAll blocks) := by
  induction blocks with
  | nil => simp [beatsOf, Block.leavesAll, Block.repeatsAll, gestures, restsOf]
  | cons b rest ih =>
    have hb := pauses_child (t := t) b
    rw [pauses_append] at hb
    rw [beatsOf] at ih
    rw [beatsOf, List.flatMap_cons, pauses_append, pauses_cons, ih, Block.repeatsAll,
      restsOf_append, Nat.mul_add, List.filter_cons]
    have hpoint : t.pauseOf .checkpoint = 0 := rfl
    by_cases hc : b.isContainer = true
    · have hsettle : t.pauses b.kind.settleBeats = 0 := pauses_settleBeats hc
      rw [if_pos hc, Block.leavesAll, gestures_append, Nat.mul_add]
      omega
    · obtain ⟨hbeats, hrepeats⟩ : t.pauses b.beats = 0 ∧ restsOf b.repeats = 0 := by
        cases b with
        | mk kind settings children =>
          have hleaf : ¬ kind.isContainer = true := hc
          rw [Block.beats, Block.repeats, if_neg hleaf, if_neg hleaf]
          exact ⟨rfl, rfl⟩
      rw [if_neg hc, hbeats, hrepeats, Nat.mul_zero]
      omega

/-! ### Runs -/

mutual

theorem fits_of_mem_repeats : ∀ b : Block, b.Valid → ∀ s ∈ b.repeats, s.Fits .loop
  | ⟨kind, settings, children⟩, hv, s, hs => by
    obtain ⟨hfits, -, hbelow⟩ := Block.valid_iff.mp hv
    rw [Block.repeats] at hs
    split_ifs at hs with hc
    · rcases List.mem_cons.mp hs with rfl | hs
      · rwa [← Kind.eq_loop_of_isContainer hc]
      · obtain ⟨more, hmore, hs⟩ := List.mem_flatten.mp hs
        rw [List.eq_of_mem_replicate hmore] at hs
        exact fits_of_mem_repeatsAll children hbelow s hs
    · cases hs

theorem fits_of_mem_repeatsAll : ∀ bs : List Block, Block.AllValid bs →
    ∀ s ∈ Block.repeatsAll bs, s.Fits .loop
  | [], _, s, hs => by rw [Block.repeatsAll] at hs; cases hs
  | b :: rest, hv, s, hs => by
    rw [Block.AllValid] at hv
    rw [Block.repeatsAll, List.mem_append] at hs
    rcases hs with hs | hs
    · exact fits_of_mem_repeats b hv.1 s hs
    · exact fits_of_mem_repeatsAll rest hv.2 s hs

end

variable {blocks : List Block}

theorem millisOf_score (hvalid : Block.AllValid blocks)
    (hturn : t.TurnsFit (Block.leavesAll blocks)) :
    millisOf (t.stepsOf none (beatsOf blocks)) =
      t.runMillis blocks (interlocks (Block.leavesAll blocks)) := by
  have hleaves := leavesOf_beatsOf blocks
  have hleaf : ∀ l ∈ leavesOf (beatsOf blocks), l.1.isContainer = false := by
    rw [hleaves]
    exact fun l hl => (fits_of_mem_leavesAll blocks hvalid l hl).2
  rw [← hleaves] at hturn
  rw [millisOf_stepsOf none hleaf hturn, pauses_beatsOf, hleaves, interlocksAfter_none,
    Timing.runMillis]
  omega

theorem Run.elapsed (hvalid : Block.AllValid blocks)
    (hturn : t.TurnsFit (Block.leavesAll blocks)) {p q : Performance}
    {result : Except DurationFault Outcome}
    (h : Run (t.stepsOf none (beatsOf blocks), p) q result) (hq : q.cancelled = false) :
    result = .ok .completed ∧
      q.now = p.now + t.runMillis blocks (q.tally.interlocks - p.tally.interlocks) := by
  obtain ⟨rfl, hperformed⟩ := h.completes hvalid hturn hq
  obtain ⟨rest, hcourse, hends⟩ := h.course
  obtain ⟨taken, htaken, -, -⟩ := hcourse.effect
  have htimed := hcourse.timed htaken
  cases hends
  have htaken : t.stepsOf none (beatsOf blocks) = taken ++ [] := htaken
  rw [List.append_nil] at htaken
  refine ⟨rfl, ?_⟩
  rw [htimed.now, ← htaken, millisOf_score hvalid hturn, hperformed.interlocks,
    Nat.add_sub_cancel_left]

/-- **How long an uncancelled run takes.** A run of valid blocks that nobody cancels, among others,
left alone or in a session, ends exactly so many milliseconds after its start as its leaves take by
themselves, the gestures in its repeats take to settle, its repeats pause between their iterations,
and the interlocks take that it reports. Someone who waits for such a run in a session, and does not
come too late, sees this time on the clock. The number of iterations is the one that the repeat is
set to. -/
theorem uncancelled_runs_last (hvalid : Block.AllValid blocks)
    (hturn : t.TurnsFit (Block.leavesAll blocks)) :
    (∀ p q result, Run (t.stepsOf none (beatsOf blocks), p) q result → q.cancelled = false →
      result = .ok .completed ∧
        q.now = p.now + t.runMillis blocks (q.tally.interlocks - p.tally.interlocks)) ∧
    (∀ p, (perform t blocks p).1.cancelled = false → (perform t blocks p).2 = .ended .completed ∧
      (perform t blocks p).1.now = p.now +
        t.runMillis blocks ((perform t blocks p).1.tally.interlocks - p.tally.interlocks)) ∧
    (∀ (s s' : Session) (program : Program) (id : RunId), s.Reachable → s.timing = t →
      program.toBlocks = blocks → s.start program = .ok (id, s') → s.channel.Spares id →
      ∀ events : List SessionEvent, (∀ e ∈ events, ¬ e.Cancels id) →
        ∃ report : Report, ((events.foldl Session.after s').wait id).1 = .ok report ∧
          report.outcome = .completed ∧
          ((events.foldl Session.after s').isFinished id = false →
            ((events.foldl Session.after s').wait id).2.now =
              s.now + t.runMillis blocks report.tally.interlocks)) ∧
    ∀ r ∈ Block.repeatsAll blocks, r.value .times = Double.ofNat r.iterations := by
  refine ⟨fun p q result hrun hq => hrun.elapsed hvalid hturn hq, fun p hq => ?_, ?_,
    fun r hr => (fits_of_mem_repeatsAll blocks hvalid r hr).iterations.1⟩
  · obtain ⟨result, hresult, hrun⟩ := run_perform t blocks p
    obtain ⟨rfl, hnow⟩ := hrun.elapsed hvalid hturn hq
    exact ⟨hresult, hnow⟩
  · rintro s s' program id hs rfl rfl hstart hspares events hevents
    obtain ⟨p, q, result, htally, hnow, -, hrun, hreport, -, hend, hspared⟩ :=
      Session.run_after hs hstart events
    obtain ⟨rfl, helapsed⟩ := hrun.elapsed hvalid hturn (hspared hspares hevents)
    refine ⟨⟨.completed, q.tally⟩, hreport, rfl, fun hgoing => ?_⟩
    rw [hend hgoing, helapsed, hnow, htally]
    rfl

/-- A gesture, then twice a gesture and a drive back and forth. -/
def waveAndDrive : List Block :=
  [.ofKind .wave, ⟨.loop, Settings.empty.insert .times 2.0,
    [.ofKind .wave, .ofKind .moveForward, .ofKind .moveBackward]⟩]

/-- Three gestures and four drives of two seconds each, of which two gestures settle for a second;
half a second between the iterations, and an interlock of a second in each. -/
theorem wave_and_drive_lasts :
    Block.AllValid waveAndDrive ∧ Timing.TurnsFit {} (Block.leavesAll waveAndDrive) ∧
      (perform {} waveAndDrive { id := 0 }).1.cancelled = false ∧
      (perform {} waveAndDrive { id := 0 }).1.now = 18500 := by
  have hvalid : Block.AllValid waveAndDrive :=
    ⟨Block.valid_ofKind _, Block.valid_iff.mpr ⟨Settings.fits_twice, nofun, Block.valid_ofKind _,
      Block.valid_ofKind _, Block.valid_ofKind _, trivial⟩, trivial⟩
  have hturn : Timing.TurnsFit {} (Block.leavesAll waveAndDrive) :=
    Timing.turnsFit_of_no_turns _ (by decide)
  have hgo : (perform {} waveAndDrive { id := 0 }).1.cancelled = false := by
    unfold perform
    refine (Session.spared_play none _ rfl ?_).1
    exact nofun
  have htwo : (perform {} waveAndDrive { id := 0 }).1.tally.interlocks = 2 := by decide
  have hlast : Timing.runMillis {} waveAndDrive 2 = 18500 := by decide +kernel
  obtain ⟨-, hnow⟩ := (uncancelled_runs_last hvalid hturn).2.1 { id := 0 } hgo
  rw [htwo] at hnow
  exact ⟨hvalid, hturn, hgo, hnow.trans ((Nat.zero_add _).trans hlast)⟩

end Choreo
