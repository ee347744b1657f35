import Choreo.Proofs.Run.Checkpoints
import Choreo.Proofs.Run.Clock
import Choreo.Proofs.Run.Sessions

/-! # What a cancelled run still does

A cancelled run goes on to the next checkpoint or to its end. What it has before it by then is what
is left of the leaf under way, the settling of a gesture, and one pause between two iterations, in
this order and each of them at most once (`Remainder`): however deep the leaf lies, and whatever the
repeats around it still have to do.

That the run has begun what is under way is due to the cancellation: a run that passes a checkpoint
is not cancelled at that moment, so the last step before was another one (`Course.last_step`). -/

namespace Choreo

/-- The steps `rest` that are left of those of some beats after the leaf `first`: what is left of the
leaf under way, the settling of a gesture, a pause, and the steps `last` from the next checkpoint
on. -/
structure Remainder (t : Timing) (first : Option Kind) (beats : List Beat)
    (rest own settle pause last : List Step) : Prop where
  steps : rest = own ++ (settle ++ (pause ++ last))
  /-- Steps of a leaf are left only if others have been taken of it. -/
  own : own = [] ∨ ∃ (before after : List Beat) (kind : Kind) (s : Settings) (prev : Option Kind)
    (done : List Step), beats = before ++ .leaf kind s :: after ∧ done ≠ [] ∧
      t.beatSteps prev (.leaf kind s) = done ++ own ∧
      t.stepsOf first beats = t.stepsOf first before ++ (done ++ rest)
  settle : settle = [] ∨ settle = [.waitMillis t.armSettle]
  pause : pause = [] ∨ pause = [.waitMillis t.repeatPause]
  last : AtStop last

variable {t : Timing}

/-! ### The steps up to the next checkpoint -/

theorem Beat.rank_le (beat : Beat) : beat.rank ≤ 3 := by
  cases beat <;> simp [rank]

theorem atStop_of_inOrder {beats : List Beat} (h : InOrder 3 beats) (prev : Option Kind) :
    AtStop (t.stepsOf prev beats) := by
  cases beats with
  | nil => exact Or.inl rfl
  | cons beat beats =>
    rcases h.1 with rfl | hlt
    · rw [Timing.stepsOf, beatSteps_checkpoint]
      exact Or.inr ⟨_, rfl⟩
    · exact absurd beat.rank_le (Nat.not_le.mpr hlt)

/-- After the settling of a gesture there is at most one pause before the next checkpoint. -/
theorem pause_of_inOrder {last : Nat} {beats : List Beat} (h : InOrder last beats)
    (hlast : 2 ≤ last) (prev : Option Kind) : ∃ pause tail, t.stepsOf prev beats = pause ++ tail ∧
      (pause = [] ∨ pause = [.waitMillis t.repeatPause]) ∧ AtStop tail := by
  cases beats with
  | nil => exact ⟨[], [], rfl, Or.inl rfl, Or.inl rfl⟩
  | cons beat beats =>
    rw [Timing.stepsOf]
    cases beat with
    | checkpoint =>
      rw [beatSteps_checkpoint]
      exact ⟨[], _, rfl, Or.inl rfl, Or.inr ⟨_, rfl⟩⟩
    | iteration n total =>
      have hlt : last < 1 := h.lt_rank (by simp)
      omega
    | leaf kind s =>
      have hlt : last < 1 := h.lt_rank (by simp)
      omega
    | settle =>
      have hlt : last < 2 := h.lt_rank (by simp)
      omega
    | rest =>
      exact ⟨[.waitMillis t.repeatPause], _, rfl, Or.inr rfl, atStop_of_inOrder h.2 prev⟩

/-- After a leaf there is at most the settling of a gesture and one pause before the next
checkpoint. -/
theorem pauses_of_inOrder {last : Nat} {beats : List Beat} (h : InOrder last beats)
    (hlast : 1 ≤ last) (prev : Option Kind) :
    ∃ settle pause tail, t.stepsOf prev beats = settle ++ (pause ++ tail) ∧
      (settle = [] ∨ settle = [.waitMillis t.armSettle]) ∧
      (pause = [] ∨ pause = [.waitMillis t.repeatPause]) ∧ AtStop tail := by
  by_cases hsettle : ∃ more, beats = .settle :: more
  · obtain ⟨more, rfl⟩ := hsettle
    obtain ⟨pause, tail, hsteps, hpause, htail⟩ := pause_of_inOrder (t := t) h.2 le_rfl prev
    refine ⟨[.waitMillis t.armSettle], pause, tail, ?_, Or.inr rfl, hpause, htail⟩
    rw [← hsteps]
    rfl
  · have htwo : InOrder 2 beats := by
      cases beats with
      | nil => trivial
      | cons beat beats =>
        obtain ⟨hbeat, hrest⟩ := h
        refine ⟨hbeat.imp_right fun hlt => ?_, hrest⟩
        cases beat with
        | checkpoint => cases hlt
        | iteration n total =>
          have hlt : last < 1 := hlt
          omega
        | leaf kind s =>
          have hlt : last < 1 := hlt
          omega
        | settle => exact absurd ⟨_, rfl⟩ hsettle
        | rest => exact Nat.lt_succ_self 2
    obtain ⟨pause, tail, hsteps, hpause, htail⟩ := pause_of_inOrder (t := t) htwo le_rfl prev
    exact ⟨[], pause, tail, hsteps, Or.inl rfl, hpause, htail⟩

/-! ### The steps after one that is no checkpoint -/

section Split

variable {first : Option Kind} {beats : List Beat} {rest own settle pause last : List Step}

theorem Remainder.cons {beat : Beat}
    (h : Remainder t (Timing.stepsOf.latest first beat) beats rest own settle pause last) :
    Remainder t first (beat :: beats) rest own settle pause last := by
  refine ⟨h.steps, h.own.imp_right ?_, h.settle, h.pause, h.last⟩
  rintro ⟨before, after, kind, s, prev, done, rfl, hdone, hsteps, hall⟩
  refine ⟨beat :: before, after, kind, s, prev, done, rfl, hdone, hsteps, ?_⟩
  rw [Timing.stepsOf, hall, ← List.append_assoc]
  rfl

theorem remainder_after {beat : Beat} (hbeat : beat ≠ .checkpoint)
    (hbeats : InOrder beat.rank beats) :
    ∃ settle pause last, Remainder t first (beat :: beats)
      (t.stepsOf (Timing.stepsOf.latest first beat) beats) [] settle pause last := by
  have hrank : 1 ≤ beat.rank := by
    cases beat with
    | checkpoint => exact absurd rfl hbeat
    | iteration n total => exact le_rfl
    | leaf kind s => exact le_rfl
    | settle => exact Nat.le_succ 1
    | rest => exact Nat.one_le_of_lt (Nat.lt_succ_self 2)
  obtain ⟨settle, pause, last, hsteps, hsettle, hpause, hlast⟩ :=
    pauses_of_inOrder (t := t) hbeats hrank (Timing.stepsOf.latest first beat)
  exact ⟨settle, pause, last, hsteps, Or.inl rfl, hsettle, hpause, hlast⟩

theorem remainder_within {kind : Kind} {s : Settings} {done : List Step}
    (hbeats : InOrder 1 beats) (hdone : done ≠ [])
    (hsteps : t.beatSteps first (.leaf kind s) = done ++ own) :
    ∃ settle pause last, Remainder t first (.leaf kind s :: beats)
      (own ++ t.stepsOf (some kind) beats) own settle pause last := by
  obtain ⟨settle, pause, last, htail, hsettle, hpause, hlast⟩ :=
    pauses_of_inOrder (t := t) hbeats le_rfl (some kind)
  refine ⟨settle, pause, last, by rw [htail], Or.inr ⟨[], beats, kind, s, first, done, rfl, hdone,
    hsteps, ?_⟩, hsettle, hpause, hlast⟩
  have hall : t.stepsOf first (.leaf kind s :: beats) =
      t.beatSteps first (.leaf kind s) ++ t.stepsOf (some kind) beats := rfl
  rw [hall, hsteps, List.append_assoc]
  rfl

theorem length_beatSteps (t : Timing) (prev : Option Kind) {beat : Beat}
    (h : leavesOf [beat] = []) : (t.beatSteps prev beat).length = 1 := by
  cases beat with
  | leaf kind s => cases h
  | _ => simp [Timing.beatSteps, Timing.beatPhrases]

/-- **What is left after a step that is no checkpoint.** -/
theorem remainder_of_split {r : Nat} (hbeats : InOrder r beats) {taken : List Step} {step : Step}
    (h : t.stepsOf first beats = taken ++ step :: rest) (hstep : step ≠ .checkpoint) :
    ∃ own settle pause last, Remainder t first beats rest own settle pause last := by
  induction beats generalizing first r taken with
  | nil =>
    have hlength := congrArg List.length h
    simp [Timing.stepsOf] at hlength
  | cons beat beats ih =>
    obtain ⟨-, hrest⟩ := hbeats
    rw [Timing.stepsOf, List.append_cons] at h
    have hpoint : step ∈ t.beatSteps first beat → beat ≠ .checkpoint := by
      rintro hmem rfl
      rw [beatSteps_checkpoint, List.mem_singleton] at hmem
      exact hstep hmem
    rcases List.append_eq_append_iff.mp h with ⟨cs, htaken, htail⟩ | ⟨cs, hsteps, rfl⟩
    · rcases List.eq_nil_or_concat cs with rfl | ⟨cs, c, rfl⟩
      · -- the step is the last one of the beat
        rw [List.append_nil] at htaken
        rw [List.nil_append] at htail
        subst htail
        have hmem : step ∈ t.beatSteps first beat := by
          rw [← htaken]
          exact List.mem_concat_self
        exact ⟨[], remainder_after (hpoint hmem) hrest⟩
      · -- the step is one of a later beat
        rw [List.concat_eq_append, ← List.append_assoc] at htaken
        obtain ⟨-, hc⟩ := List.append_inj' htaken rfl
        cases hc
        rw [List.concat_eq_append, List.append_assoc] at htail
        obtain ⟨own, settle, pause, last, hremainder⟩ := ih hrest htail
        exact ⟨own, settle, pause, last, hremainder.cons⟩
    · -- the step is one of the beat
      have hdone : taken ++ [step] ≠ [] := by simp
      have hmem : step ∈ t.beatSteps first beat := by
        rw [hsteps]
        simp
      by_cases hleaf : leavesOf [beat] = []
      · have hone := length_beatSteps t first hleaf
        rw [hsteps, List.length_append, List.length_append, List.length_singleton] at hone
        obtain rfl : cs = [] := List.eq_nil_of_length_eq_zero (by omega)
        exact ⟨[], remainder_after (hpoint hmem) hrest⟩
      · cases beat with
        | leaf kind s => exact ⟨cs, remainder_within hrest hdone hsteps⟩
        | _ => exact absurd rfl hleaf

end Split

/-! ### The steps of a cancelled run -/

/-- **The last step before a moment at which a run is cancelled is no checkpoint**, unless it has not
taken a step yet. -/
theorem Course.last_step {m m' : Moment} (h : Course m m') (hc : m'.2.cancelled = true) :
    m = m' ∨ ∃ taken step, m.1 = taken ++ step :: m'.1 ∧ step ≠ .checkpoint := by
  rcases Relation.ReflTransGen.cases_tail h with rfl | ⟨before, hcourse, hmove⟩
  · exact Or.inl rfl
  · obtain ⟨taken, htaken, -, -⟩ := Course.effect hcourse
    obtain ⟨step, hstep, -, -⟩ := hmove.effect
    refine Or.inr ⟨taken, step, by rw [htaken, hstep], ?_⟩
    rintro rfl
    cases hmove with
    | checkpoint go =>
      rw [go] at hc
      cases hc
    | _ => cases hstep

/-- **What a cancelled run has before it** is the remainder of the leaf under way and of the pauses
after it. -/
theorem Course.remainder {blocks : List Block} {p m : Performance} {rest : List Step}
    (h : Course (t.stepsOf none (beatsOf blocks), p) (rest, m)) (hc : m.cancelled = true) :
    ∃ own settle pause last, Remainder t none (beatsOf blocks) rest own settle pause last := by
  rcases h.last_step hc with hstart | ⟨taken, step, hsteps, hstep⟩
  · -- the run has not taken a step yet, and its first one is a checkpoint
    obtain rfl : t.stepsOf none (beatsOf blocks) = rest := congrArg Prod.fst hstart
    exact ⟨[], [], [], _, rfl, Or.inl rfl, Or.inl rfl, Or.inl rfl,
      atStop_of_inOrder (inOrder_beatsOf blocks) none⟩
  · exact remainder_of_split (inOrder_beatsOf blocks) hsteps hstep

/-! ### Runs -/

/-- Whether a block or an iteration begins at a step. -/
def Step.opens : Step → Bool
  | .checkpoint | .note (.iteration _ _) => true
  | _ => false

@[simp] theorem opens_publish (c : Command) : (Step.publish c).opens = false := rfl

@[simp] theorem opens_waitMillis (n : Nat) : (Step.waitMillis n).opens = false := rfl

@[simp] theorem opens_fail (fault : DurationFault) : (Step.fail fault).opens = false := rfl

@[simp] theorem opens_waitFor (d : Except DurationFault Duration) :
    (Step.waitFor d).opens = false := by
  cases d <;> rfl

theorem opens_of_mem_turnPhrases (motion : Motion) (angle : Float) :
    ∀ f ∈ t.turnPhrases motion angle, ∀ x ∈ f.steps, x.opens = false := by
  have hnote : ∀ d ticks, (Step.note (.turning angle d ticks)).opens = false := fun _ _ => rfl
  unfold Timing.turnPhrases
  split
  · simp [Phrase.once]
  · simp [Phrase.once, hnote]

theorem opens_of_mem_actionPhrases (l : Leaf) :
    ∀ f ∈ t.actionPhrases l.1 l.2, ∀ x ∈ f.steps, x.opens = false := by
  have hdriving : ∀ velocity seconds, (Step.note (.driving velocity seconds)).opens = false :=
    fun _ _ => rfl
  have hpausing : ∀ seconds, (Step.note (.pausing seconds)).opens = false := fun _ => rfl
  unfold Timing.actionPhrases
  split
  · split_ifs
    · exact opens_of_mem_turnPhrases _ _
    · simp [Phrase.once, Timing.driveSteps, hdriving]
  · split_ifs
    · simp [Phrase.once]
    · simp [Phrase.once, Timing.pauseSteps, hpausing]

theorem opens_of_mem_leaf (prev : Option Kind) (kind : Kind) (s : Settings) :
    ∀ x ∈ t.beatSteps prev (.leaf kind s), x.opens = false := by
  intro x hx
  rw [beatSteps_leaf, List.mem_append, List.mem_append] at hx
  rcases hx with (hx | hx) | hx
  · unfold Timing.interlockSteps at hx
    split_ifs at hx
    · simp only [List.mem_cons, List.not_mem_nil, or_false] at hx
      rcases hx with rfl | rfl | rfl
      · rfl
      · rfl
      · rfl
    · cases hx
  · obtain ⟨f, hf, hx⟩ := List.mem_flatMap.mp hx
    exact opens_of_mem_actionPhrases (kind, s) f hf x (mem_steps_of_mem_toList hx)
  · rw [List.mem_singleton.mp hx]
    rfl

theorem Remainder.opens {first : Option Kind} {beats : List Beat}
    {rest own settle pause last : List Step}
    (h : Remainder t first beats rest own settle pause last) :
    ∀ x ∈ own ++ (settle ++ pause), x.opens = false := by
  intro x hx
  rw [List.mem_append, List.mem_append] at hx
  rcases hx with hx | hx | hx
  · rcases h.own with rfl | ⟨-, -, kind, s, prev, done, -, -, hsteps, -⟩
    · cases hx
    · refine opens_of_mem_leaf (t := t) prev kind s x ?_
      rw [hsteps]
      exact List.mem_append_right _ hx
  · rcases h.settle with rfl | rfl
    · cases hx
    · rw [List.mem_singleton.mp hx]
      rfl
  · rcases h.pause with rfl | rfl
    · cases hx
    · rw [List.mem_singleton.mp hx]
      rfl

theorem Run.of_cancelled {blocks : List Block} {p q : Performance}
    {result : Except DurationFault Outcome}
    (h : Run (t.stepsOf none (beatsOf blocks), p) q result) (hp : p.cancelled = true) : q = p := by
  obtain ⟨rest, hcourse, -⟩ := h.course
  rcases Relation.ReflTransGen.cases_head hcourse with hstart | ⟨m, hmove, -⟩
  · exact (congrArg Prod.snd hstart).symm
  · obtain ⟨step, hstep, -, hpoint⟩ := hmove.effect
    have hstep : t.stepsOf none (beatsOf blocks) = step :: m.1 := hstep
    rcases atStop_of_inOrder (t := t) (inOrder_beatsOf blocks) none with hnil | ⟨more, hmore⟩
    · rw [hnil] at hstep
      cases hstep
    · rw [hmore] at hstep
      exact absurd (List.cons.inj hstep).1.symm (hpoint hp)

variable {blocks : List Block}

/-- **A cancelled run takes the steps of its remainder**, and then it ends. -/
theorem Run.remainder (hvalid : Block.AllValid blocks)
    (hturn : t.TurnsFit (Block.leavesAll blocks)) {p m q : Performance} {rest : List Step}
    {result : Except DurationFault Outcome}
    (hcourse : Course (t.stepsOf none (beatsOf blocks), p) (rest, m)) (hm : m.cancelled = true)
    (h : Run (rest, m) q result) : ∃ own settle pause last outcome,
      Remainder t none (beatsOf blocks) rest own settle pause last ∧
      (∀ x ∈ own ++ (settle ++ pause), x.opens = false) ∧
      Course (rest, m) (last, q) ∧ Ends (last, q) result ∧ result = .ok outcome ∧
      q.now = m.now + (millisOf own + (millisOf settle + millisOf pause)) := by
  obtain ⟨own, settle, pause, last, hremainder⟩ := hcourse.remainder hm
  obtain ⟨-, -, outcome, rfl, -⟩ := (hcourse.run h).executes hvalid hturn
  obtain ⟨tail, hlater, hends⟩ := h.course
  obtain ⟨taken, htaken, -, hpoint⟩ := hlater.effect
  have hpoint := hpoint hm
  have hopens := hremainder.opens
  have hclear : .checkpoint ∉ own ++ (settle ++ pause) := fun hmem => by
    cases hopens _ hmem
  have htail : AtStop tail := by
    cases hends with
    | completed => exact Or.inl rfl
    | cancelled => exact Or.inr ⟨_, rfl⟩
  have hsplit : (own ++ (settle ++ pause)) ++ last = taken ++ tail := by
    rw [← show rest = taken ++ tail from htaken, hremainder.steps, List.append_assoc,
      List.append_assoc]
  obtain ⟨more, rfl, hlast⟩ := split_of_not_mem hsplit hclear htail
  -- the run cannot pass the checkpoint after the remainder
  obtain rfl : more = [] := by
    rcases hremainder.last with hnil | ⟨after, hafter⟩
    · rw [hnil] at hlast
      exact (List.append_eq_nil_iff.mp hlast.symm).1
    · rcases more with _ | ⟨x, more⟩
      · rfl
      · rw [hafter] at hlast
        rw [← (List.cons.inj hlast).1] at hpoint
        exact absurd (List.mem_append_right _ List.mem_cons_self) hpoint
  rw [List.nil_append] at hlast
  subst hlast
  have htimed := hlater.timed htaken
  refine ⟨own, settle, pause, last, outcome, hremainder, hopens, hlater, hends, rfl, ?_⟩
  rw [htimed.now, List.append_nil, millisOf_append, millisOf_append]

/-- **A cancelled run ends soon.** From whatever moment a run of valid blocks is cancelled, in the
midst of however many repeats, it still takes the steps that are left of the leaf under way, which it
has begun, lets a gesture settle at most once and pauses between two iterations at most once, in this
order, and is over. No block and no iteration begins among these steps, so it waits for nothing else.
A run that is cancelled before it starts does nothing.

Runs that are left alone are such runs. In a session a run that is cancelled while it waits is over
as long after this wait as these steps take. -/
theorem cancelled_runs_end_soon (hvalid : Block.AllValid blocks)
    (hturn : t.TurnsFit (Block.leavesAll blocks)) :
    (∀ p m q rest result, Course (t.stepsOf none (beatsOf blocks), p) (rest, m) →
      m.cancelled = true → Run (rest, m) q result → ∃ own settle pause last outcome,
        Remainder t none (beatsOf blocks) rest own settle pause last ∧
        (∀ x ∈ own ++ (settle ++ pause), x.opens = false) ∧
        Course (rest, m) (last, q) ∧ Ends (last, q) result ∧ result = .ok outcome ∧
        q.now = m.now + (millisOf own + (millisOf settle + millisOf pause))) ∧
    (∀ p q result, Run (t.stepsOf none (beatsOf blocks), p) q result → p.cancelled = true →
      q = p) ∧
    (∀ p, ∃ result, (perform t blocks p).2 = .ofResult result ∧
      Run (t.stepsOf none (beatsOf blocks), p) (perform t blocks p).1 result) ∧
    ∀ (s s' : Session) (program : Program) (id : RunId), s.Reachable → s.timing = t →
      program.toBlocks = blocks → s.start program = .ok (id, s') →
      ∀ (before later : List SessionEvent) (f : Flight),
        (before.foldl Session.after s').flight = some f →
        ∃ own settle pause last report,
          Remainder t none (beatsOf blocks) (f.rest ()).toList own settle pause last ∧
          (∀ x ∈ own ++ (settle ++ pause), x.opens = false) ∧
          ((later.foldl Session.after ((before.foldl Session.after s').cancel id)).wait id).1 =
            .ok report ∧
          ((later.foldl Session.after ((before.foldl Session.after s').cancel id)).isFinished id =
            false →
            ((later.foldl Session.after ((before.foldl Session.after s').cancel id)).wait id).2.now =
              f.wake + (millisOf own + (millisOf settle + millisOf pause))) := by
  refine ⟨fun p m q rest result hcourse hm hrun => hrun.remainder hvalid hturn hcourse hm,
    fun p q result hrun hp => hrun.of_cancelled hp, run_perform t blocks, ?_⟩
  rintro s s' program id hs rfl rfl hstart before later f hf
  obtain ⟨m, m', q, result, hcourse, -, hwake, hm', hrun, hreport, hend⟩ :=
    Session.run_after_cancel hs hstart before later hf
  obtain ⟨own, settle, pause, last, outcome, hremainder, hopens, -, -, rfl, hnow⟩ :=
    hrun.remainder hvalid hturn hcourse hm'
  refine ⟨own, settle, pause, last, ⟨outcome, q.tally⟩, hremainder, hopens, hreport,
    fun hgoing => ?_⟩
  rw [hend hgoing, hnow, hwake]

/-- A gesture in a repeat in a repeat. -/
def nestedWave : List Block :=
  [⟨.loop, Settings.empty.insert .times 2.0, [⟨.loop, .empty, [.ofKind .wave]⟩]⟩]

/-- A run that is cancelled while the arm still waves lets the arm settle for a second and pauses for
half a second, as the outer repeat is not at its end. -/
theorem cancelled_in_nested_wave :
    Block.AllValid nestedWave ∧ Timing.TurnsFit {} (Block.leavesAll nestedWave) ∧
      ∃ (s' : Session) (f : Flight) (own settle pause last : List Step),
        Session.start {} (.ofBlocks nestedWave) = .ok (0, s') ∧
        (s'.after (.advance 1)).flight = some f ∧ f.wake = 2000 ∧
        Remainder {} none (beatsOf nestedWave) (f.rest ()).toList own settle pause last ∧
        millisOf own + (millisOf settle + millisOf pause) = 1500 := by
  have hvalid : Block.AllValid nestedWave :=
    ⟨Block.valid_iff.mpr ⟨Settings.fits_twice, nofun, Block.valid_iff.mpr ⟨nofun, nofun,
      Block.valid_ofKind _, trivial⟩, trivial⟩, trivial⟩
  have hturn : Timing.TurnsFit {} (Block.leavesAll nestedWave) :=
    Timing.turnsFit_of_no_turns _ (by decide)
  obtain ⟨s', hstart, f, hflight, hwake, hgoing, hend⟩ : ∃ s' : Session,
      Session.start {} (.ofBlocks nestedWave) = .ok (0, s') ∧ ∃ f : Flight,
        (s'.after (.advance 1)).flight = some f ∧ f.wake = 2000 ∧
        ((s'.after (.advance 1)).cancel 0).isFinished 0 = false ∧
        (((s'.after (.advance 1)).cancel 0).wait 0).2.now = 3500 :=
    ⟨_, rfl, _, rfl, by decide, by decide, by decide⟩
  obtain ⟨own, settle, pause, last, report, hremainder, -, -, hclock⟩ :=
    (cancelled_runs_end_soon hvalid hturn).2.2.2 {} s' (.ofBlocks nestedWave) 0 (.fresh {} {}) rfl
      rfl hstart [.advance 1] [] f hflight
  have hclock := (hclock hgoing).symm.trans hend
  rw [hwake] at hclock
  exact ⟨hvalid, hturn, s', f, own, settle, pause, last, hstart, hflight, hwake, hremainder,
    by omega⟩

end Choreo
