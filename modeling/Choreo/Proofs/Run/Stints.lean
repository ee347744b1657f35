import Choreo.Proofs.Run.Clock
import Choreo.Proofs.Run.Sessions

/-! # When leaves are executed

A run executes leaves one after the other, and between two of them it pauses: for the gestures of a
repeat to settle, between two iterations, and for the interlock. A `Stint` is one leaf as a run
executes it, with the time at which it begins and the beats that the run has passed since the leaf
before. The steps that a run has taken are those of some stints and the pauses between them
(`stints_of_split`), whatever beats lie between the leaves.

A leaf that moves the base sends the stop last. So between the stop of one leaf and the first command
of the next there is the whole interlock if the two need one (`OnTime.isChain`). -/

namespace Choreo

/-- How long a beat takes that is no leaf. -/
def Timing.pauseOf (t : Timing) : Beat → Nat
  | .settle => t.armSettle
  | .rest => t.repeatPause
  | .checkpoint => 0
  | .iteration _ _ => 0
  | .leaf _ _ => 0

/-- How long some beats take that are no leaves. -/
def Timing.pauses (t : Timing) (beats : List Beat) : Nat := (beats.map t.pauseOf).sum

/-- How long a run waits for the interlock between two leaves. -/
def Timing.interlockTime (t : Timing) (prev : Option Kind) (next : Kind) : Nat :=
  if needsInterlock prev (some next) then t.safetyInterlock else 0

/-- A leaf as a run executes it. -/
structure Stint where
  /-- The beats since the leaf before. -/
  before : List Beat
  leaf : Leaf
  /-- When the first step of the leaf's own is taken. -/
  start : Nat
  /-- The steps of the leaf's own that are taken. -/
  steps : List Step

namespace Stint

/-- What the leaf records. -/
def record (s : Stint) : List Published := recordFrom s.start s.steps

/-- When the leaf is over. -/
def finish (s : Stint) : Nat := s.start + millisOf s.steps

/-- The beats from the leaf before on. -/
def beats (s : Stint) : List Beat := s.before ++ [.leaf s.leaf.1 s.leaf.2]

/-- The leaf is executed to its end. -/
def Whole (t : Timing) (s : Stint) : Prop := s.steps = t.actionSteps s.leaf

/-- The leaf `b` is executed next after `a`: it begins once the pauses between the two and the
interlock are over, and if they need an interlock, then it sends nothing before this time has passed
since the stop that `a` sends last. -/
structure Next (t : Timing) (a b : Stint) : Prop where
  whole : a.Whole t
  start : b.start = a.finish + t.pauses b.before + t.interlockTime (some a.leaf.1) b.leaf.1
  apart : needsInterlock (some a.leaf.1) (some b.leaf.1) = true →
    ∃ e, a.record.getLast? = some e ∧ e.command = .stop ∧
      ∀ e' ∈ b.record, e.time + t.safetyInterlock ≤ e'.time

/-- When the last of some leaves is over, which begin at a time. -/
def ending : (now : Nat) → List Stint → Nat
  | now, [] => now
  | _, s :: rest => ending s.finish rest

/-- Leaves that are executed one after the other, after the leaf `prev` that is over at a time. -/
def OnTime (t : Timing) : (prev : Option Kind) → (now : Nat) → List Stint → Prop
  | _, _, [] => True
  | prev, now, s :: rest =>
    leavesOf s.before = [] ∧ s.start = now + t.pauses s.before + t.interlockTime prev s.leaf.1 ∧
      s.steps <+: t.actionSteps s.leaf ∧ (∀ fault, .fail fault ∉ s.steps) ∧
      (rest ≠ [] → s.Whole t) ∧ OnTime t (some s.leaf.1) s.finish rest

end Stint

open Stint (OnTime ending)

variable {t : Timing}

@[simp] theorem pauses_nil : t.pauses [] = 0 := rfl

@[simp] theorem pauses_cons (beat : Beat) (beats : List Beat) :
    t.pauses (beat :: beats) = t.pauseOf beat + t.pauses beats := List.sum_cons

theorem pauses_append (as bs : List Beat) : t.pauses (as ++ bs) = t.pauses as + t.pauses bs := by
  rw [Timing.pauses, List.map_append, List.sum_append]
  rfl

/-! ### The last command of a motion -/

theorem motion_of_needsInterlock {prev next : Kind}
    (h : needsInterlock (some prev) (some next) = true) : ∃ motion, prev.motion? = some motion := by
  rcases hm : prev.motion? with _ | motion
  · unfold needsInterlock at h
    rw [Option.bind_some, hm] at h
    cases h
  · exact ⟨motion, rfl⟩

theorem getLast?_leafCommands_turn (rate : Float) {angle : Float} {d : Duration}
    (hd : t.turnDuration angle = .ok d) :
    (Timing.leafCommands.turn t rate angle).getLast? = some .stop := by
  unfold Timing.leafCommands.turn
  rw [hd]
  exact List.getLast?_concat

theorem turnDuration_of_not_fails (motion : Motion) {angle : Float}
    (h : ∀ fault, .fail fault ∉ (t.turnPhrases motion angle).flatMap Phrase.toList) :
    ∃ d, t.turnDuration angle = .ok d := by
  rcases hd : t.turnDuration angle with fault | d
  · exact absurd ((fail_mem_turnPhrases_iff t motion angle fault).mpr (Or.inl hd)) (h fault)
  · exact ⟨d, rfl⟩

/-- **A motion of the base sends the stop last**, if none of its steps fails. -/
theorem getLast?_leafCommands {l : Leaf} {motion : Motion} (hmotion : l.1.motion? = some motion)
    (hfail : ∀ fault, .fail fault ∉ t.actionSteps l) :
    (t.leafCommands l).getLast? = some .stop := by
  obtain ⟨kind, s⟩ := l
  cases kind
  case moveForward => rfl
  case moveBackward => rfl
  case turnLeft =>
    obtain ⟨d, hd⟩ := turnDuration_of_not_fails .turnLeft hfail
    exact getLast?_leafCommands_turn _ hd
  case turnRight =>
    obtain ⟨d, hd⟩ := turnDuration_of_not_fails .turnRight hfail
    exact getLast?_leafCommands_turn _ hd
  all_goals cases hmotion

theorem Stint.Whole.stop {s : Stint} (h : s.Whole t) {motion : Motion}
    (hmotion : s.leaf.1.motion? = some motion) (hfail : ∀ fault, .fail fault ∉ s.steps) :
    ∃ e, s.record.getLast? = some e ∧ e.command = .stop ∧ e.time ≤ s.finish := by
  have hlast : (s.record.map (·.command)).getLast? = some .stop := by
    rw [Stint.record, command_recordFrom, h, sentBy_actionSteps]
    rw [h] at hfail
    exact getLast?_leafCommands hmotion hfail
  rw [List.getLast?_map] at hlast
  obtain ⟨e, he, hcommand⟩ := Option.map_eq_some_iff.mp hlast
  exact ⟨e, he, hcommand, (time_mem_recordFrom (List.mem_of_getLast? he)).2⟩

/-! ### Leaves one after the other -/

/-- **Leaves that are executed one after the other keep apart.** -/
theorem Stint.OnTime.isChain {prev : Option Kind} {now : Nat} {stints : List Stint}
    (h : OnTime t prev now stints) : stints.IsChain (Stint.Next t) := by
  induction stints generalizing prev now with
  | nil => exact .nil
  | cons a rest ih =>
    obtain ⟨-, -, -, hfail, hwhole, hrest⟩ := h
    rcases rest with _ | ⟨b, rest⟩
    · exact .singleton a
    · have ha : a.Whole t := hwhole (List.cons_ne_nil _ _)
      have hstart := hrest.2.1
      refine List.isChain_cons_cons.mpr ⟨⟨ha, hstart, fun hrisky => ?_⟩, ih hrest⟩
      obtain ⟨motion, hmotion⟩ := motion_of_needsInterlock hrisky
      obtain ⟨e, hlast, hstop, htime⟩ := ha.stop hmotion hfail
      refine ⟨e, hlast, hstop, fun e' he' => ?_⟩
      have hfirst := (time_mem_recordFrom he').1
      rw [Timing.interlockTime, if_pos hrisky] at hstart
      omega

/-! ### The steps of a run as stints -/

/-- Where a run can end: no steps are left, or the next one is a checkpoint or fails. -/
def AtEnd (steps : List Step) : Prop := AtStop steps ∨ ∃ fault rest, steps = .fail fault :: rest

theorem Ends.atEnd {m : Moment} {result : Except DurationFault Outcome} (h : Ends m result) :
    AtEnd m.1 := by
  cases h with
  | completed => exact Or.inl (Or.inl rfl)
  | cancelled => exact Or.inl (Or.inr ⟨_, rfl⟩)
  | failed => exact Or.inr ⟨_, _, rfl⟩

theorem not_atEnd_done (steps : List Step) : ¬ AtEnd (.done :: steps) := by
  rintro ((h | ⟨rest, h⟩) | ⟨fault, rest, h⟩)
  · cases h
  · cases h
  · cases h

theorem AtEnd.split {as bs taken rest : List Step} (hrest : AtEnd rest)
    (h : as ++ bs = taken ++ rest) (has : .checkpoint ∉ as) (hfail : ∀ fault, .fail fault ∉ as) :
    ∃ taken', taken = as ++ taken' ∧ bs = taken' ++ rest := by
  refine split_of_head_not_mem h fun x hx => ?_
  rcases hrest with (rfl | ⟨rest, rfl⟩) | ⟨fault, rest, rfl⟩
  · cases hx
  · cases hx
    exact has
  · cases hx
    exact hfail fault

theorem millisOf_quiet (prev : Option Kind) {beat : Beat} (h : beat.isQuiet = true) :
    millisOf (t.beatSteps prev beat) = t.pauseOf beat := by
  cases beat with
  | checkpoint => cases h
  | leaf kind s => cases h
  | iteration n total => rfl
  | settle => simp [Timing.beatSteps, Timing.beatPhrases, Timing.pauseOf]
  | rest => simp [Timing.beatSteps, Timing.beatPhrases, Timing.pauseOf]

theorem millisOf_interlockSteps (prev : Option Kind) (kind : Kind) :
    millisOf (t.interlockSteps prev kind) = t.interlockTime prev kind := by
  unfold Timing.interlockSteps Timing.interlockTime
  split_ifs
  · rw [millisOf_cons, millisOf_cons, millisOf_cons, millis_waitMillis]
    exact (Nat.zero_add _).trans (Nat.zero_add _)
  · rfl

/-- The steps `taken` of some beats, taken once the beats `pending` have passed since the leaf
`prev`, as stints and the beats passed after them. The steps `rest` and the beats `left` are those
that are left. -/
structure Played (t : Timing) (prev : Option Kind) (since : Nat) (pending beats : List Beat)
    (taken rest : List Step) (stints : List Stint) (after left : List Beat) : Prop where
  beats : pending ++ beats = stints.flatMap Stint.beats ++ after ++ left
  quiet : leavesOf after = []
  onTime : OnTime t prev since stints
  record : recordFrom (since + t.pauses pending) taken = stints.flatMap Stint.record
  clock : since + t.pauses pending + millisOf taken = ending since stints + t.pauses after
  interlocks : interlocksBy taken = interlocksAfter prev (stints.map Stint.leaf)
  whole : AtStop rest → ∀ s ∈ stints, s.Whole t
  completed : rest = [] → left = []

section Played

variable {prev : Option Kind} {since : Nat} {pending beats after left : List Beat}
  {taken rest : List Step} {stints : List Stint}

/-- A run that stops has passed the pending beats and no more. -/
theorem Played.stop (hpending : leavesOf pending = []) (hleft : rest = [] → left = []) :
    Played t prev since pending left [] rest [] pending left where
  beats := by simp
  quiet := hpending
  onTime := trivial
  record := rfl
  clock := rfl
  interlocks := rfl
  whole := fun _ _ h => by cases h
  completed := hleft

theorem Played.pass {beat : Beat} {steps : List Step}
    (h : Played t prev since (pending ++ [beat]) beats taken rest stints after left)
    (hmillis : millisOf steps = t.pauseOf beat) (hsent : sentBy steps = [])
    (hlocks : interlocksBy steps = 0) :
    Played t prev since pending (beat :: beats) (steps ++ taken) rest stints after left := by
  have hnow : since + t.pauses (pending ++ [beat]) =
      since + t.pauses pending + millisOf steps := by
    rw [pauses_append, pauses_cons, pauses_nil, Nat.add_zero, hmillis, Nat.add_assoc]
  refine ⟨?_, h.quiet, h.onTime, ?_, ?_, ?_, h.whole, h.completed⟩
  · rw [← h.beats, List.append_assoc]
    rfl
  · rw [recordFrom_append, recordFrom_of_sentBy_eq_nil hsent, List.nil_append, ← hnow, h.record]
  · rw [millisOf_append, ← Nat.add_assoc, ← hnow, h.clock]
  · rw [interlocksBy_append, hlocks, Nat.zero_add, h.interlocks]

/-- A leaf begins once the pending beats and the interlock are over; its own steps come after. -/
theorem begin_leaf (prev : Option Kind) (since : Nat) (pending : List Beat) (kind : Kind)
    (steps : List Step) :
    recordFrom (since + t.pauses pending) (t.interlockSteps prev kind ++ steps) =
      recordFrom (since + t.pauses pending + t.interlockTime prev kind) steps ∧
    since + t.pauses pending + millisOf (t.interlockSteps prev kind ++ steps) =
      since + t.pauses pending + t.interlockTime prev kind + millisOf steps := by
  have hsent := (effects_interlockSteps t prev kind).1
  refine ⟨?_, ?_⟩
  · rw [recordFrom_append, recordFrom_of_sentBy_eq_nil hsent, List.nil_append,
      millisOf_interlockSteps]
  · rw [millisOf_append, millisOf_interlockSteps, ← Nat.add_assoc]

theorem Played.leaf {kind : Kind} {s : Settings} (hpending : leavesOf pending = [])
    (hfail : ∀ fault, .fail fault ∉ t.actionSteps (kind, s))
    (h : Played t (some kind) (since + t.pauses pending + t.interlockTime prev kind +
      millisOf (t.actionSteps (kind, s))) [] beats taken rest stints after left) :
    Played t prev since pending (.leaf kind s :: beats)
      (t.interlockSteps prev kind ++ (t.actionSteps (kind, s) ++ .done :: taken)) rest
      (⟨pending, (kind, s), since + t.pauses pending + t.interlockTime prev kind,
        t.actionSteps (kind, s)⟩ :: stints) after left := by
  obtain ⟨hrecord, hclock⟩ := begin_leaf (t := t) prev since pending kind
    (t.actionSteps (kind, s) ++ .done :: taken)
  have hlocks := (effects_interlockSteps t prev kind).2.2.1
  have hdone : ∀ now, recordFrom now (.done :: taken) = recordFrom now taken := fun _ => rfl
  have hzero : millisOf (.done :: taken) = millisOf taken := by
    rw [millisOf_cons]
    exact Nat.zero_add _
  have hcount : interlocksBy (.done :: taken) = interlocksBy taken := rfl
  have hstart := h.record
  have hend := h.clock
  rw [pauses_nil, Nat.add_zero] at hstart hend
  refine ⟨?_, h.quiet, ⟨hpending, rfl, List.prefix_rfl, hfail, fun _ => rfl, h.onTime⟩, ?_, ?_, ?_,
    fun hstop => List.forall_mem_cons.mpr ⟨rfl, h.whole hstop⟩, h.completed⟩
  · rw [List.flatMap_cons, List.append_assoc, List.append_assoc, ← List.append_assoc _ after,
      ← h.beats, Stint.beats, List.append_assoc]
    rfl
  · rw [hrecord, recordFrom_append, hdone, hstart]
    rfl
  · rw [hclock, millisOf_append, hzero, ← Nat.add_assoc, hend]
    rfl
  · rw [interlocksBy_append, interlocksBy_append, hlocks, hcount, h.interlocks,
      interlocksBy_of_isAct (isAct_of_mem_actionSteps t (kind, s)), Nat.zero_add]
    rfl

theorem Played.failed {kind : Kind} {s : Settings} {steps : List Step}
    (hpending : leavesOf pending = []) (hsteps : steps <+: t.actionSteps (kind, s))
    (hfail : ∀ fault, .fail fault ∉ steps) (hrest : ¬ AtStop rest) (beats : List Beat) :
    Played t prev since pending (.leaf kind s :: beats) (t.interlockSteps prev kind ++ steps) rest
      [⟨pending, (kind, s), since + t.pauses pending + t.interlockTime prev kind, steps⟩]
      [] beats := by
  obtain ⟨hrecord, hclock⟩ := begin_leaf (t := t) prev since pending kind steps
  have hlocks := (effects_interlockSteps t prev kind).2.2.1
  have hact : ∀ x ∈ steps, x.isAct = true := fun x hx =>
    isAct_of_mem_actionSteps t (kind, s) x (hsteps.subset hx)
  refine ⟨?_, rfl, ⟨hpending, rfl, hsteps, hfail, fun h => absurd rfl h, trivial⟩, ?_, ?_, ?_,
    fun h => absurd h hrest, fun h => absurd (Or.inl h) hrest⟩
  · rw [List.flatMap_singleton, Stint.beats, List.append_nil, List.append_assoc]
    rfl
  · rw [hrecord, List.flatMap_singleton]
    rfl
  · rw [hclock]
    rfl
  · rw [interlocksBy_append, hlocks, interlocksBy_of_isAct hact]
    rfl

end Played

/-- **The steps up to the end of a run are stints and the pauses between them.** -/
theorem stints_of_split {prev : Option Kind} (since : Nat) {pending beats : List Beat}
    {taken rest : List Step} (hpending : leavesOf pending = [])
    (h : t.stepsOf prev beats = taken ++ rest) (hrest : AtEnd rest)
    (hfail : ∀ fault, .fail fault ∉ taken) :
    ∃ stints after left, Played t prev since pending beats taken rest stints after left := by
  induction beats generalizing prev since pending taken with
  | nil =>
    obtain ⟨rfl, rfl⟩ := List.append_eq_nil_iff.mp h.symm
    exact ⟨[], pending, [], .stop hpending fun _ => rfl⟩
  | cons beat beats ih =>
    rw [Timing.stepsOf] at h
    have hpass : leavesOf [beat] = [] → leavesOf (pending ++ [beat]) = [] := fun hbeat => by
      rw [leavesOf_append, hpending, hbeat]
      rfl
    have hquiet : beat.isQuiet = true → ∃ stints after left,
        Played t prev since pending (beat :: beats) taken rest stints after left := by
      intro hq
      obtain ⟨hact, hsent, hnofail, hlatest, hleaves⟩ := effects_quiet t prev hq
      obtain ⟨taken', rfl, h'⟩ :=
        hrest.split h (checkpoint_not_mem_of_isAct hact) hnofail
      rw [hlatest] at h'
      obtain ⟨stints, after, left, hplayed⟩ := ih since (hpass (hleaves [])) h'
        fun fault hmem => hfail fault (List.mem_append_right _ hmem)
      exact ⟨stints, after, left,
        hplayed.pass (millisOf_quiet prev hq) hsent (interlocksBy_of_isAct hact)⟩
    cases beat with
    | checkpoint =>
      rw [beatSteps_checkpoint] at h
      rcases taken with _ | ⟨step, taken⟩
      · refine ⟨[], pending, .checkpoint :: beats, .stop hpending fun hnil => ?_⟩
        rw [hnil] at h
        cases h
      · obtain ⟨hstep, htail⟩ := List.cons.inj h
        subst hstep
        obtain ⟨stints, after, left, hplayed⟩ := ih since (hpass rfl) htail
          fun fault hmem => hfail fault (List.mem_cons_of_mem _ hmem)
        exact ⟨stints, after, left, hplayed.pass (show millisOf [.checkpoint] = _ from rfl) rfl rfl⟩
    | leaf kind s =>
      have hlocks := (effects_interlockSteps t prev kind).2.2.2
      have hact := isAct_of_mem_actionSteps t (kind, s)
      rw [beatSteps_leaf, List.append_assoc, List.append_assoc] at h
      obtain ⟨taken', rfl, h'⟩ :=
        hrest.split h hlocks (fail_not_mem_interlockSteps t prev kind)
      have hfail' : ∀ fault, .fail fault ∉ taken' := fun fault hmem =>
        hfail fault (List.mem_append_right _ hmem)
      rcases List.append_eq_append_iff.mp h' with ⟨cs, rfl, htail⟩ | ⟨cs, hsteps, hcs⟩
      · -- the leaf is executed to its end
        rcases cs with _ | ⟨step, cs⟩
        · rw [List.nil_append] at htail
          rw [← htail] at hrest
          exact absurd hrest (not_atEnd_done _)
        · have htail : Step.done :: t.stepsOf (some kind) beats = step :: (cs ++ rest) := htail
          obtain ⟨rfl, hafter⟩ := List.cons.inj htail
          obtain ⟨stints, after, left, hplayed⟩ := ih _ leavesOf_nil hafter
            fun fault hmem => hfail' fault (List.mem_append_right _ (List.mem_cons_of_mem _ hmem))
          exact ⟨_, after, left, .leaf hpending
            (fun fault hmem => hfail' fault (List.mem_append_left _ hmem)) hplayed⟩
      · -- the run ends at a step of the leaf, which fails
        rcases cs with _ | ⟨step, cs⟩
        · rw [hcs] at hrest
          exact absurd hrest (not_atEnd_done _)
        · have hstep : step.isAct = true := hact step (by rw [hsteps]; simp)
          have hnotStop : ¬ AtStop rest := by
            rintro (hnil | ⟨more, hmore⟩)
            · rw [hnil] at hcs
              cases hcs
            · rw [hmore] at hcs
              rw [← (List.cons.inj hcs).1] at hstep
              cases hstep
          exact ⟨_, [], beats, .failed hpending ⟨step :: cs, hsteps.symm⟩ hfail' hnotStop beats⟩
    | iteration n total => exact hquiet rfl
    | settle => exact hquiet rfl
    | rest => exact hquiet rfl

/-! ### Runs -/

/-- A run from `p` to `q` on the clock: the leaves that it executes, the beats that it passes after
the last one, and the beats that are left when it ends. -/
structure Timeline (t : Timing) (blocks : List Block) (p q : Performance)
    (result : Except DurationFault Outcome) (stints : List Stint) (after left : List Beat) :
    Prop where
  beats : beatsOf blocks = stints.flatMap Stint.beats ++ after ++ left
  /-- No leaf is passed over. -/
  quiet : (∀ s ∈ stints, leavesOf s.before = []) ∧ leavesOf after = []
  record : q.channel.published.toList =
    p.channel.published.toList ++ stints.flatMap Stint.record
  first : ∀ s ∈ stints.head?, s.start = p.now + t.pauses s.before
  next : stints.IsChain (Stint.Next t)
  clock : q.now = ending p.now stints + t.pauses after
  interlocks : q.tally.interlocks = p.tally.interlocks + interlocks (stints.map Stint.leaf)
  /-- All leaves but one that fails are executed to their end. -/
  steps : ∀ s ∈ stints, s.steps <+: t.actionSteps s.leaf
  whole : ∀ outcome, result = .ok outcome → ∀ s ∈ stints, s.Whole t
  completed : result = .ok .completed → left = []

theorem Stint.OnTime.forall_mem {prev : Option Kind} {now : Nat} {stints : List Stint}
    (h : OnTime t prev now stints) :
    ∀ s ∈ stints, leavesOf s.before = [] ∧ s.steps <+: t.actionSteps s.leaf := by
  induction stints generalizing prev now with
  | nil => exact fun _ hs => by cases hs
  | cons s rest ih =>
    obtain ⟨hquiet, -, hsteps, -, -, hrest⟩ := h
    exact List.forall_mem_cons.mpr ⟨⟨hquiet, hsteps⟩, ih hrest⟩

theorem leavesOf_stints {stints : List Stint} (h : ∀ s ∈ stints, leavesOf s.before = []) :
    leavesOf (stints.flatMap Stint.beats) = stints.map Stint.leaf := by
  induction stints with
  | nil => rfl
  | cons s rest ih =>
    obtain ⟨hs, hrest⟩ := List.forall_mem_cons.mp h
    rw [List.flatMap_cons, leavesOf_append, ih hrest, Stint.beats, leavesOf_append, hs]
    rfl

theorem Timeline.leaves {blocks : List Block} {p q : Performance}
    {result : Except DurationFault Outcome} {stints : List Stint} {after left : List Beat}
    (h : Timeline t blocks p q result stints after left) :
    Block.leavesAll blocks = stints.map Stint.leaf ++ leavesOf left := by
  rw [← leavesOf_beatsOf, h.beats, leavesOf_append, leavesOf_append, leavesOf_stints h.quiet.1,
    h.quiet.2, List.append_nil]

/-- **Every run has a timeline.** -/
theorem Run.timeline {blocks : List Block} {p q : Performance}
    {result : Except DurationFault Outcome}
    (h : Run (t.stepsOf none (beatsOf blocks), p) q result) :
    ∃ stints after left, Timeline t blocks p q result stints after left := by
  obtain ⟨rest, hcourse, hends⟩ := h.course
  obtain ⟨taken, htaken, heffect, -⟩ := hcourse.effect
  obtain ⟨taken', htaken', hfail⟩ := hcourse.passes
  rw [htaken] at htaken'
  obtain rfl := List.append_cancel_right htaken'
  have htimed := hcourse.timed htaken
  obtain ⟨stints, after, left, hplayed⟩ :=
    stints_of_split p.now leavesOf_nil htaken hends.atEnd hfail
  have hrecord := hplayed.record
  have hclock := hplayed.clock
  rw [pauses_nil, Nat.add_zero] at hrecord hclock
  refine ⟨stints, after, left, hplayed.beats, ⟨fun s hs => (hplayed.onTime.forall_mem s hs).1,
    hplayed.quiet⟩, ?_, fun s hs => ?_, hplayed.onTime.isChain, ?_, ?_,
    fun s hs => (hplayed.onTime.forall_mem s hs).2, fun outcome hok => ?_, fun hok => ?_⟩
  · rw [htimed.record, hrecord]
  · rcases stints with _ | ⟨a, more⟩
    · cases hs
    · cases hs
      -- nothing comes before the first leaf
      exact hplayed.onTime.2.1
  · rw [htimed.now, hclock]
  · rw [heffect.interlocks, hplayed.interlocks, interlocksAfter_none]
  · refine hplayed.whole ?_
    cases hends with
    | completed => exact Or.inl rfl
    | cancelled => exact Or.inr ⟨_, rfl⟩
    | failed => cases hok
  · refine hplayed.completed ?_
    cases hends with
    | completed => rfl
    | cancelled => cases hok
    | failed => cases hok

/-- **Leaves that strain the base are kept apart in time.** Whoever acts on a run and cancels it,
whenever that may be, the run executes leaves of its program one after the other: each begins exactly
when the pauses since the leaf before are over and, if the two need one, the interlock; nothing is
waited for the interlock elsewhere, and the run counts one for each such pair. Of such a pair the
first leaf sends the stop last, and all that the second sends comes at least the interlock after it.

Runs that are left alone and runs in sessions are such runs. -/
theorem straining_leaves_keep_apart (t : Timing) (blocks : List Block) :
    (∀ p q result, Run (t.stepsOf none (beatsOf blocks), p) q result →
      ∃ stints after left, Timeline t blocks p q result stints after left) ∧
    (∀ p, ∃ result, (perform t blocks p).2 = .ofResult result ∧
      ∃ stints after left, Timeline t blocks p (perform t blocks p).1 result stints after left) ∧
    ∀ (s s' : Session) (program : Program) (id : RunId), s.Reachable → s.timing = t →
      program.toBlocks = blocks → s.start program = .ok (id, s') → ∀ events : List SessionEvent,
      ∃ p q result stints after left, p.tally = {} ∧ p.now = s.now ∧
        p.channel.published = s.channel.published ∧
        Timeline t blocks p q result stints after left ∧
        ((events.foldl Session.after s').wait id).1 = Session.answerOf result q.tally ∧
        ((events.foldl Session.after s').wait id).2.channel.published = q.channel.published := by
  refine ⟨fun p q result hrun => hrun.timeline, fun p => ?_, ?_⟩
  · obtain ⟨result, hresult, hrun⟩ := run_perform t blocks p
    exact ⟨result, hresult, hrun.timeline⟩
  · rintro s s' program id hs rfl rfl hstart events
    obtain ⟨p, q, result, htally, hnow, hrecord, hrun, hreport, hchannel, -, -⟩ :=
      Session.run_after hs hstart events
    obtain ⟨stints, after, left, htimeline⟩ := hrun.timeline
    exact ⟨p, q, result, stints, after, left, htally, hnow, hrecord, htimeline, hreport, hchannel⟩

/-- Between the stop of a drive and a drive the other way there is a second. -/
theorem reversal_keeps_apart :
    ∃ (q : Performance) (a b : Stint),
      (perform {} [.ofKind .moveForward, .ofKind .moveBackward] { id := 0 }).1 = q ∧
      q.tally.interlocks = 1 ∧ q.channel.published.toList = a.record ++ b.record ∧
      ∃ e, a.record.getLast? = some e ∧ e.command = .stop ∧
        ∀ e' ∈ b.record, e.time + 1000 ≤ e'.time := by
  obtain ⟨result, -, stints, after, left, htimeline⟩ :=
    (straining_leaves_keep_apart {} [.ofKind .moveForward, .ofKind .moveBackward]).2.1 { id := 0 }
  have hone : (perform {} [.ofKind .moveForward, .ofKind .moveBackward]
      { id := 0 }).1.tally.interlocks = 1 := by decide
  have hcount : interlocks (stints.map Stint.leaf) = 1 := by
    have h := htimeline.interlocks
    rw [hone, Nat.zero_add] at h
    exact h.symm
  have hleaves : [(Kind.moveForward, Settings.empty), (.moveBackward, .empty)] =
      stints.map Stint.leaf ++ leavesOf left := htimeline.leaves
  rcases stints with _ | ⟨a, _ | ⟨b, _ | ⟨c, more⟩⟩⟩
  · cases hcount
  · cases hcount
  · obtain ⟨ha, hleaves⟩ := List.cons.inj hleaves
    obtain ⟨hb, -⟩ := List.cons.inj hleaves
    have hrisky : needsInterlock (some a.leaf.1) (some b.leaf.1) = true := by
      rw [← ha, ← hb]
      rfl
    refine ⟨_, a, b, rfl, hone, ?_, (List.isChain_pair.mp htimeline.next).apart hrisky⟩
    rw [htimeline.record]
    exact congrArg (a.record ++ ·) (List.append_nil _)
  · have hlength := congrArg List.length hleaves
    simp at hlength

end Choreo
