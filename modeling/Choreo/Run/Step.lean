import Choreo.Command
import Choreo.Interlock
import Choreo.Run.Beat
import Choreo.Timing

/-!
# The steps of a run

What a run does at each beat under a timing. A gesture is sent and given its time; a straight motion
is sent, given its time and stopped; a turn sends its velocity once every tick, stops, and rests as
long as the sweep and one tick; a pause waits. Before a motion that strains the base after the leaf
before, the run waits for the interlock. A time that cannot be computed ends the run at that step.

A beat is given as phrases, each taken so many times. `stepsOf` lists the steps plainly, `dispatch`
one by one; `toList_dispatch` says that both are the same.
-/

namespace Choreo

/-- What a run tells about a step before it takes it. -/
inductive StepNote where
  | iteration (number total : Nat)
  | interlock (prev : Option Kind) (next : Kind)
  | turning (angle : Float) (duration : Duration) (ticks : Nat)
  | driving (velocity seconds : Float)
  | pausing (seconds : Float)

/-- One step of a run. -/
inductive Step where
  /-- Here a cancelled run stops. -/
  | checkpoint
  | note (note : StepNote)
  /-- A wait for the interlock is counted. -/
  | interlock
  | publish (command : Command)
  | wait (duration : Duration)
  /-- A leaf is done and counted. -/
  | done
  /-- The run fails. -/
  | fail (fault : DurationFault)

/-- A wait of so many milliseconds. -/
def Step.waitMillis (n : Nat) : Step := .wait (.ofMillis n)

/-- A wait whose length may not exist. -/
def Step.waitFor : Except DurationFault Duration → Step
  | .ok d => .wait d
  | .error fault => .fail fault

/-- Steps that are taken so many times in a row. -/
structure Phrase where
  times : Nat
  steps : List Step

namespace Phrase

/-- The steps of a phrase one after the other. -/
def toList (f : Phrase) : List Step := (List.replicate f.times f.steps).flatten

/-- Steps that are taken once. -/
def once (steps : List Step) : Phrase := ⟨1, steps⟩

@[simp] theorem toList_once (steps : List Step) : (once steps).toList = steps := by
  simp [once, toList]

/-- The steps of some phrases, one by one, then those that follow. -/
def unroll : List Phrase → (Unit → LazyList Step) → LazyList Step
  | [], next => next ()
  | f :: rest, next => .prependTimes f.steps f.times fun _ => unroll rest next

@[simp] theorem toList_unroll (phrases : List Phrase) (next : Unit → LazyList Step) :
    (unroll phrases next).toList = phrases.flatMap toList ++ (next ()).toList := by
  induction phrases with
  | nil => rfl
  | cons f rest ih => simp [unroll, toList, ih]

end Phrase

namespace Timing

/-- The phrases of a turn. -/
def turnPhrases (t : Timing) (motion : Motion) (angle : Float) : List Phrase :=
  match t.turnDuration angle with
  | .error fault => [.once [.fail fault]]
  | .ok duration =>
    let rate := if motion = .turnRight then -t.angularSpeed else t.angularSpeed
    let ticks := t.sweepTicks duration
    [.once [.note (.turning angle duration ticks)],
      ⟨ticks, [.publish (.drive (.turning rate)), .waitMillis t.tick]⟩,
      .once [.publish .stop, .waitFor (duration.add t.tickDuration)]]

/-- The steps of a straight motion. -/
def driveSteps (motion : Motion) (speed seconds : Float) : List Step :=
  let velocity := if motion = .backward then -speed else speed
  [.note (.driving velocity seconds), .publish (.drive (.straight velocity)),
    .waitFor (Duration.ofSeconds seconds), .publish .stop]

/-- The steps of a pause, which lasts whole milliseconds. -/
def pauseSteps (seconds : Float) : List Step :=
  [.note (.pausing seconds), .waitMillis (seconds * 1000.0).toUInt64.toNat]

/-- The phrases of a leaf that are its own. -/
def actionPhrases (t : Timing) (kind : Kind) (s : Settings) : List Phrase :=
  match kind.motion? with
  | some motion =>
    if motion.isAngular then t.turnPhrases motion (s.value .angle)
    else [.once (driveSteps motion (s.value .speed) (s.value .duration))]
  | none =>
    if kind.category = .arm then
      [.once [.publish (.gesture kind.name), .waitMillis t.armActuation]]
    else [.once (pauseSteps (s.value .seconds))]

/-- The steps before a leaf that follows the leaf `prev`. -/
def interlockSteps (t : Timing) (prev : Option Kind) (kind : Kind) : List Step :=
  if needsInterlock prev kind then
    [.note (.interlock prev kind), .interlock, .waitMillis t.safetyInterlock]
  else []

/-- The phrases of a beat after the leaf `prev`. -/
def beatPhrases (t : Timing) (prev : Option Kind) : Beat → List Phrase
  | .checkpoint => [.once [.checkpoint]]
  | .iteration number total => [.once [.note (.iteration number total)]]
  | .leaf kind settings =>
    .once (t.interlockSteps prev kind) :: t.actionPhrases kind settings ++ [.once [.done]]
  | .settle => [.once [.waitMillis t.armSettle]]
  | .rest => [.once [.waitMillis t.repeatPause]]

/-- The steps of a beat after the leaf `prev`. -/
def beatSteps (t : Timing) (prev : Option Kind) (beat : Beat) : List Step :=
  (t.beatPhrases prev beat).flatMap Phrase.toList

/-- The steps of some beats after the leaf `prev`. -/
def stepsOf (t : Timing) : Option Kind → List Beat → List Step
  | _, [] => []
  | prev, beat :: rest => t.beatSteps prev beat ++ stepsOf t (latest prev beat) rest
where
  /-- The latest leaf once a beat is over. -/
  latest (prev : Option Kind) : Beat → Option Kind
    | .leaf kind _ => some kind
    | _ => prev

/-- The steps of some beats after the leaf `prev`, one by one. -/
def dispatch (t : Timing) : Option Kind → LazyList Beat → LazyList Step
  | _, .nil => .nil
  | prev, .cons beat rest =>
    Phrase.unroll (t.beatPhrases prev beat) fun _ => dispatch t (stepsOf.latest prev beat) (rest ())

theorem toList_dispatch (t : Timing) (prev : Option Kind) (beats : LazyList Beat) :
    (t.dispatch prev beats).toList = t.stepsOf prev beats.toList := by
  induction beats generalizing prev with
  | nil => rfl
  | cons beat rest ih => simp [dispatch, stepsOf, beatSteps, ih]

/-- The steps of a run of `blocks`. -/
def score (t : Timing) (blocks : List Block) : LazyList Step := t.dispatch none (unroll blocks)

theorem toList_score (t : Timing) (blocks : List Block) :
    (t.score blocks).toList = t.stepsOf none (beatsOf blocks) := by
  rw [score, toList_dispatch, toList_unroll]

end Timing

end Choreo
