import Choreo.Duration
import Choreo.Number.Format

/-!
# Timing

The delays and rates that runs go by, and what follows from them for a turn: how long it takes, and
how many velocity commands it needs at one for every tick.
-/

namespace Choreo

/-- Fixed delays in milliseconds and the rates of a turn in radians per second. -/
structure Timing where
  /-- The time that a gesture takes. -/
  armActuation : Nat := 2000
  /-- The time to settle after a gesture inside a repeat. -/
  armSettle : Nat := 1000
  /-- The pause between two iterations of a repeat. -/
  repeatPause : Nat := 500
  /-- The rest of the base before a motion that strains it. -/
  safetyInterlock : Nat := 1000
  /-- The time between two velocity commands of a turn. -/
  tick : Nat := 100
  angularSpeed : Float := 0.3
  /-- What the drivetrain adds to the rate of a turn. -/
  drivetrainCorrection : Float := 0.0634
deriving DecidableEq

/-- Why a timing cannot be used. -/
inductive TimingFault where
  | noTick
  | badRate (rate : Float)

def TimingFault.message : TimingFault → String
  | .noTick => "tick_ms must be positive"
  | .badRate rate =>
    s!"angular_speed + drivetrain_correction must be positive, got {NumberFormat.plain.write rate}"

namespace Timing

/-- The rate that a turn really has. -/
def turnRate (t : Timing) : Float := t.angularSpeed + t.drivetrainCorrection

/-- Checks that turns make progress. -/
def validate (t : Timing) : Except TimingFault Unit :=
  if t.tick = 0 then .error .noTick
  else if t.turnRate.isFinite && !(t.turnRate ≤ 0.0) then .ok ()
  else .error (.badRate t.turnRate)

def tickDuration (t : Timing) : Duration := .ofMillis t.tick

/-- The number of radians of one degree. -/
def radiansPerDegree : Float := 3.141592653589793 / 180.0

/-- The number of seconds that a turn by `angle` degrees takes. -/
def turnSeconds (t : Timing) (angle : Float) : Float := angle * radiansPerDegree / t.turnRate

/-- The time that a turn by `angle` degrees takes. -/
def turnDuration (t : Timing) (angle : Float) : Except DurationFault Duration :=
  Duration.ofSeconds (t.turnSeconds angle)

/-- The greatest number of velocity commands of one turn. -/
def maxTicks : Nat := 2 ^ 32 - 1

/-- The number of velocity commands of a turn that takes `d`. -/
def sweepTicks (t : Timing) (d : Duration) : Nat :=
  Double.ceilUpTo maxTicks (d.seconds / t.tickDuration.seconds)

end Timing

end Choreo
