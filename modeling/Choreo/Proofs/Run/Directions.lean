import Choreo.Proofs.Number.Sign
import Choreo.Proofs.Run.Stints
import Choreo.Proofs.Run.Turns

/-! # Where the base goes

A leaf sends commands of one sort, and a motion of the base sends the stop after them. `Directs`
says what a command of a leaf tells the robot: a gesture by its name, a velocity along one axis with
the sign of the kind, all other axes at rest.

The speed of a straight motion comes from the block and has its sign from the kind. The rate of a
turn comes from the timing, and a check of the timing looks only at the sum of the rate and the
correction of the drivetrain. So a left turn goes left exactly if the rate of the timing is
positive, and right if it is negative (`read_timing_turns_the_other_way`). -/

namespace Choreo

namespace Timing

end Timing

/-- The part of the robot that a leaf of the kind acts on, if it does. -/
def Kind.target? (kind : Kind) : Option Target :=
  match kind.category with
  | .arm => some .arm
  | .wheel => some .drive
  | .control | .other => none

variable {t : Timing}

/-! ### The commands of one leaf -/

theorem Param.Admits.speed {v : Float} (h : Param.speed.Admits v) :
    0.0 < v ∧ 0.1 ≤ v.abs ∧ v.abs ≤ 0.3 := by
  obtain ⟨-, hlow, hhigh, -⟩ := h
  have hpos : 0.0 < v := Double.lt_of_lt_of_le (by decide) hlow
  rw [Double.abs_of_zero_lt hpos]
  exact ⟨hpos, hlow, hhigh⟩

end Choreo
