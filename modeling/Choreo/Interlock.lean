import Choreo.Block.Kind

/-!
# Interlocks

Reversing the base, turning it the other way, or changing between straight motion and turning
without a pause strains its drive. Before such a step a run waits.
-/

namespace Choreo

/-- Whether the base must rest between two motions. -/
def Motion.strains (prev next : Motion) : Bool :=
  match prev, next with
  | .forward, .backward | .backward, .forward => true
  | .turnLeft, .turnRight | .turnRight, .turnLeft => true
  | _, _ => prev.isLinear != next.isLinear

/-- Whether a run waits between two blocks; only blocks that move the base count, and nothing comes
before the first block. -/
def needsInterlock (prev next : Option Kind) : Bool :=
  match prev.bind Kind.motion?, next.bind Kind.motion? with
  | some p, some n => p.strains n
  | _, _ => false

end Choreo
