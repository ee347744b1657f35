import Choreo.Block.Param

/-!
# Kinds of blocks

The closed vocabulary of a block program: gestures of the arm, motions of the wheeled base, the
repeat, which alone has children, and the pause.
-/

namespace Choreo

/-- What a block acts on. -/
inductive Category where
  | arm
  | wheel
  | control
  | other
deriving DecidableEq, Repr

/-- How a wheel block moves the base. -/
inductive Motion where
  | forward
  | backward
  | turnLeft
  | turnRight
deriving DecidableEq, Repr

namespace Motion

/-- Whether the base keeps its heading. -/
def isLinear : Motion → Bool
  | .forward | .backward => true
  | .turnLeft | .turnRight => false

/-- Whether the base turns on the spot. -/
def isAngular (m : Motion) : Bool := !m.isLinear

end Motion

/-- What a block does. -/
inductive Kind where
  | raiseArm
  | lowerArm
  | wave
  | handshake
  | moveForward
  | moveBackward
  | turnLeft
  | turnRight
  | loop
  | pause
deriving DecidableEq, Repr

namespace Kind

/-- All kinds, in vocabulary order. -/
def all : List Kind :=
  [.raiseArm, .lowerArm, .wave, .handshake, .moveForward, .moveBackward, .turnLeft, .turnRight,
    .loop, .pause]

/-- The name of the kind in program files and in commands to the arm. -/
def name : Kind → String
  | .raiseArm => "raise_arm"
  | .lowerArm => "lower_arm"
  | .wave => "wave"
  | .handshake => "handshake"
  | .moveForward => "move_forward"
  | .moveBackward => "move_backward"
  | .turnLeft => "turn_left"
  | .turnRight => "turn_right"
  | .loop => "repeat"
  | .pause => "pause"

/-- The name of the kind as one capitalised word, as log lines have it. -/
def title : Kind → String
  | .raiseArm => "RaiseArm"
  | .lowerArm => "LowerArm"
  | .wave => "Wave"
  | .handshake => "Handshake"
  | .moveForward => "MoveForward"
  | .moveBackward => "MoveBackward"
  | .turnLeft => "TurnLeft"
  | .turnRight => "TurnRight"
  | .loop => "Repeat"
  | .pause => "Pause"

/-- The kind with the given name. -/
def ofName? (name : String) : Option Kind := all.find? (·.name = name)

theorem mem_all (k : Kind) : k ∈ all := by cases k <;> decide

theorem ofName?_name (k : Kind) : ofName? k.name = some k := by cases k <;> decide

def category : Kind → Category
  | .raiseArm | .lowerArm | .wave | .handshake => .arm
  | .moveForward | .moveBackward | .turnLeft | .turnRight => .wheel
  | .loop => .control
  | .pause => .other

/-- Whether blocks of this kind have children. -/
def isContainer (k : Kind) : Bool := k = .loop

/-- How blocks of this kind move the base, if they do. -/
def motion? : Kind → Option Motion
  | .moveForward => some .forward
  | .moveBackward => some .backward
  | .turnLeft => some .turnLeft
  | .turnRight => some .turnRight
  | _ => none

/-- The parameters that blocks of this kind take, in the order in which they are declared. -/
def params : Kind → List Param
  | .moveForward | .moveBackward => [.speed, .duration]
  | .turnLeft | .turnRight => [.angle]
  | .loop => [.times]
  | .pause => [.seconds]
  | .raiseArm | .lowerArm | .wave | .handshake => []

/-- Whether blocks of this kind take `p`. -/
def accepts (k : Kind) (p : Param) : Bool := p ∈ k.params

end Kind

end Choreo
