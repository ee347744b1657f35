import Choreo.Block.Kind
import Choreo.Number.Format
import Choreo.Text.Quoted

/-!
# Commands

What the robot is told: a gesture for the arm, or velocities for the base. A command has a short
text for listings, with two places for a number, and a JSON text for transport.
-/

namespace Choreo

/-- The part of the robot that a command is for. -/
inductive Target where
  | arm
  | drive
deriving DecidableEq, Repr

/-- A quantity along each of three axes. -/
structure Vector3 where
  x : Float := 0.0
  y : Float := 0.0
  z : Float := 0.0
deriving DecidableEq

/-- The velocities of the base, in metres and in radians per second. -/
structure Twist where
  linear : Vector3 := {}
  angular : Vector3 := {}
deriving DecidableEq

/-- One command. -/
inductive Command where
  | gesture (name : String)
  | drive (twist : Twist)
deriving DecidableEq

def Target.name : Target → String
  | .arm => "arm"
  | .drive => "drive"

namespace Twist

/-- No motion. -/
def stop : Twist := {}

/-- Motion straight on. -/
def straight (speed : Float) : Twist := { linear := { x := speed } }

/-- Turning on the spot. -/
def turning (rate : Float) : Twist := { angular := { z := rate } }

end Twist

namespace Command

/-- The command that ends a motion. -/
def stop : Command := .drive .stop

/-- The part of the robot that the command is for. -/
def target : Command → Target
  | .gesture _ => .arm
  | .drive _ => .drive

/-- The text of the command in listings. -/
def text : Command → String
  | .gesture name => s!"arm:{name}"
  | .drive twist => s!"drive:{writeFixed 2 twist.linear.x},{writeFixed 2 twist.angular.z}"

/-! ### JSON -/

/-- A JSON object with the given members. -/
def jsonObject (members : List (String × String)) : String :=
  "\x7b" ++ ",".intercalate (members.map fun (k, v) => jsonString k ++ ":" ++ v) ++ "\x7d"

/-- A number in JSON, where only finite ones have a text. -/
def jsonNumber (x : Float) : String := if x.isFinite then NumberFormat.json.write x else "null"

def jsonVector (v : Vector3) : String :=
  jsonObject [("x", jsonNumber v.x), ("y", jsonNumber v.y), ("z", jsonNumber v.z)]

/-- The command in JSON. -/
def json : Command → String
  | .gesture name => jsonObject [("arm", jsonObject [("gesture", jsonString name)])]
  | .drive twist =>
    jsonObject [("drive",
      jsonObject [("linear", jsonVector twist.linear), ("angular", jsonVector twist.angular)])]

/-- The command and its target as one line for transport. -/
def line (c : Command) : String :=
  jsonObject [("target", jsonString c.target.name), ("command", c.json)]

end Command

end Choreo
