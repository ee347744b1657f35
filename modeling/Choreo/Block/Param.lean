import Choreo.Number.Double

/-!
# Parameters

The five named numbers that a block can carry, their domains and defaults, and the record of those
that are set on a block. Every stored value is clamped, so it lies in its domain; the repeat count
is rounded to a whole number first.
-/

namespace Choreo

/-- A named number of a block. -/
inductive Param where
  /-- Linear speed in metres per second. -/
  | speed
  /-- Turn angle in degrees. -/
  | angle
  /-- Length of a linear motion in seconds. -/
  | duration
  /-- Length of a pause in seconds. -/
  | seconds
  /-- How often a repeat runs its children. -/
  | times
deriving DecidableEq, Repr

namespace Param

/-- All parameters, in the order in which they are listed and read. -/
def all : List Param := [.speed, .angle, .duration, .seconds, .times]

def name : Param → String
  | .speed => "speed"
  | .angle => "angle"
  | .duration => "duration"
  | .seconds => "seconds"
  | .times => "times"

/-- The parameter with the given name. -/
def ofName? (name : String) : Option Param := all.find? (·.name = name)

theorem mem_all (p : Param) : p ∈ all := by cases p <;> decide

theorem ofName?_name (p : Param) : ofName? p.name = some p := by cases p <;> decide

/-- The least value of the domain. -/
def low : Param → Float
  | .speed => 0.1
  | .angle => 1.0
  | .duration => 0.5
  | .seconds => 1.0
  | .times => 1.0

/-- The greatest value of the domain. -/
def high : Param → Float
  | .speed => 0.3
  | .angle => 360.0
  | .duration => 10.0
  | .seconds => 10.0
  | .times => 10.0

/-- The value that counts when the parameter is not set. -/
def defaultValue : Param → Float
  | .speed => 0.2
  | .angle => 90.0
  | .duration => 2.0
  | .seconds => 1.0
  | .times => 1.0

/-- Whether the parameter counts something. -/
def isWhole : Param → Bool
  | .times => true
  | _ => false

/-- The value of the domain nearest to a finite number, which is rounded first where the parameter
counts something; none for a number that is not finite. -/
def clamp? (p : Param) (value : Float) : Option Float :=
  if value.isFinite then
    let value := if p.isWhole then Double.roundAway value else value
    some (if value < p.low then p.low else if p.high < value then p.high else value)
  else none

/-- Whether `value` is one that a block can store for the parameter. -/
def Admits (p : Param) (value : Float) : Prop :=
  value.isFinite ∧ p.low ≤ value ∧ value ≤ p.high ∧
    (p.isWhole → ∃ n : Nat, value = Double.ofNat n)

end Param

/-- The parameters that are set on a block. -/
structure Settings where
  speed : Option Float := none
  angle : Option Float := none
  duration : Option Float := none
  seconds : Option Float := none
  times : Option Float := none
deriving DecidableEq

namespace Settings

/-- No parameter set. -/
def empty : Settings := {}

/-- The value of a parameter, if it is set. -/
def get? (s : Settings) : Param → Option Float
  | .speed => s.speed
  | .angle => s.angle
  | .duration => s.duration
  | .seconds => s.seconds
  | .times => s.times

/-- The settings with one more value, or with another value for one parameter. -/
def insert (s : Settings) : Param → Float → Settings
  | .speed, x => { s with speed := some x }
  | .angle, x => { s with angle := some x }
  | .duration, x => { s with duration := some x }
  | .seconds, x => { s with seconds := some x }
  | .times, x => { s with times := some x }

/-- The set parameters with their values, in listing order. -/
def toList (s : Settings) : List (Param × Float) :=
  Param.all.filterMap fun p => (s.get? p).map (p, ·)

def isEmpty (s : Settings) : Bool := s.toList.isEmpty

@[simp] theorem get?_empty (p : Param) : empty.get? p = none := by cases p <;> rfl

@[simp] theorem get?_insert_self (s : Settings) (p : Param) (x : Float) :
    (s.insert p x).get? p = some x := by cases p <;> rfl

theorem get?_insert_of_ne (s : Settings) {p q : Param} (h : q ≠ p) (x : Float) :
    (s.insert p x).get? q = s.get? q := by
  cases p <;> cases q <;> simp_all [insert, get?]

theorem ext_get? {s t : Settings} (h : ∀ p, s.get? p = t.get? p) : s = t := by
  obtain ⟨_, _, _, _, _⟩ := s
  obtain ⟨_, _, _, _, _⟩ := t
  obtain rfl := h .speed
  obtain rfl := h .angle
  obtain rfl := h .duration
  obtain rfl := h .seconds
  obtain rfl := h .times
  rfl

end Settings

end Choreo
