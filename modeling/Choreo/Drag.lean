import Choreo.Number.Double

/-!
# Dragging a block along its siblings

While an item is dragged over others, it takes the place of the one under the pointer as soon as the
pointer passes the middle of that one, on the way away from the place that the dragged item has. So
an item that just changed places does not jump back at the next small motion.
-/

namespace Choreo

/-- The way from one slot of a list to another. -/
inductive DragDirection where
  | up
  | down
deriving DecidableEq, Repr

/-- The direction between two slots, if they differ. -/
def DragDirection.between? (source target : Nat) : Option DragDirection :=
  match compare source target with
  | .lt => some .down
  | .gt => some .up
  | .eq => none

/-- The vertical extent of an item under the pointer. -/
structure HoverBounds where
  top : Float32
  height : Float32

def HoverBounds.midpoint (b : HoverBounds) : Float32 := b.top + b.height / 2.0

/-- Whether the pointer has passed the middle of the item. -/
def DragDirection.passed (d : DragDirection) (pointer : Float32) (bounds : HoverBounds) : Bool :=
  match d with
  | .down => bounds.midpoint < pointer
  | .up => pointer < bounds.midpoint

/-- The pointer over an item of the list. -/
structure Hover where
  hovered : Nat
  pointer : Float32
  bounds : HoverBounds

/-- Where the dragged item goes from the slot `dragged`, if it moves. -/
def Hover.target? (h : Hover) (dragged : Nat) : Option Nat :=
  match DragDirection.between? dragged h.hovered with
  | some d => if d.passed h.pointer h.bounds then some h.hovered else none
  | none => none

/-- The moves, as pairs of slots, that a drag from the slot `dragged` makes, event by event. -/
def dragMoves (dragged : Nat) : List Hover → List (Nat × Nat)
  | [] => []
  | h :: rest =>
    match h.target? dragged with
    | some target => (dragged, target) :: dragMoves target rest
    | none => dragMoves dragged rest

/-- The slot of the dragged item after some events. -/
def dragSlot (dragged : Nat) (events : List Hover) : Nat :=
  events.foldl (fun slot h => (h.target? slot).getD slot) dragged

end Choreo
