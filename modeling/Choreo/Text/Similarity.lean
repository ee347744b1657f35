import Choreo.Number.Double

/-!
# Similarity of words

How much two words have in common, from zero to one: characters that both have at about the same
place count, those that come in another order count half. A word that was mistyped is recognised by
it.
-/

namespace Choreo

/-- The places of the characters of `b`, of which `used` are taken, that match the characters of `a`
from place `i` on, at most `reach` places away. The answer pairs places in `a` and `b`. -/
def matchPlaces (reach : Nat) (b : List Char) : (i : Nat) → (used : List Nat) → List Char →
    List (Nat × Nat)
  | _, _, [] => []
  | i, used, c :: rest =>
    let found := b.zipIdx.find? fun (d, j) =>
      c = d && i ≤ j + reach && j ≤ i + reach && !used.contains j
    match found with
    | some (_, j) => (i, j) :: matchPlaces reach b (i + 1) (j :: used) rest
    | none => matchPlaces reach b (i + 1) used rest

/-- The share that two words have in common. -/
def similarity (a b : String) : Float :=
  let x := a.toList
  let y := b.toList
  let found := matchPlaces (max x.length y.length / 2 - 1) y 0 [] x
  let count := found.length
  if x.isEmpty && y.isEmpty then 1.0
  else if count = 0 then 0.0
  else
    let inA := found.map fun (i, _) => x[i]?
    let inB := ((found.map (·.2)).mergeSort (· ≤ ·)).map fun j => y[j]?
    let moved := ((inA.zip inB).filter fun (c, d) => c ≠ d).length / 2
    let ratio (n d : Nat) : Float := Double.ofNat n / Double.ofNat d
    (ratio count x.length + ratio count y.length + ratio (count - moved) count) / 3.0

end Choreo
