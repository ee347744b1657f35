import Choreo.Program.Edit
import Mathlib.Tactic.SplitIfs

/-! # Edits of nested lists

A program means the nested list of its blocks, and each edit means an edit of that list: insertion,
removal and reordering change the sibling list that a path names, a parameter is set on the block
that a path names, and a move takes a block out of one list and puts it into another. No numbers and
no links are involved.

A move names its destination in the forest as it is before the block is taken out.
`afterRemoval` says where that list stands afterwards: the index by which its path passes the list
that lost a block goes down by one if it lies behind that block. -/

namespace Choreo.Forest

/-- The sibling list at some indices below the list `bs`, which stands at `walked`. -/
def siblings (walked : Path) : (bs : List Block) → List Nat → Except EditError (List Block)
  | bs, [] => .ok bs
  | bs, i :: rest =>
    match bs[i]? with
    | none => .error (.outOfRange walked i bs.length)
    | some b =>
      if b.isContainer then siblings (walked.child i) b.children rest
      else .error (.invalidTarget (walked.child i))

/-- The forest with another sibling list at the given indices. -/
def graft : (bs : List Block) → List Nat → (new : List Block) → List Block
  | _, [], new => new
  | bs, i :: rest, new => bs.modify i fun b => { b with children := graft b.children rest new }

/-- The block at an index of the list `cs`, which stands at `parent`. -/
def pick (parent : Path) (cs : List Block) (i : Nat) : Except EditError Block :=
  match cs[i]? with
  | none => .error (.outOfRange parent i cs.length)
  | some b => .ok b

/-- The list `cs`, which stands at `parent`, with `b` at an index. -/
def put (parent : Path) (cs : List Block) (i : Nat) (b : Block) : Except EditError (List Block) :=
  if cs.length < i then .error (.outOfRange parent i cs.length) else .ok (cs.insertIdx i b)

/-- Where the list at `dest` stands once the block at index `i` of the list at `parent` is out. -/
def afterRemoval : (parent : List Nat) → (i : Nat) → (dest : List Nat) → List Nat
  | _, _, [] => []
  | [], i, j :: rest => (if i < j then j - 1 else j) :: rest
  | k :: parent, i, j :: rest => j :: if k = j then afterRemoval parent i rest else rest

/-- Where the list at `list` stands once the list at `parent` has the blocks that were at `j` at
`shift j`. -/
def relocate : (parent : List Nat) → (shift : Nat → Nat) → (list : List Nat) → List Nat
  | _, _, [] => []
  | [], shift, j :: rest => shift j :: rest
  | k :: parent, shift, j :: rest => j :: if k = j then relocate parent shift rest else rest

theorem afterRemoval_eq_relocate (parent : List Nat) (i : Nat) (dest : List Nat) :
    afterRemoval parent i dest = relocate parent (fun j => if i < j then j - 1 else j) dest := by
  induction parent generalizing dest with
  | nil => cases dest <;> rfl
  | cons k parent ih =>
    rcases dest with _ | ⟨j, rest⟩
    · rfl
    · rw [afterRemoval, relocate, ih]

theorem relocate_relocate {shift back : Nat → Nat} (h : ∀ j, back (shift j) = j) (parent : List Nat)
    (list : List Nat) : relocate parent back (relocate parent shift list) = list := by
  induction parent generalizing list with
  | nil =>
    rcases list with _ | ⟨j, rest⟩
    · rfl
    · rw [relocate, relocate, h]
  | cons k parent ih =>
    rcases list with _ | ⟨j, rest⟩
    · rfl
    · rw [relocate, relocate]
      split_ifs
      · rw [ih]
      · rfl

/-! ### The edits -/

variable (bs : List Block)

/-- The forest with `b` at `index` of the list at `parent`. -/
def insert (parent : Path) (index : Nat) (b : Block) : Except EditError (List Block) := do
  let cs ← siblings .root bs parent.indices
  let cs ← put parent cs index b
  return graft bs parent.indices cs

/-- The forest without the block at `index` of the list at `parent`. -/
def remove (parent : Path) (index : Nat) : Except EditError (List Block) := do
  let cs ← siblings .root bs parent.indices
  let _ ← pick parent cs index
  return graft bs parent.indices (cs.eraseIdx index)

/-- The forest with the block at `source` taken out and put at `index` of the list that stood at
`dest` before. -/
def move (source dest : Path) (index : Nat) : Except EditError (List Block) :=
  match source.split? with
  | none => .error (.invalidTarget source)
  | some (parent, i) => do
    if dest.startsWith source then throw (.cyclicMove source dest)
    let cs ← siblings .root bs parent.indices
    let b ← pick parent cs i
    let _ ← siblings .root bs dest.indices
    let left := graft bs parent.indices (cs.eraseIdx i)
    let target := afterRemoval parent.indices i dest.indices
    let ds ← siblings .root left target
    let ds ← put dest ds index b
    return graft left target ds

/-- The forest with the block at `source` of the list at `parent` taken out and put at `target` of
the shortened list. -/
def reorder (parent : Path) (source target : Nat) : Except EditError (List Block) := do
  let cs ← siblings .root bs parent.indices
  let b ← pick parent cs source
  let _ ← pick parent cs target
  return graft bs parent.indices ((cs.eraseIdx source).insertIdx target b)

/-- The forest with a parameter set on the block at `path`. -/
def set (path : Path) (param : Param) (value : Float) : Except EditError (List Block) :=
  match path.split? with
  | none => .error (.invalidTarget path)
  | some (parent, i) => do
    let cs ← siblings .root bs parent.indices
    let b ← pick parent cs i
    match b.set param value with
    | .error e => throw (.block e)
    | .ok b => return graft bs parent.indices (cs.set i b)

/-- The forest after an edit. -/
def apply : Edit → Except EditError (List Block)
  | .insert parent index block => insert bs parent index block
  | .remove parent index => remove bs parent index
  | .move source dest index => move bs source dest index
  | .reorder parent source target => reorder bs parent source target
  | .set path param value => set bs path param value
  | .replace blocks => .ok blocks

end Choreo.Forest
