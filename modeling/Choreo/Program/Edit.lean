import Choreo.Program.Basic

/-!
# Edits of a program

Insertion, removal, moves within and between sibling lists, setting a parameter, and replacing the
whole forest. An edit gives a new program or the first reason why it cannot be made; the program it
is applied to stays as it is.
-/

namespace Choreo.Program

/-- The program with `b` at `index` of the sibling list at `parent`. -/
def insert (p : Program) (parent : Path) (index : Nat) (b : Block) : Except EditError Program := do
  let parentId ← p.resolveParent parent
  let siblings ← p.siblings parentId
  if siblings.length < index then throw (.outOfRange parent index siblings.length)
  return ((p.place parentId b).modifySiblings parentId (·.insertIdx index p.slots.size)).bumped

/-- The program without the block at `index` of the sibling list at `parent`. -/
def remove (p : Program) (parent : Path) (index : Nat) : Except EditError Program := do
  let parentId ← p.resolveParent parent
  let siblings ← p.siblings parentId
  match siblings[index]? with
  | none => throw (.outOfRange parent index siblings.length)
  | some id => return ((p.modifySiblings parentId (·.eraseIdx index)).clear id).bumped

/-- The program with the block at `source` moved to `index` of the sibling list at `dest`. The path
`dest` is read before the block is taken out, the index after it. -/
def move (p : Program) (source dest : Path) (index : Nat) : Except EditError Program := do
  let some (_, sourceIndex) := source.split? | throw (.invalidTarget source)
  if dest.startsWith source then throw (.cyclicMove source dest)
  let moved ← p.resolve source
  let destId ← p.resolveParent dest
  if let some id := destId then
    if p.isWithin id moved then throw (.cyclicMove source dest)
  let oldParent := (← p.node moved).parent
  if (← p.siblings oldParent).length ≤ sourceIndex then throw (.brokenLink moved)
  let detached := p.modifySiblings oldParent (·.eraseIdx sourceIndex)
  let len := (← detached.siblings destId).length
  if len < index then throw (.outOfRange dest index len)
  return ((detached.modifySiblings destId (·.insertIdx index moved)).modifyNode moved
    ({ · with parent := destId })).bumped

/-- The program with the block at `source` of the sibling list at `parent` taken out and put back at
`target`, an index of the shortened list. -/
def reorder (p : Program) (parent : Path) (source target : Nat) : Except EditError Program := do
  let parentId ← p.resolveParent parent
  let siblings ← p.siblings parentId
  match siblings[source]? with
  | none => throw (.outOfRange parent source siblings.length)
  | some id =>
    if siblings.length ≤ target then throw (.outOfRange parent target siblings.length)
    return (p.modifySiblings parentId fun ids => (ids.eraseIdx source).insertIdx target id).bumped

/-- The program with a parameter of the block at `path` set. -/
def setParam (p : Program) (path : Path) (param : Param) (value : Float) :
    Except EditError Program := do
  let id ← p.resolve path
  let n ← p.node id
  match n.settings.set n.kind param value with
  | .error e => throw (.block e)
  | .ok settings => return (p.modifyNode id ({ · with settings })).bumped

/-- The program with the given root blocks in fresh slots. -/
def replace (p : Program) (blocks : List Block) : Program :=
  { ofBlocks blocks with revision := p.revision + 1 }

end Choreo.Program

namespace Choreo

/-- One edit with its arguments. -/
inductive Edit where
  | insert (parent : Path) (index : Nat) (block : Block)
  | remove (parent : Path) (index : Nat)
  | move (source dest : Path) (index : Nat)
  | reorder (parent : Path) (source target : Nat)
  | set (path : Path) (param : Param) (value : Float)
  | replace (blocks : List Block)

/-- The program after an edit. -/
def Program.apply (p : Program) : Edit → Except EditError Program
  | .insert parent index block => p.insert parent index block
  | .remove parent index => p.remove parent index
  | .move source dest index => p.move source dest index
  | .reorder parent source target => p.reorder parent source target
  | .set path param value => p.setParam path param value
  | .replace blocks => .ok (p.replace blocks)

/-- Whether the blocks that an edit brings in can stand in a program. -/
def Edit.Valid : Edit → Prop
  | .insert _ _ block => block.Valid
  | .replace blocks => Block.AllValid blocks
  | _ => True

/-- The programs that edits lead to. -/
inductive Program.Reachable : Program → Prop where
  | ofBlocks {blocks : List Block} (valid : Block.AllValid blocks) :
    Reachable (.ofBlocks blocks)
  | apply {p q : Program} {e : Edit} (reachable : Reachable p) (valid : e.Valid)
    (edit : p.apply e = .ok q) : Reachable q

end Choreo
