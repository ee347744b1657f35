import Choreo.Block.Basic
import Choreo.Path

/-!
# Programs under edit

A program is an ordered forest of blocks kept in numbered slots: each node knows its parent and its
children by number, so a node keeps its number while edits move it about. New nodes take the next
slots, a removed node leaves its slot empty, and no slot is used twice. The revision counts the
successful edits.

`toBlocks` reads the forest back as blocks, `walk` lists the nodes in document order with their
paths, `resolve` finds the node at a path. The links between nodes form a forest in every program
that the edits produce; where a link would lead nowhere, the functions here answer `brokenLink`.
-/

namespace Choreo

/-- The number of the slot that a node has. -/
abbrev NodeId := Nat

/-- A block of a program, linked to its neighbours by number. -/
structure Node where
  kind : Kind
  settings : Settings
  parent : Option NodeId
  children : List NodeId
deriving DecidableEq

namespace Node

/-- The value of a parameter, which is its default where it is not set. -/
def value (n : Node) (param : Param) : Float := n.settings.value param

end Node

/-- An ordered forest of blocks in numbered slots. -/
structure Program where
  slots : Array (Option Node) := #[]
  roots : List NodeId := []
  revision : Nat := 0

/-- Why an edit or a look-up fails. -/
inductive EditError where
  /-- The path names no block, or none that has children. -/
  | invalidTarget (path : Path)
  /-- The sibling list has no such index. -/
  | outOfRange (parent : Path) (index len : Nat)
  /-- A block would come to lie below itself. -/
  | cyclicMove (moved dest : Path)
  /-- A parameter cannot be set. -/
  | block (error : BlockError)
  /-- A link leads to an empty slot. -/
  | brokenLink (id : NodeId)
deriving DecidableEq

namespace EditError

def message : EditError → String
  | .invalidTarget path => s!"{path} does not name a container"
  | .outOfRange parent index len =>
    s!"index {index} is out of range under {parent} ({len} children)"
  | .cyclicMove moved dest =>
    s!"cannot move {moved} into {dest}: the destination is inside the moved block"
  | .block error => error.message
  | .brokenLink id => s!"slot {id} is empty"

end EditError

namespace Program

/-- The program without blocks. -/
def empty : Program := {}

/-! ### Nodes and their links -/

/-- The node with the given number, if its slot is in use. -/
def node? (p : Program) (id : NodeId) : Option Node := p.slots[id]?.join

/-- The node with the given number, which a link named. -/
def node (p : Program) (id : NodeId) : Except EditError Node :=
  match p.node? id with
  | some n => .ok n
  | none => .error (.brokenLink id)

/-- The children of a node, or the root list. -/
def siblings (p : Program) : Option NodeId → Except EditError (List NodeId)
  | none => .ok p.roots
  | some id => (p.node id).map (·.children)

/-- The children of a node that are in use. -/
def liveChildren (p : Program) (n : Node) : List NodeId :=
  n.children.filter fun id => (p.node? id).isSome

/-- The number of nodes. -/
def nodeCount (p : Program) : Nat := (p.slots.toList.filterMap id).length

/-- The number of nodes that cannot have children. -/
def leafCount (p : Program) : Nat :=
  ((p.slots.toList.filterMap id).filter fun n => !n.kind.isContainer).length

def isEmpty (p : Program) : Bool := p.roots.isEmpty

/-- The number of root blocks. -/
def rootCount (p : Program) : Nat := p.roots.length

/-! ### Reading the forest -/

/-- The block at a node with all blocks down to `fuel` levels. -/
def blockWithin (p : Program) : (fuel : Nat) → NodeId → Option Block
  | 0, _ => none
  | fuel + 1, id => (p.node? id).map fun n =>
    ⟨n.kind, n.settings, n.children.filterMap (p.blockWithin fuel)⟩

/-- The block at a node with all blocks below it. No branch has more levels than there are slots. -/
def subtree? (p : Program) (id : NodeId) : Option Block := p.blockWithin p.slots.size id

/-- The root blocks of the program. -/
def toBlocks (p : Program) : List Block := p.roots.filterMap p.subtree?

/-- The nodes down to `fuel` levels from one that stands at `path`, in document order. -/
def walkWithin (p : Program) : (fuel : Nat) → Path → NodeId → List (Path × NodeId)
  | 0, _, _ => []
  | fuel + 1, path, id =>
    match p.node? id with
    | none => []
    | some n =>
      (path, id) :: (p.liveChildren n).zipIdx.flatMap fun (child, index) =>
        p.walkWithin fuel (path.child index) child

/-- All nodes with their paths, in document order. -/
def walk (p : Program) : List (Path × NodeId) :=
  (p.roots.filter fun id => (p.node? id).isSome).zipIdx.flatMap fun (id, index) =>
    p.walkWithin p.slots.size ⟨[index]⟩ id

/-! ### Finding nodes by path -/

/-- The node that `indices` lead to from the node `parent`, which stands at `walked`. -/
def descend (p : Program) (walked : Path) (parent : Option NodeId) :
    List Nat → Except EditError (Option NodeId)
  | [] => .ok parent
  | index :: rest => do
    if let some id := parent then
      if !(← p.node id).kind.isContainer then throw (.invalidTarget walked)
    let siblings ← p.siblings parent
    match siblings[index]? with
    | none => throw (.outOfRange walked index siblings.length)
    | some id => p.descend (walked.child index) (some id) rest

/-- The node at a path that is not the root. -/
def resolve (p : Program) (path : Path) : Except EditError NodeId := do
  match ← p.descend .root none path.indices with
  | some id => return id
  | none => throw (.invalidTarget .root)

/-- The sibling list at a path: the root list, or the children of a container. -/
def resolveParent (p : Program) (path : Path) : Except EditError (Option NodeId) := do
  if path.isRoot then return none
  let id ← p.resolve path
  if (← p.node id).kind.isContainer then return some id
  else throw (.invalidTarget path)

/-- The block at a path with all blocks below it. -/
def blockAt (p : Program) (path : Path) : Except EditError Block := do
  let id ← p.resolve path
  match p.subtree? id with
  | some b => return b
  | none => throw (.brokenLink id)

/-- The node and its ancestors, nearest first, `fuel` of them at most. -/
def lineage (p : Program) : (fuel : Nat) → NodeId → List NodeId
  | 0, _ => []
  | fuel + 1, id =>
    id :: match p.node? id >>= (·.parent) with
      | none => []
      | some parent => p.lineage fuel parent

/-- Whether `id` is `ancestor` or lies below it. A number without a node lies below itself only. -/
def isWithin (p : Program) (id ancestor : NodeId) : Bool :=
  (p.lineage (p.slots.size + 1) id).contains ancestor

/-! ### Filling slots -/

/-- The numbers that the blocks of a list get when their nodes take the slots from `start` on. -/
def idsFrom (start : NodeId) : List Block → List NodeId
  | [] => []
  | b :: rest => start :: idsFrom (start + b.size) rest

mutual

/-- The nodes of a block and of the blocks below it, in document order, when they take the slots
from `start` on. -/
def nodesOf (parent : Option NodeId) (start : NodeId) : Block → List Node
  | ⟨kind, settings, children⟩ =>
    ⟨kind, settings, parent, idsFrom (start + 1) children⟩ ::
      nodesOfAll (some start) (start + 1) children

/-- The nodes of a list of blocks and of the blocks below it, when they take the slots from `start`
on. -/
def nodesOfAll (parent : Option NodeId) (start : NodeId) : List Block → List Node
  | [] => []
  | b :: rest => nodesOf parent start b ++ nodesOfAll parent (start + b.size) rest

end

/-- The program with the nodes of `b` in the next slots, not yet in the sibling list. -/
def place (p : Program) (parent : Option NodeId) (b : Block) : Program :=
  { p with slots := p.slots ++ ((nodesOf parent p.slots.size b).map some).toArray }

/-- The program whose root blocks are `blocks`. -/
def ofBlocks (blocks : List Block) : Program :=
  ⟨((nodesOfAll none 0 blocks).map some).toArray, idsFrom 0 blocks, 0⟩

/-- The slots without the node `id` and those below it, down to `fuel` levels. -/
def clearWithin : (fuel : Nat) → Array (Option Node) → NodeId → Array (Option Node)
  | 0, slots, _ => slots
  | fuel + 1, slots, id =>
    match slots[id]?.join with
    | none => slots
    | some n => n.children.foldl (clearWithin fuel) (slots.setIfInBounds id none)

/-- The program without the node `id` and those below it. No branch has more levels than there are
slots. -/
def clear (p : Program) (id : NodeId) : Program :=
  { p with slots := clearWithin p.slots.size p.slots id }

/-! ### Changing nodes -/

/-- The program with one node changed. -/
def modifyNode (p : Program) (id : NodeId) (f : Node → Node) : Program :=
  { p with slots := p.slots.modify id (Option.map f) }

/-- The program with one sibling list changed. -/
def modifySiblings (p : Program) (parent : Option NodeId) (f : List NodeId → List NodeId) :
    Program :=
  match parent with
  | none => { p with roots := f p.roots }
  | some id => p.modifyNode id fun n => { n with children := f n.children }

/-- The program one revision on. -/
def bumped (p : Program) : Program := { p with revision := p.revision + 1 }

/-- Whether two programs have the same blocks; numbers and revisions do not count. -/
def same (p q : Program) : Bool := p.toBlocks = q.toBlocks

end Program

end Choreo
