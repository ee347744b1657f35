import Choreo.Block.Basic
import Choreo.LazyList

/-!
# The beats of a program

A program runs in document order with every repeat unrolled. Its beats are the leaves in that order,
the points between them at which a cancelled run stops, and the pauses that repeats add: one after
each gesture directly below them, one between two iterations.

`beatsOf` lists the beats plainly, `unroll` one by one as they are asked for; `toList_unroll` says
that both are the same.
-/

namespace Choreo

/-- One beat of a program. -/
inductive Beat where
  /-- Here a cancelled run stops. -/
  | checkpoint
  /-- An iteration of a repeat begins, the first one being number one. -/
  | iteration (number total : Nat)
  | leaf (kind : Kind) (settings : Settings)
  /-- The arm comes to rest. -/
  | settle
  /-- The pause between two iterations. -/
  | rest

/-- How often a repeat with the given settings runs its children. -/
def Settings.iterations (s : Settings) : Nat := (s.value .times).toUInt32.toNat

/-- The beats after a child of a repeat. -/
def Kind.settleBeats (k : Kind) : List Beat := if k.category = .arm then [.settle] else []

/-! ### The plain list -/

/-- The last `left` of `total` iterations over the beats `body`. -/
def iterationBeats (body : List Beat) (total : Nat) : (left : Nat) → List Beat
  | 0 => []
  | left + 1 =>
    .checkpoint :: .iteration (total - left) total :: body ++
      (if left = 0 then [] else [.rest]) ++ iterationBeats body total left

mutual

/-- The beats of one block. -/
def Block.beats : Block → List Beat
  | ⟨kind, settings, children⟩ =>
    if kind.isContainer then
      iterationBeats (Block.childBeats children) settings.iterations settings.iterations
    else [.leaf kind settings]

/-- The beats of one iteration over the children of a repeat. -/
def Block.childBeats : List Block → List Beat
  | [] => []
  | child :: rest =>
    .checkpoint :: child.beats ++ child.kind.settleBeats ++ Block.childBeats rest

end

/-- The beats of a program. -/
def beatsOf (blocks : List Block) : List Beat := blocks.flatMap fun b => .checkpoint :: b.beats

/-- The leaves among some beats, in order. -/
def leavesOf (beats : List Beat) : List (Kind × Settings) :=
  beats.filterMap fun
    | .leaf kind settings => some (kind, settings)
    | _ => none

/-! ### The lazy list -/

/-- The last `left` of `total` iterations over a body, then the beats that follow. -/
def unrollIterations (body : (Unit → LazyList Beat) → LazyList Beat) (total : Nat) :
    (left : Nat) → (Unit → LazyList Beat) → LazyList Beat
  | 0, next => next ()
  | left + 1, next =>
    .cons .checkpoint fun _ => .cons (.iteration (total - left) total) fun _ => body fun _ =>
      .prepend (if left = 0 then [] else [.rest]) fun _ => unrollIterations body total left next

mutual

/-- The beats of one block, then those that follow. -/
def Block.unroll : Block → (Unit → LazyList Beat) → LazyList Beat
  | ⟨kind, settings, children⟩, next =>
    if kind.isContainer then
      unrollIterations (Block.unrollChildren children) settings.iterations settings.iterations next
    else .cons (.leaf kind settings) next

/-- The beats of one iteration over the children of a repeat, then those that follow. -/
def Block.unrollChildren : List Block → (Unit → LazyList Beat) → LazyList Beat
  | [], next => next ()
  | child :: rest, next =>
    .cons .checkpoint fun _ => child.unroll fun _ =>
      .prepend child.kind.settleBeats fun _ => Block.unrollChildren rest next

end

/-- The beats of a program, one by one. -/
def unroll : List Block → LazyList Beat
  | [] => .nil
  | b :: rest => .cons .checkpoint fun _ => b.unroll fun _ => unroll rest

theorem toList_unrollIterations {body : (Unit → LazyList Beat) → LazyList Beat}
    {beats : List Beat} (h : ∀ next, (body next).toList = beats ++ (next ()).toList) (total : Nat) :
    ∀ (left : Nat) (next : Unit → LazyList Beat),
      (unrollIterations body total left next).toList =
        iterationBeats beats total left ++ (next ()).toList
  | 0, next => by simp [unrollIterations, iterationBeats]
  | left + 1, next => by
    simp [unrollIterations, iterationBeats, h, toList_unrollIterations h total left]

mutual

theorem Block.toList_unroll : ∀ (b : Block) (next : Unit → LazyList Beat),
    (b.unroll next).toList = b.beats ++ (next ()).toList
  | ⟨kind, settings, children⟩, next => by
    unfold Block.unroll Block.beats
    split
    · exact toList_unrollIterations (Block.toList_unrollChildren children) _ _ _
    · simp

theorem Block.toList_unrollChildren : ∀ (children : List Block) (next : Unit → LazyList Beat),
    (Block.unrollChildren children next).toList = Block.childBeats children ++ (next ()).toList
  | [], next => by simp [Block.unrollChildren, Block.childBeats]
  | child :: rest, next => by
    simp [Block.unrollChildren, Block.childBeats, Block.toList_unroll child,
      Block.toList_unrollChildren rest]

end

theorem toList_unroll (blocks : List Block) : (unroll blocks).toList = beatsOf blocks := by
  induction blocks with
  | nil => rfl
  | cons b rest ih => simp [unroll, beatsOf, Block.toList_unroll, ih]

end Choreo
