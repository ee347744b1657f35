import Choreo.Proofs.Block.Valid
import Choreo.Run.Step

/-! # The leaves of a program and what each of them sends

A program means its leaves in document order, those of a repeat as often as the repeat runs
(`Block.leavesAll`), each with the commands that it sends (`Timing.leafCommands`). Between two leaves
that follow one another there may be an interlock; `interlocks` counts the pairs that need one.

The beats of a program have these leaves (`leavesOf_beatsOf`), and a repeat in a valid program runs
as often as its parameter says (`Settings.Fits.iterations`). -/

namespace Choreo

/-- A leaf: a kind of block that is no repeat, and its settings. -/
abbrev Leaf := Kind × Settings

namespace Block

mutual

/-- The leaves of a block in the order in which they run. -/
def leaves : Block → List Leaf
  | ⟨kind, settings, children⟩ =>
    if kind.isContainer then (List.replicate settings.iterations (leavesAll children)).flatten
    else [(kind, settings)]

/-- The leaves of a list of blocks in the order in which they run. -/
def leavesAll : List Block → List Leaf
  | [] => []
  | b :: rest => b.leaves ++ leavesAll rest

end

end Block

/-- The number of neighbours in a list of leaves that need an interlock between them. -/
def interlocks (ls : List Leaf) : Nat :=
  (ls.zip ls.tail).countP fun (a, b) => needsInterlock (some a.1) (some b.1)

/-- The commands that a leaf sends. -/
def Timing.leafCommands (t : Timing) : Leaf → List Command
  | (.moveForward, s) => [.drive (.straight (s.value .speed)), .stop]
  | (.moveBackward, s) => [.drive (.straight (-s.value .speed)), .stop]
  | (.turnLeft, s) => turn t.angularSpeed (s.value .angle)
  | (.turnRight, s) => turn (-t.angularSpeed) (s.value .angle)
  | (.loop, _) | (.pause, _) => []
  | (kind, _) => [.gesture kind.name]
where
  /-- The velocity once for every tick of the sweep, then the stop. -/
  turn (rate angle : Float) : List Command :=
    match t.turnDuration angle with
    | .ok d => List.replicate (t.sweepTicks d) (.drive (.turning rate)) ++ [.stop]
    | .error _ => []

/-- The durations that a turn by `angle` degrees waits for exist. -/
def Timing.TurnFits (t : Timing) (angle : Float) : Prop :=
  ∃ d e, t.turnDuration angle = .ok d ∧ d.add t.tickDuration = .ok e

/-- No turn among the leaves fails. -/
def Timing.TurnsFit (t : Timing) (ls : List Leaf) : Prop :=
  ∀ l ∈ ls, l.1 = .turnLeft ∨ l.1 = .turnRight → t.TurnFits (l.2.value .angle)

theorem Timing.turnsFit_of_no_turns (t : Timing) {ls : List Leaf}
    (h : ∀ l ∈ ls, ¬ (l.1 = .turnLeft ∨ l.1 = .turnRight)) : t.TurnsFit ls :=
  fun l hl hturn => absurd hturn (h l hl)

/-! ### Repeats -/

/-- **A repeat runs as often as its parameter says**, once where it is not set. -/
theorem Settings.Fits.iterations {s : Settings} {kind : Kind} (h : s.Fits kind) :
    s.value .times = Double.ofNat s.iterations ∧ 1 ≤ s.iterations ∧ s.iterations ≤ 10 := by
  obtain ⟨n, hx, h1, h2, hn⟩ := (h.value .times).count
  have hn : s.iterations = n := hn
  rw [hn]
  exact ⟨hx, h1, h2⟩

theorem Settings.iterations_of_unset {s : Settings} (h : s.get? .times = none) :
    s.iterations = 1 := by
  rw [Settings.iterations, Settings.value, h]
  decide

theorem Settings.fits_twice : (Settings.empty.insert .times 2.0).Fits .loop := by
  have htimes : Param.times.Admits 2.0 :=
    ⟨by decide, by decide, by decide, fun _ => ⟨2, by decide⟩⟩
  intro p x h
  cases p <;> cases h
  exact ⟨rfl, htimes⟩

/-! ### The leaves among the beats -/

@[simp] theorem leavesOf_nil : leavesOf [] = [] := rfl

@[simp] theorem leavesOf_append (as bs : List Beat) :
    leavesOf (as ++ bs) = leavesOf as ++ leavesOf bs := by
  rw [leavesOf, List.filterMap_append]
  rfl

@[simp] theorem leavesOf_leaf (kind : Kind) (s : Settings) (bs : List Beat) :
    leavesOf (.leaf kind s :: bs) = (kind, s) :: leavesOf bs := rfl

@[simp] theorem leavesOf_checkpoint (bs : List Beat) :
    leavesOf (.checkpoint :: bs) = leavesOf bs := rfl

@[simp] theorem leavesOf_iteration (n total : Nat) (bs : List Beat) :
    leavesOf (.iteration n total :: bs) = leavesOf bs := rfl

@[simp] theorem leavesOf_settle (bs : List Beat) : leavesOf (.settle :: bs) = leavesOf bs := rfl

@[simp] theorem leavesOf_rest (bs : List Beat) : leavesOf (.rest :: bs) = leavesOf bs := rfl

@[simp] theorem leavesOf_settleBeats (kind : Kind) : leavesOf kind.settleBeats = [] := by
  unfold Kind.settleBeats
  split_ifs <;> rfl

theorem leavesOf_iterationBeats (body : List Beat) (total : Nat) : ∀ left : Nat,
    leavesOf (iterationBeats body total left) = (List.replicate left (leavesOf body)).flatten
  | 0 => rfl
  | left + 1 => by
    have hrest : leavesOf (if left = 0 then [] else [.rest]) = [] := by split_ifs <;> rfl
    simp [iterationBeats, hrest, leavesOf_iterationBeats body total left, List.replicate_succ]

mutual

theorem leavesOf_beats : ∀ b : Block, leavesOf b.beats = b.leaves
  | ⟨kind, settings, children⟩ => by
    rw [Block.beats, Block.leaves]
    split_ifs
    · rw [leavesOf_iterationBeats, leavesOf_childBeats children]
    · rfl

theorem leavesOf_childBeats : ∀ bs : List Block,
    leavesOf (Block.childBeats bs) = Block.leavesAll bs
  | [] => by rw [Block.childBeats, Block.leavesAll]; rfl
  | b :: rest => by
    rw [Block.childBeats, Block.leavesAll]
    simp [leavesOf_beats b, leavesOf_childBeats rest]

end

/-- **The leaves among the beats of a program are the leaves of the program.** -/
theorem leavesOf_beatsOf (blocks : List Block) :
    leavesOf (beatsOf blocks) = Block.leavesAll blocks := by
  induction blocks with
  | nil => rw [Block.leavesAll]; rfl
  | cons b rest ih =>
    rw [beatsOf] at ih
    rw [beatsOf, List.flatMap_cons, Block.leavesAll]
    simp [leavesOf_beats b, ih]

/-! ### Leaves of valid blocks -/

mutual

theorem fits_of_mem_leaves : ∀ (b : Block), b.Valid → ∀ l ∈ b.leaves,
    l.2.Fits l.1 ∧ l.1.isContainer = false
  | ⟨kind, settings, children⟩, hv, l, hl => by
    obtain ⟨hfits, -, hbelow⟩ := Block.valid_iff.mp hv
    rw [Block.leaves] at hl
    split_ifs at hl with hc
    · obtain ⟨ls, hls, hl⟩ := List.mem_flatten.mp hl
      rw [List.eq_of_mem_replicate hls] at hl
      exact fits_of_mem_leavesAll children hbelow l hl
    · rw [List.mem_singleton] at hl
      subst hl
      exact ⟨hfits, Bool.eq_false_iff.mpr hc⟩

theorem fits_of_mem_leavesAll : ∀ (bs : List Block), Block.AllValid bs → ∀ l ∈ Block.leavesAll bs,
    l.2.Fits l.1 ∧ l.1.isContainer = false
  | [], _, l, hl => by rw [Block.leavesAll] at hl; cases hl
  | b :: rest, hv, l, hl => by
    rw [Block.AllValid] at hv
    rw [Block.leavesAll, List.mem_append] at hl
    rcases hl with hl | hl
    · exact fits_of_mem_leaves b hv.1 l hl
    · exact fits_of_mem_leavesAll rest hv.2 l hl

end

end Choreo
