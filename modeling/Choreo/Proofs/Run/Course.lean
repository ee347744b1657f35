import Choreo.Run.Play
import Mathlib.Logic.Relation
import Mathlib.Tactic.SplitIfs

/-! # Courses of a run

A run is not alone: whenever it hands over a command or waits, others may cancel it, take the
connection away or bring it back, and set the channel's traps anew. What they leave alone is what
the run has done so far (`Undisturbed`). `Move` is one step of a run among others, `Course` a run of
such steps up to some moment, `Run` one up to its end.

A run played without interruption is one of these (`run_perform`), and so is any stretch of it up to
a horizon in time (`comes_play`). -/

namespace Choreo

/-- What others leave alone while a run hands over a command or waits. A cancelled run stays
cancelled. -/
structure Undisturbed (p q : Performance) : Prop where
  id : q.id = p.id
  tally : q.tally = p.tally
  now : q.now = p.now
  published : q.channel.published = p.channel.published
  cancelled : p.cancelled = true → q.cancelled = true

theorem Undisturbed.refl (p : Performance) : Undisturbed p p := ⟨rfl, rfl, rfl, rfl, fun h => h⟩

theorem Undisturbed.trans {p q r : Performance} (h : Undisturbed p q) (h' : Undisturbed q r) :
    Undisturbed p r :=
  ⟨h'.id.trans h.id, h'.tally.trans h.tally, h'.now.trans h.now, h'.published.trans h.published,
    h'.cancelled ∘ h.cancelled⟩

/-- The performance once a wait is over. -/
def Performance.waited (p : Performance) (d : Duration) : Performance :=
  { p with now := p.now + d.millisUp }

@[simp] theorem Performance.id_waited (p : Performance) (d : Duration) :
    (p.waited d).id = p.id := by
  cases p; rfl

@[simp] theorem Performance.channel_waited (p : Performance) (d : Duration) :
    (p.waited d).channel = p.channel := by
  cases p; rfl

@[simp] theorem Performance.tally_waited (p : Performance) (d : Duration) :
    (p.waited d).tally = p.tally := by
  cases p; rfl

@[simp] theorem Performance.cancelled_waited (p : Performance) (d : Duration) :
    (p.waited d).cancelled = p.cancelled := by
  cases p; rfl

/-- A run at some moment: the steps that are left, and what it acts on. -/
abbrev Moment := List Step × Performance

/-- One step of a run among others. -/
inductive Move : Moment → Moment → Prop where
  | checkpoint {rest : List Step} {p : Performance} (go : p.cancelled = false) :
    Move (.checkpoint :: rest, p) (rest, p)
  | note {n : StepNote} {rest : List Step} {p : Performance} :
    Move (.note n :: rest, p) (rest, p.tell (.noted n))
  | interlock {rest : List Step} {p : Performance} :
    Move (.interlock :: rest, p) (rest, p.countInterlock)
  | publish {c : Command} {rest : List Step} {p q : Performance}
    (others : Undisturbed (p.send c) q) : Move (.publish c :: rest, p) (rest, q)
  | wait {d : Duration} {rest : List Step} {p q : Performance}
    (others : Undisturbed (p.waited d) q) : Move (.wait d :: rest, p) (rest, q)
  | done {rest : List Step} {p : Performance} : Move (.done :: rest, p) (rest, p.countLeaf)

/-- Some steps of a run one after the other. -/
abbrev Course : Moment → Moment → Prop := Relation.ReflTransGen Move

/-- How a run ends that stands at a moment: it has no steps left, it is cancelled at a checkpoint,
or a step fails. -/
inductive Ends : Moment → Except DurationFault Outcome → Prop where
  | completed {p : Performance} : Ends ([], p) (.ok .completed)
  | cancelled {rest : List Step} {p : Performance} (stop : p.cancelled = true) :
    Ends (.checkpoint :: rest, p) (.ok .cancelled)
  | failed {fault : DurationFault} {rest : List Step} {p : Performance} :
    Ends (.fail fault :: rest, p) (.error fault)

/-- A run up to its end. -/
inductive Run : Moment → Performance → Except DurationFault Outcome → Prop where
  | stop {rest : List Step} {p : Performance} {result : Except DurationFault Outcome}
    (ends : Ends (rest, p) result) : Run (rest, p) p result
  | move {m m' : Moment} {q : Performance} {result : Except DurationFault Outcome}
    (head : Move m m') (tail : Run m' q result) : Run m q result

theorem Course.run {m m' : Moment} {q : Performance} {result : Except DurationFault Outcome}
    (h : Course m m') (r : Run m' q result) : Run m q result := by
  induction h using Relation.ReflTransGen.head_induction_on with
  | refl => exact r
  | head hm _ ih => exact .move hm ih

/-! ### What is played is a course -/

/-- How a run that has ended stands. -/
def Halt.ofResult : Except DurationFault Outcome → Halt
  | .ok outcome => .ended outcome
  | .error fault => .failed fault

/-- What playing comes to: the run is over, or it stands at a wait that ends after the horizon. -/
def Comes (horizon : Option Nat) (m : Moment) (out : Performance × Halt) : Prop :=
  (∃ result, out.2 = .ofResult result ∧ Run m out.1 result) ∨
  (∃ d rest, out.2 = .waiting (out.1.waited d).now rest ∧ horizon ≠ none ∧
    Course m (.wait d :: (rest ()).toList, out.1))

theorem Comes.move {horizon : Option Nat} {m m' : Moment} {out : Performance × Halt}
    (h : Comes horizon m' out) (hm : Move m m') : Comes horizon m out := by
  rcases h with ⟨result, hout, hrun⟩ | ⟨d, rest, hout, hhorizon, hcourse⟩
  · exact Or.inl ⟨result, hout, .move hm hrun⟩
  · exact Or.inr ⟨d, rest, hout, hhorizon, hcourse.head hm⟩

/-- **Playing up to a horizon follows a course.** -/
theorem comes_play (horizon : Option Nat) (steps : LazyList Step) (p : Performance) :
    Comes horizon (steps.toList, p) (play horizon steps p) := by
  induction steps generalizing p with
  | nil => exact Or.inl ⟨.ok .completed, rfl, .stop .completed⟩
  | cons step rest ih =>
    rw [LazyList.toList_cons]
    unfold play
    cases step with
    | checkpoint =>
      simp only
      split_ifs with hc
      · exact Or.inl ⟨.ok .cancelled, rfl, .stop (.cancelled hc)⟩
      · exact (ih () p).move (.checkpoint (Bool.eq_false_iff.mpr hc))
    | note n => exact (ih () _).move .note
    | interlock => exact (ih () _).move .interlock
    | publish c => exact (ih () _).move (.publish (.refl _))
    | wait d =>
      simp only
      split_ifs with hw
      · exact (ih () _).move (.wait (.refl _))
      · refine Or.inr ⟨d, rest, rfl, ?_, .refl⟩
        rintro rfl
        exact hw rfl
    | done => exact (ih () _).move .done
    | fail fault => exact Or.inl ⟨.error fault, rfl, .stop .failed⟩

/-- **A run that is left alone is a run among others.** -/
theorem run_perform (t : Timing) (blocks : List Block) (p : Performance) :
    ∃ result, (perform t blocks p).2 = .ofResult result ∧
      Run (t.stepsOf none (beatsOf blocks), p) (perform t blocks p).1 result := by
  rw [← Timing.toList_score]
  rcases comes_play none (t.score blocks) p with h | ⟨d, rest, -, hhorizon, -⟩
  · exact h
  · exact absurd rfl hhorizon

end Choreo
