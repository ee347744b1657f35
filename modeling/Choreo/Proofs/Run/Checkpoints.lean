import Choreo.Proofs.Run.Execution

/-! # What stands between two checkpoints

Between two checkpoints of a program there is one leaf at most, or the start of one iteration, then
the settling of a gesture at most, and then one pause between two iterations at most (`InOrder`). In
particular leaves are apart (`Guarded`).

A cancelled run passes no more checkpoints, so of the leaves that it has not executed it still
executes the one that is under way, if there is one, and no other (`Run.leaves_of_cancelled`). -/

namespace Choreo

/-- The number of leaves that end before the next checkpoint: the leaf under way, if there is
one. -/
def leavesUnderWay : List Step → Nat
  | [] | .checkpoint :: _ => 0
  | step :: rest => leavesUnderWay rest + step.isDone.toNat

/-- The number of leaves before the next checkpoint. -/
def leavesAhead : List Beat → Nat
  | [] | .checkpoint :: _ => 0
  | .leaf .. :: rest => leavesAhead rest + 1
  | _ :: rest => leavesAhead rest

/-- After every leaf there is a checkpoint before the next one. -/
def Guarded : List Beat → Prop
  | [] => True
  | .leaf .. :: rest => leavesAhead rest = 0 ∧ Guarded rest
  | _ :: rest => Guarded rest

theorem Guarded.tail {beat : Beat} {beats : List Beat} (h : Guarded (beat :: beats)) :
    Guarded beats := by
  cases beat with
  | leaf kind s => exact h.2
  | _ => exact h

theorem Guarded.leavesAhead_le {beats : List Beat} (h : Guarded beats) : leavesAhead beats ≤ 1 := by
  induction beats with
  | nil => exact Nat.zero_le _
  | cons beat beats ih =>
    cases beat with
    | checkpoint => exact Nat.zero_le _
    | leaf kind s =>
      rw [leavesAhead, h.1]
    | iteration n total => exact ih h
    | settle => exact ih h
    | rest => exact ih h

/-! ### The beats of a program -/

/-- Where a beat stands between two checkpoints. -/
def Beat.rank : Beat → Nat
  | .checkpoint => 0
  | .iteration .. | .leaf .. => 1
  | .settle => 2
  | .rest => 3

/-- After a beat of rank `last` the ranks go up until the next checkpoint. -/
def InOrder : (last : Nat) → List Beat → Prop
  | _, [] => True
  | last, beat :: rest => (beat = .checkpoint ∨ last < beat.rank) ∧ InOrder beat.rank rest

theorem InOrder.mono {last last' : Nat} {beats : List Beat} (h : InOrder last beats)
    (hle : last' ≤ last) : InOrder last' beats := by
  cases beats with
  | nil => trivial
  | cons beat rest =>
    obtain ⟨hbeat, hrest⟩ := h
    refine ⟨hbeat.imp_right fun hlt => ?_, hrest⟩
    omega

theorem InOrder.lt_rank {last : Nat} {beat : Beat} {beats : List Beat}
    (h : InOrder last (beat :: beats)) (hbeat : beat ≠ .checkpoint) : last < beat.rank :=
  h.1.resolve_left hbeat

theorem InOrder.checkpoint {beats : List Beat} (h : InOrder 0 beats) (last : Nat) :
    InOrder last (.checkpoint :: beats) := ⟨Or.inl rfl, h⟩

theorem InOrder.guarded {last : Nat} {beats : List Beat} (h : InOrder last beats) :
    Guarded beats ∧ (1 ≤ last → leavesAhead beats = 0) := by
  induction beats generalizing last with
  | nil => exact ⟨trivial, fun _ => rfl⟩
  | cons beat beats ih =>
    obtain ⟨hguarded, hahead⟩ := ih h.2
    cases beat with
    | checkpoint => exact ⟨hguarded, fun _ => rfl⟩
    | leaf kind s =>
      refine ⟨⟨hahead le_rfl, hguarded⟩, fun hlast => ?_⟩
      have hlt : last < 1 := h.lt_rank (by simp)
      omega
    | iteration n total => exact ⟨hguarded, fun _ => hahead le_rfl⟩
    | settle => exact ⟨hguarded, fun _ => hahead (Nat.le_succ 1)⟩
    | rest => exact ⟨hguarded, fun _ => hahead (by decide)⟩

theorem inOrder_iterationBeats {body next : List Beat}
    (hbody : ∀ next, InOrder 2 next → InOrder 2 (body ++ next)) (hnext : InOrder 2 next)
    (total : Nat) : ∀ left : Nat, InOrder 2 (iterationBeats body total left ++ next)
  | 0 => hnext
  | left + 1 => by
    have hleft := inOrder_iterationBeats hbody hnext total left
    have hrest : InOrder 2 ((if left = 0 then [] else [.rest]) ++
        (iterationBeats body total left ++ next)) := by
      rcases left with _ | left
      · exact hnext
      · rw [if_neg (Nat.succ_ne_zero left)]
        refine ⟨Or.inr (Nat.lt_succ_self 2), ?_⟩
        -- another iteration begins with a checkpoint
        rw [iterationBeats] at hleft ⊢
        exact ⟨Or.inl rfl, hleft.2⟩
    have hiteration : InOrder 0 (.iteration (total - left) total :: (body ++
        ((if left = 0 then [] else [.rest]) ++ (iterationBeats body total left ++ next)))) :=
      ⟨Or.inr Nat.one_pos, (hbody _ hrest).mono (Nat.le_succ 1)⟩
    simp only [iterationBeats, List.cons_append, List.append_assoc]
    exact hiteration.checkpoint 2

mutual

theorem inOrder_beats : ∀ (b : Block) (next : List Beat), InOrder 2 next →
    InOrder 0 (b.beats ++ next)
  | ⟨kind, settings, children⟩, next, hnext => by
    rw [Block.beats]
    split_ifs
    · exact (inOrder_iterationBeats (inOrder_childBeats children) hnext _ _).mono (Nat.zero_le 2)
    · exact ⟨Or.inr Nat.one_pos, hnext.mono (Nat.le_succ 1)⟩

theorem inOrder_child : ∀ (b : Block) (next : List Beat), InOrder 2 next →
    InOrder 0 (b.beats ++ (b.kind.settleBeats ++ next))
  | ⟨kind, settings, children⟩, next, hnext => by
    unfold Kind.settleBeats
    split_ifs with harm
    · have hleaf : ¬ kind.isContainer = true := by
        intro hc
        rw [Kind.eq_loop_of_isContainer hc] at harm
        cases harm
      rw [Block.beats, if_neg hleaf]
      exact ⟨Or.inr Nat.one_pos, Or.inr (Nat.lt_succ_self 1), hnext⟩
    · exact inOrder_beats _ next hnext

theorem inOrder_childBeats : ∀ (bs : List Block) (next : List Beat), InOrder 2 next →
    InOrder 2 (Block.childBeats bs ++ next)
  | [], next, hnext => by
    rw [Block.childBeats]
    exact hnext
  | child :: rest, next, hnext => by
    have hrest := inOrder_childBeats rest next hnext
    rw [Block.childBeats]
    simp only [List.cons_append, List.append_assoc]
    exact (inOrder_child child _ hrest).checkpoint 2

end

/-- **Between two checkpoints of a program** there is at most one leaf, then at most one gesture to
settle, then at most one pause. The first beat is a checkpoint. -/
theorem inOrder_beatsOf (blocks : List Block) : InOrder 3 (beatsOf blocks) := by
  induction blocks with
  | nil => trivial
  | cons b rest ih =>
    rw [beatsOf] at ih
    rw [beatsOf, List.flatMap_cons, List.cons_append]
    exact (inOrder_beats b _ (ih.mono (Nat.le_succ 2))).checkpoint 3

/-- **There is a checkpoint between any two leaves of a program.** -/
theorem guarded_beatsOf (blocks : List Block) : Guarded (beatsOf blocks) :=
  (inOrder_beatsOf blocks).guarded.1

/-! ### The steps of a run -/

theorem leavesUnderWay_append {as : List Step} (h : .checkpoint ∉ as) (bs : List Step) :
    leavesUnderWay (as ++ bs) = doneBy as + leavesUnderWay bs := by
  induction as with
  | nil => exact (Nat.zero_add _).symm
  | cons step as ih =>
    rw [List.mem_cons, not_or] at h
    have hcons : leavesUnderWay (step :: (as ++ bs)) =
        leavesUnderWay (as ++ bs) + step.isDone.toNat := by
      cases step with
      | checkpoint => exact absurd rfl h.1
      | _ => rfl
    rw [List.cons_append, hcons, ih h.2, doneBy, doneBy, List.countP_cons]
    cases step.isDone <;> simp
    omega

theorem AtStop.leavesUnderWay {steps : List Step} (h : AtStop steps) : leavesUnderWay steps = 0 := by
  rcases h with rfl | ⟨rest, rfl⟩ <;> rfl

theorem leavesUnderWay_drop_le (as bs : List Step) (h : .checkpoint ∉ as ++ bs) (cs : List Step) :
    leavesUnderWay (bs ++ cs) ≤ leavesUnderWay ((as ++ bs) ++ cs) := by
  rw [leavesUnderWay_append h, leavesUnderWay_append fun hmem => h (List.mem_append_right _ hmem),
    doneBy_append]
  omega

theorem leavesUnderWay_stepsOf (t : Timing) (prev : Option Kind) (beats : List Beat) :
    leavesUnderWay (t.stepsOf prev beats) = leavesAhead beats := by
  induction beats generalizing prev with
  | nil => rfl
  | cons beat beats ih =>
    rw [Timing.stepsOf]
    have hquiet : beat.isQuiet = true → leavesUnderWay (t.beatSteps prev beat ++
        t.stepsOf (Timing.stepsOf.latest prev beat) beats) = leavesAhead beats := by
      intro hq
      obtain ⟨hact, -, -, -, -⟩ := effects_quiet t prev hq
      rw [leavesUnderWay_append (checkpoint_not_mem_of_isAct hact), doneBy_of_isAct hact, ih,
        Nat.zero_add]
    cases beat with
    | checkpoint =>
      rw [beatSteps_checkpoint]
      rfl
    | leaf kind s =>
      obtain ⟨-, hdone, -, hpoint⟩ := effects_leaf t prev kind s
      rw [leavesUnderWay_append hpoint, hdone, ih, leavesAhead, Nat.add_comm]
    | iteration n total => exact hquiet rfl
    | settle => exact hquiet rfl
    | rest => exact hquiet rfl

theorem checkpoint_not_mem_beatSteps (t : Timing) (prev : Option Kind) {beat : Beat}
    (hc : beat ≠ .checkpoint) : .checkpoint ∉ t.beatSteps prev beat := by
  cases beat with
  | checkpoint => exact absurd rfl hc
  | leaf kind s => exact (effects_leaf t prev kind s).2.2.2
  | _ => exact checkpoint_not_mem_of_isAct (effects_quiet t prev rfl).1

/-- **At no moment of a run is more than one leaf under way.** -/
theorem leavesUnderWay_le {t : Timing} {prev : Option Kind} {beats : List Beat}
    {taken rest : List Step} (hbeats : Guarded beats)
    (h : t.stepsOf prev beats = taken ++ rest) : leavesUnderWay rest ≤ 1 := by
  induction beats generalizing prev taken with
  | nil =>
    obtain ⟨-, rfl⟩ := List.append_eq_nil_iff.mp h.symm
    exact Nat.zero_le _
  | cons beat beats ih =>
    have hahead := hbeats.leavesAhead_le
    rw [← leavesUnderWay_stepsOf t prev, Timing.stepsOf] at hahead
    rw [Timing.stepsOf] at h
    by_cases hc : beat = .checkpoint
    · subst hc
      rw [beatSteps_checkpoint] at h
      rcases taken with _ | ⟨step, taken⟩
      · rw [List.nil_append] at h
        rw [← h]
        exact Nat.zero_le _
      · exact ih hbeats.tail (List.cons.inj h).2
    · -- the moment lies after the steps of this beat or within them
      have hpoint := checkpoint_not_mem_beatSteps t prev hc
      rcases List.append_eq_append_iff.mp h with ⟨cs, -, htail⟩ | ⟨cs, hsteps, rfl⟩
      · exact ih hbeats.tail htail
      · rw [hsteps] at hpoint hahead
        exact (leavesUnderWay_drop_le taken cs hpoint _).trans hahead

/-- **After a cancellation only the leaf under way is executed.** -/
theorem Run.leaves_of_cancelled {rest : List Step} {m q : Performance}
    {result : Except DurationFault Outcome} (h : Run (rest, m) q result)
    (hm : m.cancelled = true) (hok : ∃ outcome, result = .ok outcome) :
    q.tally.leaves = m.tally.leaves + leavesUnderWay rest := by
  obtain ⟨last, hcourse, hends⟩ := h.course
  obtain ⟨taken, htaken, heffect, hpoint⟩ := hcourse.effect
  have htaken : rest = taken ++ last := htaken
  have hstop : AtStop last := by
    cases hends with
    | completed => exact Or.inl rfl
    | cancelled => exact Or.inr ⟨_, rfl⟩
    | failed =>
      obtain ⟨outcome, h⟩ := hok
      cases h
  rw [heffect.leaves, htaken, leavesUnderWay_append (hpoint hm), hstop.leavesUnderWay]
  rfl

end Choreo
