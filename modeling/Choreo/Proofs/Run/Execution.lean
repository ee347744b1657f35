import Choreo.Proofs.Run.Effect
import Choreo.Proofs.Run.Leaves

/-! # Runs execute leaves

The steps of a leaf send its commands, count it and, where it needs one, the interlock before it;
the other beats of a program send and count nothing. A run stops at checkpoints only, and these
stand between leaves. So wherever a run ends, it has executed the first leaves of its program, each
of them as a whole (`Run.executes`). -/

namespace Choreo

/-- The performance `q` comes from `p` by the leaves `ls`, each executed as a whole. -/
structure Performed (t : Timing) (ls : List Leaf) (p q : Performance) : Prop where
  sent : q.channel.commands = p.channel.commands ++ ls.flatMap t.leafCommands
  commands : q.tally.commands = p.tally.commands + (ls.flatMap t.leafCommands).length
  leaves : q.tally.leaves = p.tally.leaves + ls.length
  interlocks : q.tally.interlocks = p.tally.interlocks + interlocks ls

/-- The number of interlocks that some leaves need after the leaf `prev`. -/
def interlocksAfter : (prev : Option Kind) → List Leaf → Nat
  | _, [] => 0
  | prev, l :: rest => (needsInterlock prev (some l.1)).toNat + interlocksAfter (some l.1) rest

theorem interlocks_cons (l : Leaf) (rest : List Leaf) :
    interlocks (l :: rest) = interlocksAfter (some l.1) rest := by
  induction rest generalizing l with
  | nil => rfl
  | cons m rest ih =>
    have hpair : ∀ b : Bool, (if b = true then 1 else 0) = b.toNat := by decide
    rw [interlocksAfter, ← ih m, interlocks, List.tail_cons, List.zip_cons_cons, List.countP_cons,
      hpair, Nat.add_comm]
    rfl

theorem interlocksAfter_none (ls : List Leaf) : interlocksAfter none ls = interlocks ls := by
  cases ls with
  | nil => rfl
  | cons l rest =>
    rw [interlocksAfter, interlocks_cons]
    exact Nat.zero_add _

/-! ### The steps of a leaf -/

/-- Whether a step is one that a leaf takes between its interlock and its end. -/
def Step.isAct : Step → Bool
  | .note _ | .publish _ | .wait _ | .fail _ => true
  | .checkpoint | .interlock | .done => false

/-- The steps of a leaf that are its own. -/
def Timing.actionSteps (t : Timing) (l : Leaf) : List Step :=
  (t.actionPhrases l.1 l.2).flatMap Phrase.toList

@[simp] theorem isAct_note (n : StepNote) : (Step.note n).isAct = true := rfl

@[simp] theorem isAct_publish (c : Command) : (Step.publish c).isAct = true := rfl

@[simp] theorem isAct_waitMillis (n : Nat) : (Step.waitMillis n).isAct = true := rfl

@[simp] theorem isAct_fail (fault : DurationFault) : (Step.fail fault).isAct = true := rfl

@[simp] theorem isAct_waitFor (d : Except DurationFault Duration) :
    (Step.waitFor d).isAct = true := by
  cases d <;> rfl

theorem isAct_of_mem_turnPhrases (t : Timing) (motion : Motion) (angle : Float) :
    ∀ f ∈ t.turnPhrases motion angle, ∀ x ∈ f.steps, x.isAct = true := by
  unfold Timing.turnPhrases
  split
  · simp [Phrase.once]
  · simp [Phrase.once]

theorem isAct_of_mem_actionPhrases (t : Timing) (l : Leaf) :
    ∀ f ∈ t.actionPhrases l.1 l.2, ∀ x ∈ f.steps, x.isAct = true := by
  unfold Timing.actionPhrases
  split
  · split_ifs
    · exact isAct_of_mem_turnPhrases _ _ _
    · simp [Phrase.once, Timing.driveSteps]
  · split_ifs
    · simp [Phrase.once]
    · simp [Phrase.once, Timing.pauseSteps]

theorem mem_steps_of_mem_toList {f : Phrase} {x : Step} (h : x ∈ f.toList) : x ∈ f.steps := by
  obtain ⟨steps, hsteps, hx⟩ := List.mem_flatten.mp h
  rwa [List.eq_of_mem_replicate hsteps] at hx

theorem isAct_of_mem_actionSteps (t : Timing) (l : Leaf) :
    ∀ x ∈ t.actionSteps l, x.isAct = true := by
  intro x hx
  obtain ⟨f, hf, hx⟩ := List.mem_flatMap.mp hx
  exact isAct_of_mem_actionPhrases t l f hf x (mem_steps_of_mem_toList hx)

theorem sentBy_toList (f : Phrase) :
    sentBy f.toList = (List.replicate f.times (sentBy f.steps)).flatten := by
  rw [sentBy, Phrase.toList, List.filterMap_flatten, List.map_replicate]
  rfl

theorem sentBy_turnPhrases (t : Timing) (motion : Motion) (angle : Float) :
    sentBy ((t.turnPhrases motion angle).flatMap Phrase.toList) = Timing.leafCommands.turn t
      (if motion = .turnRight then -t.angularSpeed else t.angularSpeed) angle := by
  unfold Timing.turnPhrases Timing.leafCommands.turn
  rcases t.turnDuration angle with fault | d
  · simp
  · simp [sentBy_toList]

theorem sentBy_driveSteps (motion : Motion) (speed seconds : Float) :
    sentBy (Timing.driveSteps motion speed seconds) =
      [.drive (.straight (if motion = .backward then -speed else speed)), .stop] := by
  unfold Timing.driveSteps
  simp

theorem sentBy_pauseSteps (seconds : Float) : sentBy (Timing.pauseSteps seconds) = [] := by
  unfold Timing.pauseSteps
  simp

/-- **The steps of a leaf send its commands.** -/
theorem sentBy_actionSteps (t : Timing) (l : Leaf) :
    sentBy (t.actionSteps l) = t.leafCommands l := by
  obtain ⟨kind, s⟩ := l
  unfold Timing.actionSteps Timing.actionPhrases
  cases kind <;>
    simp [Kind.motion?, Kind.category, Motion.isAngular, Motion.isLinear, Timing.leafCommands,
      sentBy_turnPhrases, sentBy_driveSteps, sentBy_pauseSteps]

theorem fail_ne_waitMillis (fault : DurationFault) (n : Nat) :
    Step.fail fault ≠ .waitMillis n := nofun

theorem fail_not_mem_turnPhrases {t : Timing} {angle : Float} (h : t.TurnFits angle)
    (motion : Motion) (fault : DurationFault) :
    ∀ f ∈ t.turnPhrases motion angle, .fail fault ∉ f.steps := by
  obtain ⟨d, e, hd, he⟩ := h
  have hwait : Step.fail fault ≠ .waitFor (d.add t.tickDuration) := by
    rw [he]
    nofun
  unfold Timing.turnPhrases
  rw [hd]
  simp [Phrase.once, fail_ne_waitMillis, hwait]

theorem fail_not_mem_driveSteps {s : Settings} {kind : Kind} (h : s.Fits kind) (motion : Motion)
    (speed : Float) (fault : DurationFault) :
    .fail fault ∉ Timing.driveSteps motion speed (s.value .duration) := by
  obtain ⟨d, hd⟩ := Duration.ofSeconds_of_admits (h.value .duration)
  have hwait : Step.fail fault ≠ .waitFor (Duration.ofSeconds (s.value .duration)) := by
    rw [hd]
    nofun
  unfold Timing.driveSteps
  simp [hwait]

/-- **The steps of a leaf do not fail** where its settings are valid and a turn has a duration. -/
theorem fail_not_mem_actionSteps {t : Timing} {l : Leaf} (hfits : l.2.Fits l.1)
    (hturn : l.1 = .turnLeft ∨ l.1 = .turnRight → t.TurnFits (l.2.value .angle))
    (fault : DurationFault) : .fail fault ∉ t.actionSteps l := by
  have hphrases : ∀ f ∈ t.actionPhrases l.1 l.2, .fail fault ∉ f.steps := by
    obtain ⟨kind, s⟩ := l
    have hdrive := fun motion => fail_not_mem_driveSteps hfits motion (s.value .speed) fault
    unfold Timing.actionPhrases
    cases kind
    case turnLeft => exact fail_not_mem_turnPhrases (hturn (Or.inl rfl)) .turnLeft fault
    case turnRight => exact fail_not_mem_turnPhrases (hturn (Or.inr rfl)) .turnRight fault
    all_goals
      simp [Kind.motion?, Kind.category, Motion.isAngular, Motion.isLinear, Phrase.once,
        Timing.pauseSteps, fail_ne_waitMillis, hdrive]
  intro hmem
  obtain ⟨f, hf, hx⟩ := List.mem_flatMap.mp hmem
  exact hphrases f hf (mem_steps_of_mem_toList hx)

/-! ### The steps of a beat -/

theorem doneBy_of_isAct {steps : List Step} (h : ∀ x ∈ steps, x.isAct = true) :
    doneBy steps = 0 := by
  refine List.countP_eq_zero.mpr fun x hx hd => ?_
  have hact := h x hx
  cases x <;> simp_all [Step.isAct, Step.isDone]

theorem interlocksBy_of_isAct {steps : List Step} (h : ∀ x ∈ steps, x.isAct = true) :
    interlocksBy steps = 0 := by
  refine List.countP_eq_zero.mpr fun x hx hd => ?_
  have hact := h x hx
  cases x <;> simp_all [Step.isAct, Step.isInterlock]

theorem beatSteps_leaf (t : Timing) (prev : Option Kind) (kind : Kind) (s : Settings) :
    t.beatSteps prev (.leaf kind s) =
      t.interlockSteps prev kind ++ t.actionSteps (kind, s) ++ [.done] := by
  simp [Timing.beatSteps, Timing.beatPhrases, Timing.actionSteps]

theorem checkpoint_not_mem_of_isAct {steps : List Step} (h : ∀ x ∈ steps, x.isAct = true) :
    .checkpoint ∉ steps := fun hmem => Bool.false_ne_true (h _ hmem)

theorem effects_interlockSteps (t : Timing) (prev : Option Kind) (kind : Kind) :
    sentBy (t.interlockSteps prev kind) = [] ∧ doneBy (t.interlockSteps prev kind) = 0 ∧
    interlocksBy (t.interlockSteps prev kind) = (needsInterlock prev (some kind)).toNat ∧
    .checkpoint ∉ t.interlockSteps prev kind := by
  unfold Timing.interlockSteps
  cases needsInterlock prev (some kind)
  · refine ⟨rfl, rfl, rfl, ?_⟩
    simp
  · refine ⟨?_, rfl, rfl, ?_⟩
    · simp
    · simp [Step.waitMillis]

theorem fail_not_mem_interlockSteps (t : Timing) (prev : Option Kind) (kind : Kind)
    (fault : DurationFault) : .fail fault ∉ t.interlockSteps prev kind := by
  unfold Timing.interlockSteps
  split_ifs <;> simp [fail_ne_waitMillis]

theorem beatSteps_checkpoint (t : Timing) (prev : Option Kind) :
    t.beatSteps prev .checkpoint = [.checkpoint] := by
  simp [Timing.beatSteps, Timing.beatPhrases]

/-- Whether a beat is neither a leaf nor a checkpoint. -/
def Beat.isQuiet : Beat → Bool
  | .iteration .. | .settle | .rest => true
  | .checkpoint | .leaf .. => false

/-- **A quiet beat** sends nothing, counts nothing, and does not change the latest leaf. -/
theorem effects_quiet (t : Timing) (prev : Option Kind) {beat : Beat} (h : beat.isQuiet = true) :
    (∀ x ∈ t.beatSteps prev beat, x.isAct = true) ∧ sentBy (t.beatSteps prev beat) = [] ∧
    (∀ fault, .fail fault ∉ t.beatSteps prev beat) ∧ Timing.stepsOf.latest prev beat = prev ∧
    ∀ beats, leavesOf (beat :: beats) = leavesOf beats := by
  cases beat with
  | checkpoint => cases h
  | leaf kind s => cases h
  | iteration n total =>
    refine ⟨?_, ?_, ?_, rfl, fun _ => rfl⟩ <;> simp [Timing.beatSteps, Timing.beatPhrases]
  | settle =>
    refine ⟨?_, ?_, ?_, rfl, fun _ => rfl⟩ <;>
      simp [Timing.beatSteps, Timing.beatPhrases, fail_ne_waitMillis]
  | rest =>
    refine ⟨?_, ?_, ?_, rfl, fun _ => rfl⟩ <;>
      simp [Timing.beatSteps, Timing.beatPhrases, fail_ne_waitMillis]

/-- **The steps of a leaf** send its commands and count it and the interlock before it. -/
theorem effects_leaf (t : Timing) (prev : Option Kind) (kind : Kind) (s : Settings) :
    sentBy (t.beatSteps prev (.leaf kind s)) = t.leafCommands (kind, s) ∧
    doneBy (t.beatSteps prev (.leaf kind s)) = 1 ∧
    interlocksBy (t.beatSteps prev (.leaf kind s)) = (needsInterlock prev (some kind)).toNat ∧
    .checkpoint ∉ t.beatSteps prev (.leaf kind s) := by
  have hact := isAct_of_mem_actionSteps t (kind, s)
  obtain ⟨hsent, hdone, hlocks, hpoint⟩ := effects_interlockSteps t prev kind
  rw [beatSteps_leaf]
  refine ⟨?_, ?_, ?_, ?_⟩
  · simp [hsent, sentBy_actionSteps]
  · rw [doneBy_append, doneBy_append, hdone, doneBy_of_isAct hact]
    rfl
  · rw [interlocksBy_append, interlocksBy_append, hlocks, interlocksBy_of_isAct hact]
    rfl
  · simp [hpoint, checkpoint_not_mem_of_isAct hact]

/-! ### The steps up to a checkpoint -/

/-- A run stops at the end of its steps or at a checkpoint. -/
def AtStop (steps : List Step) : Prop := steps = [] ∨ ∃ rest, steps = .checkpoint :: rest

/-- Steps are taken as a whole before a step at which a run ends, if this one is not among them. -/
theorem split_of_head_not_mem {as bs taken rest : List Step} (h : as ++ bs = taken ++ rest)
    (hrest : ∀ x ∈ rest.head?, x ∉ as) : ∃ taken', taken = as ++ taken' ∧ bs = taken' ++ rest := by
  rcases List.append_eq_append_iff.mp h with ⟨cs, rfl, rfl⟩ | ⟨cs, rfl, hcs⟩
  · exact ⟨cs, rfl, rfl⟩
  · rcases cs with _ | ⟨c, cs⟩
    · exact ⟨[], by simp, hcs.symm⟩
    · rw [hcs] at hrest
      exact absurd (List.mem_append_right _ List.mem_cons_self) (hrest c rfl)

/-- Steps without a checkpoint are taken as a whole before a run stops. -/
theorem split_of_not_mem {as bs taken rest : List Step} (h : as ++ bs = taken ++ rest)
    (has : .checkpoint ∉ as) (hrest : AtStop rest) :
    ∃ taken', taken = as ++ taken' ∧ bs = taken' ++ rest := by
  refine split_of_head_not_mem h fun x hx => ?_
  rcases hrest with rfl | ⟨rest, rfl⟩
  · cases hx
  · cases hx
    exact has

/-- **Steps up to a stop are those of the first leaves**, each of them as a whole. -/
theorem leaves_of_split {t : Timing} {prev : Option Kind} {beats : List Beat}
    {taken rest : List Step} (h : t.stepsOf prev beats = taken ++ rest) (hrest : AtStop rest) :
    ∃ ls rs, leavesOf beats = ls ++ rs ∧ (rest = [] → rs = []) ∧
      sentBy taken = ls.flatMap t.leafCommands ∧ doneBy taken = ls.length ∧
      interlocksBy taken = interlocksAfter prev ls := by
  induction beats generalizing prev taken with
  | nil =>
    obtain ⟨rfl, rfl⟩ := List.append_eq_nil_iff.mp h.symm
    exact ⟨[], [], rfl, fun _ => rfl, rfl, rfl, rfl⟩
  | cons beat beats ih =>
    rw [Timing.stepsOf] at h
    -- the steps of any other beat come before a stop as a whole
    have hquiet : beat.isQuiet = true → ∃ ls rs, leavesOf (beat :: beats) = ls ++ rs ∧
        (rest = [] → rs = []) ∧ sentBy taken = ls.flatMap t.leafCommands ∧
        doneBy taken = ls.length ∧ interlocksBy taken = interlocksAfter prev ls := by
      intro hq
      obtain ⟨hact, hsent, -, hlatest, hleaves⟩ := effects_quiet t prev hq
      obtain ⟨taken', rfl, h'⟩ := split_of_not_mem h (checkpoint_not_mem_of_isAct hact) hrest
      obtain ⟨ls, rs, h1, h2, h3, h4, h5⟩ := ih h'
      rw [hlatest] at h5
      refine ⟨ls, rs, (hleaves beats).trans h1, h2, ?_, ?_, ?_⟩
      · rw [sentBy_append, hsent, h3]
        rfl
      · rw [doneBy_append, doneBy_of_isAct hact, h4, Nat.zero_add]
      · rw [interlocksBy_append, interlocksBy_of_isAct hact, h5, Nat.zero_add]
    cases beat with
    | checkpoint =>
      -- the run stops here, with all leaves left, or passes
      rw [beatSteps_checkpoint] at h
      rcases taken with _ | ⟨step, taken⟩
      · refine ⟨[], leavesOf beats, rfl, fun hnil => ?_, rfl, rfl, rfl⟩
        rw [hnil] at h
        cases h
      · obtain ⟨hstep, htail⟩ := List.cons.inj h
        subst hstep
        obtain ⟨ls, rs, h1, h2, h3, h4, h5⟩ := ih htail
        exact ⟨ls, rs, h1, h2, h3, h4, h5⟩
    | leaf kind s =>
      obtain ⟨hsent, hdone, hlocks, hpoint⟩ := effects_leaf t prev kind s
      obtain ⟨taken', rfl, h'⟩ := split_of_not_mem h hpoint hrest
      obtain ⟨ls, rs, h1, h2, h3, h4, h5⟩ := ih h'
      refine ⟨(kind, s) :: ls, rs, ?_, h2, ?_, ?_, ?_⟩
      · rw [leavesOf_leaf, h1]
        rfl
      · rw [sentBy_append, hsent, h3]
        rfl
      · rw [doneBy_append, hdone, h4, List.length_cons, Nat.add_comm]
      · rw [interlocksBy_append, hlocks, h5]
        rfl
    | iteration n total => exact hquiet rfl
    | settle => exact hquiet rfl
    | rest => exact hquiet rfl

/-- **No step of valid leaves fails** if no turn does. -/
theorem fail_not_mem_stepsOf {t : Timing} {beats : List Beat} (prev : Option Kind)
    (hfits : ∀ l ∈ leavesOf beats, l.2.Fits l.1) (hturn : t.TurnsFit (leavesOf beats))
    (fault : DurationFault) : .fail fault ∉ t.stepsOf prev beats := by
  induction beats generalizing prev with
  | nil => exact List.not_mem_nil
  | cons beat beats ih =>
    rw [Timing.stepsOf, List.mem_append, not_or]
    have hquiet : beat.isQuiet = true → .fail fault ∉ t.beatSteps prev beat ∧
        .fail fault ∉ t.stepsOf (Timing.stepsOf.latest prev beat) beats := by
      intro hq
      obtain ⟨-, -, hfail, -, hleaves⟩ := effects_quiet t prev hq
      rw [hleaves] at hfits hturn
      exact ⟨hfail fault, ih _ hfits hturn⟩
    cases beat with
    | checkpoint =>
      rw [beatSteps_checkpoint]
      exact ⟨by simp, ih _ hfits hturn⟩
    | leaf kind s =>
      rw [leavesOf_leaf] at hfits hturn
      refine ⟨?_, ih _ (fun l hl => hfits l (List.mem_cons_of_mem _ hl))
        fun l hl => hturn l (List.mem_cons_of_mem _ hl)⟩
      have hact := fail_not_mem_actionSteps (hfits _ List.mem_cons_self)
        (hturn _ List.mem_cons_self) fault
      rw [beatSteps_leaf]
      simp [hact, fail_not_mem_interlockSteps]
    | iteration n total => exact hquiet rfl
    | settle => exact hquiet rfl
    | rest => exact hquiet rfl

/-! ### Runs -/

/-- **A run executes the first leaves of its program**, each of them as a whole. It ends completed
once all of them are executed, and cancelled only if someone cancelled it. -/
theorem Run.executes {t : Timing} {blocks : List Block} (hvalid : Block.AllValid blocks)
    (hturn : t.TurnsFit (Block.leavesAll blocks)) {p q : Performance}
    {result : Except DurationFault Outcome}
    (h : Run (t.stepsOf none (beatsOf blocks), p) q result) :
    ∃ ls rs outcome, result = .ok outcome ∧ Block.leavesAll blocks = ls ++ rs ∧
      Performed t ls p q ∧
      (outcome = .completed ∧ rs = [] ∨ outcome = .cancelled ∧ q.cancelled = true) := by
  obtain ⟨rest, hcourse, hends⟩ := h.course
  obtain ⟨taken, htaken, heffect, -⟩ := hcourse.effect
  have htaken : t.stepsOf none (beatsOf blocks) = taken ++ rest := htaken
  have hfail : ∀ fault, .fail fault ∉ rest := by
    intro fault hmem
    have hsteps := List.mem_append_right taken hmem
    rw [← htaken] at hsteps
    refine fail_not_mem_stepsOf none (fun l hl => ?_) ?_ fault hsteps
    · rw [leavesOf_beatsOf] at hl
      exact (fits_of_mem_leavesAll blocks hvalid l hl).1
    · rwa [leavesOf_beatsOf]
  have hexec : ∀ stop : AtStop rest, ∃ ls rs, Block.leavesAll blocks = ls ++ rs ∧
      (rest = [] → rs = []) ∧ Performed t ls p q := by
    intro stop
    obtain ⟨ls, rs, h1, h2, h3, h4, h5⟩ := leaves_of_split htaken stop
    rw [leavesOf_beatsOf] at h1
    refine ⟨ls, rs, h1, h2, ?_, ?_, ?_, ?_⟩
    · rw [heffect.sent, h3]
    · rw [heffect.commands, h3]
    · rw [heffect.leaves, h4]
    · rw [heffect.interlocks, h5, interlocksAfter_none]
  cases hends with
  | completed =>
    obtain ⟨ls, rs, h1, h2, h3⟩ := hexec (Or.inl rfl)
    exact ⟨ls, rs, .completed, rfl, h1, h3, Or.inl ⟨rfl, h2 rfl⟩⟩
  | cancelled stop =>
    obtain ⟨ls, rs, h1, -, h3⟩ := hexec (Or.inr ⟨_, rfl⟩)
    exact ⟨ls, rs, .cancelled, rfl, h1, h3, Or.inr ⟨rfl, stop⟩⟩
  | failed => exact absurd List.mem_cons_self (hfail _)

end Choreo
