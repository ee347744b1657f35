import Choreo.Proofs.Run.Execution
import Choreo.Proofs.Run.Sessions

/-! # The base at a standstill

A leaf that moves the base stops it before it ends, and before any of its steps can fail; between
leaves nothing moves it. So wherever a run stops, completed, cancelled or failed, the last command
for the base is the stop, and no leaf begins while the base moves.

`Settles` says this of the steps of a run, with the base moving or not before them. It holds of the
steps of every beat of a valid program (`settles_beatSteps`), passes on to what is left of some steps
(`Settles.drop`), and is read back as a property of the commands sent. -/

namespace Choreo

/-- The base stands still after some commands: the last one for the base, if any, is the stop. -/
def AtStandstill (cs : List Command) : Prop :=
  ∀ c ∈ (cs.filter fun c => c.target = .drive).getLast?, c = .stop

/-- Whether the base moves after a command; a gesture leaves it as it is. -/
def Command.keepsMoving (moving : Bool) : Command → Bool
  | .gesture _ => moving
  | .drive twist => twist ≠ .stop

/-- Whether the base moves after some commands. -/
def movesAfter (moving : Bool) (cs : List Command) : Bool := cs.foldl Command.keepsMoving moving

theorem movesAfter_append (moving : Bool) (as bs : List Command) :
    movesAfter moving (as ++ bs) = movesAfter (movesAfter moving as) bs := List.foldl_append

theorem movesAfter_concat (moving : Bool) (cs : List Command) (c : Command) :
    movesAfter moving (cs ++ [c]) = c.keepsMoving (movesAfter moving cs) := by
  rw [movesAfter_append]
  rfl

/-- A base at rest that does not move after some commands stands still after them. -/
theorem atStandstill_of_movesAfter {cs : List Command} (h : movesAfter false cs = false) :
    AtStandstill cs := by
  induction cs using List.reverseRecOn with
  | nil => exact nofun
  | append_singleton cs c ih =>
    rw [movesAfter_concat] at h
    unfold AtStandstill at ih ⊢
    rw [List.filter_append]
    cases c with
    | gesture name => simpa [Command.target] using ih h
    | drive twist =>
      have htwist : twist = .stop := by simpa [Command.keepsMoving] using h
      rw [htwist]
      simp [Command.target, Command.stop]

theorem stop_mem_of_movesAfter {cs : List Command} (h : movesAfter true cs = false) :
    .stop ∈ cs := by
  induction cs using List.reverseRecOn with
  | nil => cases h
  | append_singleton cs c ih =>
    rw [movesAfter_concat] at h
    cases c with
    | gesture name => exact List.mem_append_left _ (ih h)
    | drive twist =>
      have htwist : twist = .stop := by simpa [Command.keepsMoving] using h
      rw [htwist]
      exact List.mem_append_right _ List.mem_cons_self

/-! ### Steps that settle -/

/-- Whether a leaf ends at a step, or a run can. -/
def Step.isBreak : Step → Bool
  | .checkpoint | .done | .fail _ => true
  | .note _ | .interlock | .publish _ | .wait _ => false

/-- The base does not move wherever a leaf ends or a run can, nor after the last step. -/
def Settles : (moving : Bool) → List Step → Prop
  | moving, [] => moving = false
  | moving, step :: rest =>
    (step.isBreak = true → moving = false) ∧ Settles (movesAfter moving (sentBy [step])) rest

theorem settles_cons {step : Step} (hstep : step.isBreak = false) {rest : List Step} {moving : Bool}
    (h : Settles (movesAfter moving (sentBy [step])) rest) : Settles moving (step :: rest) :=
  ⟨fun hbreak => absurd hbreak (ne_true_of_eq_false hstep), h⟩

theorem Settles.append {as bs : List Step} {moving : Bool} (h : Settles moving as)
    (h' : Settles false bs) : Settles moving (as ++ bs) := by
  induction as generalizing moving with
  | nil =>
    obtain rfl : moving = false := h
    exact h'
  | cons step as ih => exact ⟨h.1, ih h.2⟩

/-- What is left of steps that settle goes on from how the base moves by then. -/
theorem Settles.drop {taken rest : List Step} {moving : Bool} (h : Settles moving (taken ++ rest)) :
    Settles (movesAfter moving (sentBy taken)) rest := by
  induction taken generalizing moving with
  | nil => exact h
  | cons step taken ih =>
    have hsent : sentBy (step :: taken) = sentBy [step] ++ sentBy taken := sentBy_append [step] taken
    rw [hsent, movesAfter_append]
    exact ih h.2

theorem settles_of_sentBy_eq_nil {steps : List Step} (h : sentBy steps = []) :
    Settles false steps := by
  induction steps with
  | nil => rfl
  | cons step steps ih =>
    have hsent : sentBy (step :: steps) = sentBy [step] ++ sentBy steps :=
      sentBy_append [step] steps
    rw [hsent, List.append_eq_nil_iff] at h
    refine ⟨fun _ => rfl, ?_⟩
    rw [h.1]
    exact ih h.2

/-! ### The steps of a leaf -/

/-- After the stop a turn may fail: the base stands still. -/
theorem settles_stop (moving : Bool) (d : Except DurationFault Duration) :
    Settles moving [.publish .stop, .waitFor d] := by
  have hstop : movesAfter moving (sentBy [.publish .stop]) = false := by simp [movesAfter,
    Command.stop, Command.keepsMoving]
  refine settles_cons rfl ?_
  rw [hstop]
  exact settles_of_sentBy_eq_nil (by simp)

/-- However often a turn sends its velocity, what settles the base afterwards settles it. -/
theorem settles_sweep (rate : Float) (tick : Nat) {tail : List Step} (h : ∀ m, Settles m tail) :
    ∀ (n : Nat) (moving : Bool), Settles moving
      (Phrase.toList ⟨n, [.publish (.drive (.turning rate)), .waitMillis tick]⟩ ++ tail)
  | 0, moving => h moving
  | n + 1, moving => by
    have hsucc : Phrase.toList ⟨n + 1, [.publish (.drive (.turning rate)), .waitMillis tick]⟩ =
        .publish (.drive (.turning rate)) :: .waitMillis tick ::
          Phrase.toList ⟨n, [.publish (.drive (.turning rate)), .waitMillis tick]⟩ := by
      rw [Phrase.toList, List.replicate_succ, List.flatten_cons]
      rfl
    rw [hsucc]
    exact settles_cons rfl (settles_cons rfl (settles_sweep rate tick h n _))

theorem settles_turnPhrases (t : Timing) (motion : Motion) (angle : Float) :
    Settles false ((t.turnPhrases motion angle).flatMap Phrase.toList) := by
  unfold Timing.turnPhrases
  rcases t.turnDuration angle with fault | d
  · exact settles_of_sentBy_eq_nil (by simp)
  · simp only [List.flatMap_cons, List.flatMap_nil, Phrase.toList_once, List.append_nil]
    exact settles_cons rfl (settles_sweep _ _ (fun m => settles_stop m _) _ _)

/-- A straight motion of a valid length is stopped: nothing fails in between. -/
theorem settles_driveSteps {s : Settings} {kind : Kind} (h : s.Fits kind) (motion : Motion)
    (speed : Float) : Settles false (Timing.driveSteps motion speed (s.value .duration)) := by
  obtain ⟨d, hd⟩ := Duration.ofSeconds_of_admits (h.value .duration)
  unfold Timing.driveSteps
  rw [hd]
  refine settles_cons rfl (settles_cons rfl (settles_cons rfl (settles_cons rfl ?_)))
  simp [movesAfter, Command.stop, Command.keepsMoving, Settles]

/-- **A leaf leaves the base at a standstill**, and stops it before a step can fail. -/
theorem settles_actionSteps (t : Timing) {l : Leaf} (hfits : l.2.Fits l.1) :
    Settles false (t.actionSteps l) := by
  obtain ⟨kind, s⟩ := l
  have hdrive := fun motion => settles_driveSteps hfits motion (s.value .speed)
  unfold Timing.actionSteps Timing.actionPhrases
  cases kind <;>
    simp [Kind.motion?, Kind.category, Motion.isAngular, Motion.isLinear, settles_turnPhrases,
      settles_of_sentBy_eq_nil, sentBy_pauseSteps, hdrive]
  -- the gestures are left
  all_goals exact settles_cons rfl (settles_cons rfl rfl)

/-! ### The steps of a run -/

theorem settles_beatSteps (t : Timing) (prev : Option Kind) {beat : Beat}
    (hfits : ∀ l ∈ leavesOf [beat], l.2.Fits l.1) : Settles false (t.beatSteps prev beat) := by
  have hquiet : beat.isQuiet = true → Settles false (t.beatSteps prev beat) := fun hq =>
    settles_of_sentBy_eq_nil (effects_quiet t prev hq).2.1
  cases beat with
  | checkpoint =>
    rw [beatSteps_checkpoint]
    exact settles_of_sentBy_eq_nil rfl
  | leaf kind s =>
    have haction := settles_actionSteps t (hfits (kind, s) List.mem_cons_self)
    rw [beatSteps_leaf]
    exact ((settles_of_sentBy_eq_nil (effects_interlockSteps t prev kind).1).append haction).append
      (settles_of_sentBy_eq_nil rfl)
  | iteration n total => exact hquiet rfl
  | settle => exact hquiet rfl
  | rest => exact hquiet rfl

theorem settles_stepsOf (t : Timing) (prev : Option Kind) {beats : List Beat}
    (hfits : ∀ l ∈ leavesOf beats, l.2.Fits l.1) : Settles false (t.stepsOf prev beats) := by
  induction beats generalizing prev with
  | nil => rfl
  | cons beat beats ih =>
    have hsplit : leavesOf (beat :: beats) = leavesOf [beat] ++ leavesOf beats :=
      leavesOf_append [beat] beats
    rw [hsplit] at hfits
    rw [Timing.stepsOf]
    exact (settles_beatSteps t prev fun l hl => hfits l (List.mem_append_left _ hl)).append
      (ih _ fun l hl => hfits l (List.mem_append_right _ hl))

variable {t : Timing} {blocks : List Block}

theorem settles_score (hvalid : Block.AllValid blocks) :
    Settles false (t.stepsOf none (beatsOf blocks)) := by
  refine settles_stepsOf t none fun l hl => ?_
  rw [leavesOf_beatsOf] at hl
  exact (fits_of_mem_leavesAll blocks hvalid l hl).1

theorem Ends.movesAfter {rest : List Step} {q : Performance} {result : Except DurationFault Outcome}
    (h : Ends (rest, q) result) {moving : Bool} (hs : Settles moving rest) : moving = false := by
  cases h with
  | completed => exact hs
  | cancelled => exact hs.1 rfl
  | failed => exact hs.1 rfl

theorem Settles.stop_sent {as bs : List Step} (h : Settles true (as ++ bs)) (hdone : 0 < doneBy as) :
    .stop ∈ sentBy as := by
  obtain ⟨step, hstep, hd⟩ := List.countP_pos_iff.mp hdone
  obtain ⟨cs, ds, rfl⟩ := List.append_of_mem hstep
  rw [List.append_assoc] at h
  have hbreak : step.isBreak = true := by
    cases step <;> first | rfl | cases hd
  have hmoves := h.drop.1 hbreak
  rw [sentBy_append]
  exact List.mem_append_left _ (stop_mem_of_movesAfter hmoves)

theorem Run.atStandstill (hvalid : Block.AllValid blocks) {p q : Performance}
    {result : Except DurationFault Outcome}
    (h : Run (t.stepsOf none (beatsOf blocks), p) q result) :
    ∃ sent, q.channel.commands = p.channel.commands ++ sent ∧ AtStandstill sent := by
  obtain ⟨rest, hcourse, hends⟩ := h.course
  obtain ⟨taken, htaken, heffect, -⟩ := hcourse.effect
  have hsettles : Settles false (taken ++ rest) := htaken ▸ settles_score hvalid
  exact ⟨sentBy taken, heffect.sent,
    atStandstill_of_movesAfter (hends.movesAfter hsettles.drop)⟩

theorem Course.stop_between (hvalid : Block.AllValid blocks) {p m₁ m₂ : Performance}
    {twist : Twist} {c : Command} {rest₁ rest₂ : List Step} (htwist : twist ≠ .stop)
    (h : Course (t.stepsOf none (beatsOf blocks), p) (.publish (.drive twist) :: rest₁, m₁))
    (h' : Course (.publish (.drive twist) :: rest₁, m₁) (.publish c :: rest₂, m₂))
    (hleaf : m₁.tally.leaves < m₂.tally.leaves) :
    ∃ between, m₂.channel.commands = m₁.channel.commands ++ .drive twist :: between ∧
      .stop ∈ between := by
  obtain ⟨taken, htaken, -, -⟩ := h.effect
  obtain ⟨taken', htaken', heffect', -⟩ := h'.effect
  have hsettles := settles_score (t := t) hvalid
  have htaken : t.stepsOf none (beatsOf blocks) = taken ++ .publish (.drive twist) :: rest₁ := htaken
  rw [htaken] at hsettles
  rcases taken' with _ | ⟨step, as⟩
  · exact absurd heffect'.leaves (Nat.ne_of_gt hleaf)
  · obtain ⟨hstep, hrest⟩ := List.cons.inj htaken'
    obtain rfl : Step.publish (.drive twist) = step := hstep
    have hrest : rest₁ = as ++ .publish c :: rest₂ := hrest
    have hmoves : ∀ m, movesAfter m (sentBy [.publish (.drive twist)]) = true := fun m => by
      simp [movesAfter, Command.keepsMoving, htwist]
    have hafter := hsettles.drop.2
    rw [hmoves, hrest] at hafter
    have hdone : 0 < doneBy as := by
      have hcount : m₂.tally.leaves = m₁.tally.leaves + doneBy as := heffect'.leaves
      omega
    exact ⟨sentBy as, by rw [heffect'.sent, sentBy_publish], hafter.stop_sent hdone⟩

/-- **The base is never left moving.** However a run of valid blocks ends, under whatever timing and
whoever acts on it meanwhile, the last command that it sent for the base is the stop; and before it
sends a command while more leaves are executed than when it set the base in motion, it has sent the
stop. Runs that are left alone and runs in sessions are such runs. -/
theorem base_comes_to_standstill (hvalid : Block.AllValid blocks) :
    (∀ p q result, Run (t.stepsOf none (beatsOf blocks), p) q result →
      ∃ sent, q.channel.commands = p.channel.commands ++ sent ∧ AtStandstill sent) ∧
    (∀ p m₁ m₂ twist c rest₁ rest₂, twist ≠ .stop →
      Course (t.stepsOf none (beatsOf blocks), p) (.publish (.drive twist) :: rest₁, m₁) →
      Course (.publish (.drive twist) :: rest₁, m₁) (.publish c :: rest₂, m₂) →
      m₁.tally.leaves < m₂.tally.leaves →
      ∃ between, m₂.channel.commands = m₁.channel.commands ++ .drive twist :: between ∧
        .stop ∈ between) ∧
    (∀ p, ∃ result sent, (perform t blocks p).2 = .ofResult result ∧
      (perform t blocks p).1.channel.commands = p.channel.commands ++ sent ∧ AtStandstill sent) ∧
    (∀ (s s' : Session) (program : Program) (id : RunId) (events : List SessionEvent),
      s.Reachable → s.timing = t → program.toBlocks = blocks → s.start program = .ok (id, s') →
      ∃ sent, ((events.foldl Session.after s').wait id).2.channel.commands =
        s.channel.commands ++ sent ∧ AtStandstill sent) := by
  refine ⟨fun p q result h => h.atStandstill hvalid,
    fun p m₁ m₂ twist c rest₁ rest₂ htwist h h' hleaf => h.stop_between hvalid htwist h' hleaf,
    fun p => ?_, ?_⟩
  · obtain ⟨result, hresult, hrun⟩ := run_perform t blocks p
    obtain ⟨sent, hsent, hstill⟩ := hrun.atStandstill hvalid
    exact ⟨result, sent, hresult, hsent, hstill⟩
  · rintro s s' program id events hs rfl rfl hstart
    obtain ⟨m, q, result, -, hcommands, hrun, -, hchannel, -⟩ := Session.wait_after hs hstart events
    obtain ⟨sent, hsent, hstill⟩ := hrun.atStandstill hvalid
    exact ⟨sent, by rw [hchannel, hsent, hcommands], hstill⟩

/-- A timing of turns that are so slow that their length and one tick together are no duration. -/
def glacialTiming : Timing :=
  { tick := 18446744073709551615, angularSpeed := 8.516e-20, drivetrainCorrection := 0.0 }

set_option maxRecDepth 4000 in
/-- A turn that fails after its sweep has stopped the base by then. -/
theorem standstill_after_failed_turn :
    Block.AllValid [.ofKind .turnLeft] ∧
      (perform glacialTiming [.ofKind .turnLeft] { id := 0 }).2 = .failed .sumTooLarge ∧
      (perform glacialTiming [.ofKind .turnLeft] { id := 0 }).1.tally.commands = 1001 ∧
      AtStandstill (perform glacialTiming [.ofKind .turnLeft] { id := 0 }).1.channel.commands := by
  have hvalid : Block.AllValid [.ofKind .turnLeft] := ⟨Block.valid_ofKind _, trivial⟩
  have hfails : (match (perform glacialTiming [.ofKind .turnLeft] { id := 0 }).2 with
      | .failed fault => decide (fault = .sumTooLarge)
      | _ => false) = true := by decide +kernel
  obtain ⟨result, sent, hresult, hsent, hstill⟩ :=
    (@base_comes_to_standstill glacialTiming _ hvalid).2.2.1 { id := 0 }
  have hnone : Channel.commands {} = [] := rfl
  rw [hnone, List.nil_append] at hsent
  refine ⟨hvalid, ?_, by decide +kernel, hsent ▸ hstill⟩
  rw [hresult] at hfails ⊢
  rcases result with fault | outcome
  · rw [show fault = .sumTooLarge from of_decide_eq_true hfails]
    rfl
  · cases hfails

end Choreo
