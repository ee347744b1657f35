import Choreo.Proofs.Run.Checkpoints
import Choreo.Proofs.Run.Sessions

/-! # What runs come to

A run of valid blocks under a timing that can make its turns never fails. If nobody cancels it, it
sends the commands of all its leaves, one leaf after the other, and counts them; if someone does, it
sends those of the first leaves and stops between two of them. That holds for a run that is left
alone (`perform`) and for one in a session alike. -/

namespace Choreo

variable {t : Timing} {blocks : List Block}

theorem Run.completes (hvalid : Block.AllValid blocks)
    (hturn : t.TurnsFit (Block.leavesAll blocks)) {p q : Performance}
    {result : Except DurationFault Outcome}
    (h : Run (t.stepsOf none (beatsOf blocks), p) q result) (hq : q.cancelled = false) :
    result = .ok .completed ∧ Performed t (Block.leavesAll blocks) p q := by
  obtain ⟨ls, rs, outcome, rfl, hls, hperformed, ⟨rfl, rfl⟩ | ⟨-, hc⟩⟩ := h.executes hvalid hturn
  · rw [List.append_nil] at hls
    rw [hls]
    exact ⟨rfl, hperformed⟩
  · rw [hq] at hc
    cases hc

/-- **What an uncancelled run means.** A run of valid blocks that nobody cancels, among others, left
alone or in a session, sends the commands of its leaves in the order in which they run, with every
repeat unrolled as often as its parameter says. It ends completed and counts its commands, its
leaves, and the neighbours among them that need an interlock. A run in a session that neither the
channel nor anything that happens cancels is such a run. -/
theorem uncancelled_runs_perform_all_leaves (hvalid : Block.AllValid blocks)
    (hturn : t.TurnsFit (Block.leavesAll blocks)) :
    (∀ p q result, Run (t.stepsOf none (beatsOf blocks), p) q result → q.cancelled = false →
      result = .ok .completed ∧ Performed t (Block.leavesAll blocks) p q) ∧
    (∀ p, (perform t blocks p).1.cancelled = false →
      (perform t blocks p).2 = .ended .completed ∧
      Performed t (Block.leavesAll blocks) p (perform t blocks p).1) ∧
    (∀ (s : Session) (program : Program), s.Reachable → s.timing = t → program.toBlocks = blocks →
      s.state ≠ .running → s.channel.connected = true →
      ∃ id s', s.start program = .ok (id, s') ∧ ∀ events : List SessionEvent,
        ∃ p q result, p.tally = {} ∧ p.channel.commands = s.channel.commands ∧
          Run (t.stepsOf none (beatsOf blocks), p) q result ∧
          (s.channel.Spares id → (∀ e ∈ events, ¬ e.Cancels id) → q.cancelled = false) ∧
          (q.cancelled = false →
            ((events.foldl Session.after s').wait id).1 = .ok ⟨.completed, q.tally⟩ ∧
            ((events.foldl Session.after s').wait id).2.channel.commands =
              s.channel.commands ++ (Block.leavesAll blocks).flatMap t.leafCommands ∧
            q.tally.commands = ((Block.leavesAll blocks).flatMap t.leafCommands).length ∧
            q.tally.leaves = (Block.leavesAll blocks).length ∧
            q.tally.interlocks = interlocks (Block.leavesAll blocks))) ∧
    (∀ b ∈ Block.rows blocks, b.isContainer = true →
      b.value .times = Double.ofNat b.settings.iterations ∧
      (b.settings.get? .times = none → b.settings.iterations = 1)) := by
  refine ⟨fun p q result hrun hq => hrun.completes hvalid hturn hq, fun p hq => ?_, ?_, ?_⟩
  · obtain ⟨result, hresult, hrun⟩ := run_perform t blocks p
    obtain ⟨rfl, hperformed⟩ := hrun.completes hvalid hturn hq
    exact ⟨hresult, hperformed⟩
  · rintro s program hs rfl rfl hstate hconnected
    obtain ⟨s', hstart⟩ := Session.start_of_connected hstate hconnected program
    refine ⟨s.next, s', hstart, fun events => ?_⟩
    obtain ⟨m, q, result, htally, hcommands, hrun, hreport, hchannel, hspared⟩ :=
      Session.wait_after hs hstart events
    refine ⟨m, q, result, htally, hcommands, hrun, hspared, fun hq => ?_⟩
    obtain ⟨rfl, hsent, h1, h2, h3⟩ := hrun.completes hvalid hturn hq
    rw [htally, Nat.zero_add] at h1 h2 h3
    exact ⟨hreport, by rw [hchannel, hsent, hcommands], h1, h2, h3⟩
  · intro b hb _
    obtain ⟨hfits, -, -⟩ := Block.valid_iff.mp (Block.valid_of_mem_rows blocks hvalid b hb)
    exact ⟨hfits.iterations.1, Settings.iterations_of_unset⟩

/-- A drive back and forth twice, and a turn. -/
def driveAndTurn : List Block :=
  [⟨.loop, Settings.empty.insert .times 2.0, [.ofKind .moveForward, .ofKind .moveBackward]⟩,
    .ofKind .turnLeft]

/-- There is an interlock between any two of the five leaves. -/
theorem uncancelled_drive_and_turn :
    Block.AllValid driveAndTurn ∧ Timing.TurnsFit {} (Block.leavesAll driveAndTurn) ∧
      (perform {} driveAndTurn { id := 0 }).2 = .ended .completed ∧
      (perform {} driveAndTurn { id := 0 }).1.tally.commands = 53 ∧
      (perform {} driveAndTurn { id := 0 }).1.tally.leaves = 5 ∧
      (perform {} driveAndTurn { id := 0 }).1.tally.interlocks = 4 := by
  have htimes : Param.times.Admits 2.0 :=
    ⟨by decide, by decide, by decide, fun _ => ⟨2, by decide⟩⟩
  have hloop : (Settings.empty.insert .times 2.0).Fits .loop := by
    intro p x h
    cases p <;> cases h
    exact ⟨rfl, htimes⟩
  have hvalid : Block.AllValid driveAndTurn :=
    ⟨Block.valid_iff.mpr ⟨hloop, nofun, Block.valid_ofKind _, Block.valid_ofKind _, trivial⟩,
      Block.valid_ofKind _, trivial⟩
  have hangle : Timing.TurnFits {} 90.0 :=
    ⟨⟨4322499523⟩, ⟨4422499523⟩, by decide +kernel, if_pos (by decide)⟩
  have hturn : Timing.TurnsFit {} (Block.leavesAll driveAndTurn) := by
    have hall : ∀ l ∈ Block.leavesAll driveAndTurn, l.1 = .turnLeft ∨ l.1 = .turnRight →
        l.2.value .angle = 90.0 := by decide
    intro l hl hkind
    rw [hall l hl hkind]
    exact hangle
  have hgo : (perform {} driveAndTurn { id := 0 }).1.cancelled = false := by
    unfold perform
    refine (Session.spared_play none _ rfl ?_).1
    exact nofun
  obtain ⟨hend, -, hcommands, hleaves, hlocks⟩ :=
    (uncancelled_runs_perform_all_leaves hvalid hturn).2.1 { id := 0 } hgo
  have h53 : ((Block.leavesAll driveAndTurn).flatMap (Timing.leafCommands {})).length = 53 := by
    decide +kernel
  have h5 : (Block.leavesAll driveAndTurn).length = 5 := by decide
  have h4 : interlocks (Block.leavesAll driveAndTurn) = 4 := by decide
  rw [h53] at hcommands
  rw [h5] at hleaves
  rw [h4] at hlocks
  exact ⟨hvalid, hturn, hend, hcommands, hleaves, hlocks⟩

/-- A run executes the first leaves. It ends cancelled if leaves are left, and only if it is
cancelled. -/
theorem Run.cut (hvalid : Block.AllValid blocks) (hturn : t.TurnsFit (Block.leavesAll blocks))
    {p q : Performance} {result : Except DurationFault Outcome}
    (h : Run (t.stepsOf none (beatsOf blocks), p) q result) :
    ∃ ls rs outcome, result = .ok outcome ∧ Block.leavesAll blocks = ls ++ rs ∧
      Performed t ls p q ∧ (rs ≠ [] → outcome = .cancelled) ∧
      (outcome = .completed → rs = []) ∧ (outcome = .cancelled → q.cancelled = true) := by
  obtain ⟨ls, rs, outcome, hok, hls, hperformed, hend⟩ := h.executes hvalid hturn
  refine ⟨ls, rs, outcome, hok, hls, hperformed, fun hrs => ?_, ?_, ?_⟩
  · rcases hend with ⟨-, hnil⟩ | ⟨hc, -⟩
    · exact absurd hnil hrs
    · exact hc
  · rintro rfl
    rcases hend with ⟨-, hnil⟩ | ⟨hc, -⟩
    · exact hnil
    · cases hc
  · rintro rfl
    rcases hend with ⟨hc, -⟩ | ⟨-, hq⟩
    · cases hc
    · exact hq

/-- A run that is cancelled at some moment executes the leaf under way and no other. -/
theorem Run.finishes_leaf (hvalid : Block.AllValid blocks)
    (hturn : t.TurnsFit (Block.leavesAll blocks)) {p m q : Performance} {rest : List Step}
    {result : Except DurationFault Outcome} (h : Run (rest, m) q result)
    (hcourse : Course (t.stepsOf none (beatsOf blocks), p) (rest, m)) (hm : m.cancelled = true) :
    q.tally.leaves = m.tally.leaves + leavesUnderWay rest ∧ leavesUnderWay rest ≤ 1 := by
  obtain ⟨-, -, outcome, hok, -⟩ := (hcourse.run h).executes hvalid hturn
  obtain ⟨taken, htaken, -, -⟩ := hcourse.effect
  exact ⟨h.leaves_of_cancelled hm ⟨outcome, hok⟩,
    leavesUnderWay_le (guarded_beatsOf blocks) htaken⟩

/-- **Cancellation cuts a run between two leaves.** A run of valid blocks, whoever acts on it
meanwhile, executes the first leaves of its program, each of them as a whole: it has sent their
commands and counted them. It ends cancelled if leaves are left, and it does so only if someone
cancelled it. After the cancellation it still executes the leaf under way, if there is one, and no
other.

Runs that are left alone and runs in sessions are such runs. In a session a run ends cancelled only
if something cancels it, and a run that is cancelled while it waits executes no leaf but the one
under way. -/
theorem cancellation_cuts_between_leaves (hvalid : Block.AllValid blocks)
    (hturn : t.TurnsFit (Block.leavesAll blocks)) :
    (∀ p q result, Run (t.stepsOf none (beatsOf blocks), p) q result →
      ∃ ls rs outcome, result = .ok outcome ∧ Block.leavesAll blocks = ls ++ rs ∧
        Performed t ls p q ∧ (rs ≠ [] → outcome = .cancelled) ∧
        (outcome = .completed → rs = []) ∧ (outcome = .cancelled → q.cancelled = true) ∧
        ∀ rest m, Course (t.stepsOf none (beatsOf blocks), p) (rest, m) → m.cancelled = true →
          Run (rest, m) q result →
          q.tally.leaves = m.tally.leaves + leavesUnderWay rest ∧ leavesUnderWay rest ≤ 1) ∧
    (∀ p, ∃ result, (perform t blocks p).2 = .ofResult result ∧
      Run (t.stepsOf none (beatsOf blocks), p) (perform t blocks p).1 result) ∧
    (∀ (s s' : Session) (program : Program) (id : RunId), s.Reachable → s.timing = t →
      program.toBlocks = blocks → s.start program = .ok (id, s') →
      (∀ events : List SessionEvent, ∃ p q outcome,
        p.tally = {} ∧ p.channel.commands = s.channel.commands ∧
          Run (t.stepsOf none (beatsOf blocks), p) q (.ok outcome) ∧
          ((events.foldl Session.after s').wait id).1 = .ok ⟨outcome, q.tally⟩ ∧
          ((events.foldl Session.after s').wait id).2.channel.commands = q.channel.commands ∧
          (outcome = .cancelled → ¬ s.channel.Spares id ∨ ∃ e ∈ events, e.Cancels id)) ∧
      ∀ (before later : List SessionEvent) (f : Flight),
        (before.foldl Session.after s').flight = some f →
        ∃ report,
          ((later.foldl Session.after ((before.foldl Session.after s').cancel id)).wait id).1 =
            .ok report ∧
          report.tally.leaves = f.tally.leaves + leavesUnderWay (f.rest ()).toList ∧
          leavesUnderWay (f.rest ()).toList ≤ 1) := by
  refine ⟨fun p q result hrun => ?_, run_perform t blocks, ?_⟩
  · obtain ⟨ls, rs, outcome, hok, hls, hperformed, hleft, hdone, hcancelled⟩ :=
      hrun.cut hvalid hturn
    exact ⟨ls, rs, outcome, hok, hls, hperformed, hleft, hdone, hcancelled,
      fun rest m hcourse hm hlater => hlater.finishes_leaf hvalid hturn hcourse hm⟩
  · rintro s s' program id hs rfl rfl hstart
    refine ⟨fun events => ?_, fun before later f hf => ?_⟩
    · obtain ⟨m, q, result, htally, hcommands, hrun, hreport, hchannel, hspared⟩ :=
        Session.wait_after hs hstart events
      obtain ⟨ls, rs, outcome, rfl, -, -, -, -, hcancelled⟩ := hrun.cut hvalid hturn
      refine ⟨m, q, outcome, htally, hcommands, hrun, hreport, hchannel, fun hc => ?_⟩
      by_contra hnone
      rw [not_or, not_not, not_exists] at hnone
      have hq := hspared hnone.1 fun e he hcancels => hnone.2 e ⟨he, hcancels⟩
      rw [hcancelled hc] at hq
      cases hq
    · obtain ⟨m, m', q, result, hcourse, htally, hm', hrun, hreport⟩ :=
        Session.wait_after_cancel hs hstart before later hf
      obtain ⟨-, -, outcome, rfl, -⟩ := (hcourse.run hrun).cut hvalid hturn
      refine ⟨⟨outcome, q.tally⟩, hreport, ?_⟩
      rw [← htally]
      exact hrun.finishes_leaf hvalid hturn hcourse hm'

/-- A run that is cancelled by its first command still stops the motion that this command begins,
and leaves out the rest. -/
theorem cancellation_cuts_after_first_leaf :
    Block.AllValid [.ofKind .moveForward, .ofKind .wave] ∧
      Timing.TurnsFit {} (Block.leavesAll [.ofKind .moveForward, .ofKind .wave]) ∧
      ∃ q, perform {} [.ofKind .moveForward, .ofKind .wave]
          { id := 0, channel := { cancelAfter := some (1, 0) } } = (q, .ended .cancelled) ∧
        Performed {} [(.moveForward, .empty)]
          { id := 0, channel := { cancelAfter := some (1, 0) } } q := by
  have hvalid : Block.AllValid [.ofKind .moveForward, .ofKind .wave] :=
    ⟨Block.valid_ofKind _, Block.valid_ofKind _, trivial⟩
  have hturn : Timing.TurnsFit {} (Block.leavesAll [.ofKind .moveForward, .ofKind .wave]) := by
    have hnone : ∀ l ∈ Block.leavesAll [.ofKind .moveForward, .ofKind .wave],
        ¬ (l.1 = .turnLeft ∨ l.1 = .turnRight) := by decide
    exact fun l hl hkind => absurd hkind (hnone l hl)
  obtain ⟨hruns, hperform, -⟩ := cancellation_cuts_between_leaves hvalid hturn
  obtain ⟨result, hresult, hrun⟩ :=
    hperform { id := 0, channel := { cancelAfter := some (1, 0) } }
  obtain ⟨ls, rs, outcome, rfl, hls, hperformed, hrest, -⟩ := hruns _ _ _ hrun
  have hone : (perform {} [.ofKind .moveForward, .ofKind .wave]
      { id := 0, channel := { cancelAfter := some (1, 0) } }).1.tally.leaves = 1 := by decide
  have hlen : ls.length = 1 := (Nat.zero_add _).symm.trans (hperformed.leaves.symm.trans hone)
  obtain ⟨l, rfl⟩ := List.length_eq_one_iff.mp hlen
  obtain ⟨rfl, hrs⟩ := List.cons.inj hls
  have hne : rs ≠ [] := by
    rintro rfl
    cases hrs
  rw [hrest hne] at hresult
  exact ⟨hvalid, hturn, _, Prod.ext rfl hresult, hperformed⟩

end Choreo
