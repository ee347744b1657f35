import Choreo.Proofs.Run.Alone
import Choreo.Proofs.Run.Clock
import Choreo.Proofs.Run.Connection

/-! # The report of a run and the record of its channel

A run on a channel that has recorded nothing counts the commands that the channel records, in the
order of time. A trap that cancels the run cuts it at the shortest beginning of its leaves that sends
enough, a trap that takes the connection away makes the rest of the commands be sent in vain, and the
connection makes no other difference (`report_agrees_with_record`).

Most of this is about runs that are left alone. A session that only lets time pass leaves its run
alone: whatever it has come to, the run is what it would have been if it were played at once
(`Session.Owes`). -/

namespace Choreo

/-! ### The record -/

theorem pairwise_recordFrom (now : Nat) (steps : List Step) :
    (recordFrom now steps).Pairwise fun e e' => e.time ≤ e'.time := by
  induction steps generalizing now with
  | nil => exact .nil
  | cons step steps ih =>
    rw [recordFrom_cons, List.pairwise_append]
    refine ⟨?_, ih _, fun e he e' he' => ?_⟩
    · cases step with
      | publish c => exact List.pairwise_singleton _ _
      | _ => exact .nil
    · have hlater := (time_mem_recordFrom he').1
      have hnow : e.time = now := by
        cases step with
        | publish c => rw [List.mem_singleton.mp he]
        | _ => cases he
      omega

/-- What is counted as sent is what the channel has recorded, in the order of time. -/
structure Tally.Agrees (tally : Tally) (c : Channel) : Prop where
  commands : tally.commands = c.count
  inOrder : c.published.toList.Pairwise fun e e' => e.time ≤ e'.time

/-- **A run counts what its channel records**, whoever acts on it. -/
theorem Run.agrees {steps : List Step} {p q : Performance} {result : Except DurationFault Outcome}
    (hp : p.Fresh) (h : Run (steps, p) q result) : q.tally.Agrees q.channel := by
  obtain ⟨rest, hcourse, -⟩ := h.course
  obtain ⟨taken, htaken, heffect, -⟩ := hcourse.effect
  refine ⟨?_, ?_⟩
  · rw [← Channel.length_commands, heffect.sent, heffect.commands, hp.commands, hp.tally,
      List.nil_append]
    exact Nat.zero_add _
  · rw [(hcourse.timed htaken).record, hp.published]
    exact pairwise_recordFrom p.now taken

/-! ### Playing on -/

/-- Plays on from where a run waits. -/
def playOn : Performance × Halt → Performance × Halt
  | (q, .waiting wake rest) => play none (rest ()) { q with now := wake }
  | out => out

/-- **A run that waits comes to what it would have come to without the wait.** -/
theorem playOn_play (horizon : Option Nat) (steps : LazyList Step) (p : Performance) :
    playOn (play horizon steps p) = play none steps p := by
  induction steps generalizing p with
  | nil => rfl
  | cons step rest ih =>
    rcases play_cons step rest p with ⟨result, -, hplay⟩ | ⟨-, hnone, hplay⟩
    · rw [hplay horizon, hplay none]
      rcases result with fault | outcome <;> rfl
    · rw [hnone]
      rcases hplay horizon with hgo | ⟨wake, hwait, htake⟩
      · rw [hgo, ih]
      · rw [hwait, playOn, htake]

theorem id_play (horizon : Option Nat) (steps : LazyList Step) (p : Performance) :
    (play horizon steps p).1.id = p.id := by
  rcases comes_play horizon steps p with ⟨result, -, hrun⟩ | ⟨d, rest, -, -, hcourse⟩
  · obtain ⟨rest, hcourse, -⟩ := hrun.course
    obtain ⟨_, -, heffect, -⟩ := hcourse.effect
    exact heffect.id
  · obtain ⟨_, -, heffect, -⟩ := hcourse.effect
    exact heffect.id

/-! ### Sessions that let time pass -/

/-- Whether an event only sets the traps of the channel or its connection. -/
def SessionEvent.setsChannel : SessionEvent → Bool
  | .cancelAfter .. | .setConnected _ | .disconnectAfter _ => true
  | _ => false

namespace Session

variable {s s' : Session} {id : RunId} {out : Performance × Halt}

/-- The run is over and came to `out`. -/
structure Holds (s : Session) (id : RunId) (out : Performance × Halt) : Prop where
  flight : s.flight = none
  ended : ∃ result, out.2 = .ofResult result ∧
    s.ended.lookup id = some (reportOf result out.1.tally)
  channel : s.channel = out.1.channel

/-- The run comes to `out` if it is left alone. -/
def Owes (s : Session) (id : RunId) (out : Performance × Halt) : Prop :=
  (∃ f, s.flight = some f ∧ f.id = id ∧ play none (f.rest ()) (s.stage f) = out) ∨ s.Holds id out

theorem holds_resumed (s : Session) (f : Flight) (q : Performance)
    (result : Except DurationFault Outcome) :
    (s.resumed f (q, .ofResult result)).Holds f.id (q, .ofResult result) := by
  rw [resumed_eq_finish]
  refine ⟨flight_finish _ _ _, ⟨result, rfl, ?_⟩, channel_finish _ _ _⟩
  rw [ended_finish, List.lookup_cons_self]

theorem Owes.runUntil (h : s.Owes id out) (horizon : Option Nat) :
    (s.runUntil horizon).Owes id out := by
  rcases h with ⟨f, hf, rfl, hout⟩ | hholds
  · rw [runUntil_eq hf]
    split_ifs
    · have hon := playOn_play horizon (f.rest ()) (s.stage f)
      have hid := id_play horizon (f.rest ()) (s.stage f)
      rw [hout] at hon
      generalize play horizon (f.rest ()) (s.stage f) = reached at hon hid ⊢
      obtain ⟨q, halt⟩ := reached
      subst hon
      rcases halt with outcome | fault | ⟨wake, rest⟩
      · exact Or.inr (holds_resumed s f q (.ok outcome))
      · exact Or.inr (holds_resumed s f q (.error fault))
      · refine Or.inl ⟨⟨f.id, wake, rest, q.cancelled, q.tally⟩, rfl, rfl, ?_⟩
        have hstage : (s.resumed f (q, .waiting wake rest)).stage
            ⟨f.id, wake, rest, q.cancelled, q.tally⟩ = { q with now := wake } := by
          obtain ⟨qid, cancelled, tally, now, channel, events⟩ := q
          obtain rfl : qid = f.id := hid
          rfl
        rw [hstage]
        rfl
    · exact Or.inl ⟨f, hf, rfl, hout⟩
  · rw [runUntil_idle hholds.flight]
    exact Or.inr hholds

theorem Owes.advance (h : s.Owes id out) (millis : Nat) : (s.advance millis).Owes id out := by
  unfold Session.advance
  simp only
  split_ifs
  · exact h
  · rcases h.runUntil (some (s.now + millis)) with ⟨f, hf, hid, hout⟩ | ⟨hf, hended, hchannel⟩
    · exact Or.inl ⟨f, hf, hid, hout⟩
    · exact Or.inr ⟨hf, hended, hchannel⟩

theorem Owes.awaited (h : s.Owes id out) : (s.awaited id).Holds id out := by
  rcases h with ⟨f, hf, rfl, hout⟩ | hholds
  · obtain ⟨taken, -, result, -, hplay⟩ := play_alone (f.rest ()) (s.stage f)
    rw [awaited_of_flight hf, ← hout, hplay]
    exact holds_resumed s f _ result
  · rwa [awaited_of_vacant hholds.flight]

/-- **Waiting for a run that was left alone** gives the report of the run and the record of its
channel. -/
theorem Owes.wait (h : s.Owes id out) : ∃ result, out.2 = .ofResult result ∧
    (s.wait id).1 = answerOf result out.1.tally ∧ (s.wait id).2.channel = out.1.channel := by
  obtain ⟨-, ⟨result, hresult, hended⟩, hchannel⟩ := h.awaited
  refine ⟨result, hresult, ?_, (wait_snd s id).1.trans hchannel⟩
  rw [wait_eq, hended]
  rcases result with fault | outcome <;> rfl

theorem foldl_of_setsChannel (s : Session) (arms : List SessionEvent)
    (h : ∀ e ∈ arms, e.setsChannel = true) : (arms.foldl after s).flight = s.flight ∧
      (arms.foldl after s).channel.published = s.channel.published := by
  induction arms generalizing s with
  | nil => exact ⟨rfl, rfl⟩
  | cons e arms ih =>
    obtain ⟨he, harms⟩ := List.forall_mem_cons.mp h
    obtain ⟨hflight, hpublished⟩ := ih (s.after e) harms
    rw [List.foldl_cons, hflight, hpublished]
    cases e <;> first | exact ⟨rfl, rfl⟩ | cases he

theorem exists_owes {p : Program} (h : s.start p = .ok (id, s')) (arms : List SessionEvent)
    (harms : ∀ e ∈ arms, e.setsChannel = true) : ∃ init : Performance, init.id = id ∧
      init.tally = {} ∧ init.cancelled = false ∧ init.now = s.now ∧
      init.channel = (arms.foldl after s').channel ∧
      init.channel.published = s.channel.published ∧
      (arms.foldl after s').Owes id (perform s.timing p.toBlocks init) := by
  obtain ⟨rfl, -, -, hchannel, hflight⟩ := start_eq_ok h
  obtain ⟨hsame, hpublished⟩ := foldl_of_setsChannel s' arms harms
  refine ⟨_, rfl, rfl, rfl, rfl, rfl, hpublished.trans (by rw [hchannel]),
    Or.inl ⟨_, hsame.trans hflight, rfl, rfl⟩⟩

theorem Owes.advances (h : s.Owes id out) (millis : List Nat) :
    ((millis.map SessionEvent.advance).foldl after s).Owes id out := by
  induction millis generalizing s with
  | nil => exact h
  | cons n millis ih => exact ih (h.advance n)

end Session

/-! ### The report -/

variable {t : Timing} {blocks : List Block}

theorem perform_ends (hvalid : Block.AllValid blocks) (hturn : t.TurnsFit (Block.leavesAll blocks))
    (p : Performance) : ∃ q outcome, perform t blocks p = (q, .ended outcome) ∧
      Run (t.stepsOf none (beatsOf blocks), p) q (.ok outcome) := by
  obtain ⟨result, hresult, hrun⟩ := run_perform t blocks p
  obtain ⟨-, -, outcome, rfl, -⟩ := hrun.executes hvalid hturn
  exact ⟨_, outcome, Prod.ext rfl hresult, hrun⟩

namespace Session

variable {s s' : Session} {id : RunId}

theorem agrees_after (hs : s.Reachable) {p : Program} (hvalid : Block.AllValid p.toBlocks)
    (hturn : s.timing.TurnsFit (Block.leavesAll p.toBlocks)) (hpublished : s.channel.published = #[])
    (hstart : s.start p = .ok (id, s')) (events : List SessionEvent) : ∃ report,
      ((events.foldl after s').wait id).1 = .ok report ∧
      report.tally.Agrees ((events.foldl after s').wait id).2.channel := by
  obtain ⟨m, q, result, htally, -, hm, hrun, hreport, hchannel, -⟩ := run_after hs hstart events
  obtain ⟨-, -, outcome, rfl, -⟩ := hrun.executes hvalid hturn
  obtain ⟨hcommands, htimes⟩ := hrun.agrees ⟨htally, hm.trans hpublished⟩
  refine ⟨⟨outcome, q.tally⟩, hreport, ?_, ?_⟩
  · rw [Channel.count, hchannel]
    exact hcommands
  · rwa [hchannel]

/-- **A run in a session that lets time pass** is the run that is left alone. -/
theorem wait_left_alone {p : Program} (hvalid : Block.AllValid p.toBlocks)
    (hturn : s.timing.TurnsFit (Block.leavesAll p.toBlocks)) (hpublished : s.channel.published = #[])
    (hstart : s.start p = .ok (id, s')) (arms : List SessionEvent) (millis : List Nat)
    (harms : ∀ e ∈ arms, e.setsChannel = true) : ∃ init q outcome, Performance.Fresh init ∧
      init.id = id ∧ init.cancelled = false ∧ init.now = s.now ∧
      init.channel = (arms.foldl after s').channel ∧
      perform s.timing p.toBlocks init = (q, .ended outcome) ∧
      (((arms ++ millis.map SessionEvent.advance).foldl after s').wait id).1 =
        .ok ⟨outcome, q.tally⟩ ∧
      (((arms ++ millis.map SessionEvent.advance).foldl after s').wait id).2.channel =
        q.channel := by
  obtain ⟨init, hid, htally, hgo, hnow, hchannel, hrecord, howes⟩ := exists_owes hstart arms harms
  obtain ⟨q, outcome, hq, -⟩ := perform_ends hvalid hturn init
  rw [hq] at howes
  obtain ⟨result, hresult, hanswer, hlast⟩ := (howes.advances millis).wait
  obtain rfl : result = .ok outcome := by
    rcases result with fault | reached <;> cases hresult
    rfl
  rw [List.foldl_append]
  exact ⟨init, q, outcome, ⟨htally, hrecord.trans hpublished⟩, hid, hgo, hnow, hchannel, hq, hanswer,
    hlast⟩

end Session

/-- **The report of a run agrees with the record of its channel.** A run of valid blocks on a channel
that has recorded nothing counts the commands that the channel records, in the order of time. A trap
of the channel that cancels the run after `n` commands cuts it at the shortest beginning of its
leaves that sends `max n 1` commands. A trap that takes the connection away after `n` makes it send
in vain all but `max n 1`; without a connection from the beginning it sends in vain all.

Apart from this the connection makes no difference, neither to a run that is left alone nor, if it
comes and goes, to one in a session. A run in a session that lets time pass is the run that is left
alone, and whatever happens to a session, its report agrees with the record. -/
theorem report_agrees_with_record (hvalid : Block.AllValid blocks)
    (hturn : t.TurnsFit (Block.leavesAll blocks)) :
    (∀ p : Performance, p.Fresh → ∃ q outcome, perform t blocks p = (q, .ended outcome) ∧
      q.tally.Agrees q.channel ∧
      (∀ n, p.cancelled = false → p.channel.cancelAfter = some (n, p.id) →
        ∃ ls, t.IsCut (max n 1) (Block.leavesAll blocks) ls ∧ Performed t ls p q) ∧
      (∀ n, p.channel.connected = true → p.channel.disconnectAfter = some n →
        q.tally.whileDisconnected = q.channel.count - max n 1) ∧
      (p.channel.connected = true → p.channel.disconnectAfter = none →
        q.tally.whileDisconnected = 0) ∧
      (p.channel.connected = false → q.tally.whileDisconnected = q.channel.count)) ∧
    (∀ p p' : Performance, p.asConnected = p'.asConnected →
      (perform t blocks p).1.asConnected = (perform t blocks p').1.asConnected ∧
      (perform t blocks p).2 = (perform t blocks p').2) ∧
    (∀ (s s' : Session) (program : Program) (id : RunId), s.Reachable → s.timing = t →
      program.toBlocks = blocks → s.channel.published = #[] → s.start program = .ok (id, s') →
      (∀ events : List SessionEvent, ∃ report,
        ((events.foldl Session.after s').wait id).1 = .ok report ∧
        report.tally.Agrees ((events.foldl Session.after s').wait id).2.channel) ∧
      ∀ (arms : List SessionEvent) (millis : List Nat), (∀ e ∈ arms, e.setsChannel = true) →
        ∃ p q outcome, Performance.Fresh p ∧ p.id = id ∧ p.cancelled = false ∧ p.now = s.now ∧
          p.channel = (arms.foldl Session.after s').channel ∧
          perform t blocks p = (q, .ended outcome) ∧
          (((arms ++ millis.map SessionEvent.advance).foldl Session.after s').wait id).1 =
            .ok ⟨outcome, q.tally⟩ ∧
          (((arms ++ millis.map SessionEvent.advance).foldl Session.after s').wait id).2.channel =
            q.channel) ∧
    ∀ (s r s' r' : Session) (program : Program) (id id' : RunId), s.asConnected = r.asConnected →
      s.start program = .ok (id, s') → r.start program = .ok (id', r') → id = id' ∧
      ∀ events others : List SessionEvent,
        events.filter (!·.isLink) = others.filter (!·.isLink) →
        ((events.foldl Session.after s').wait id).1.map Report.asConnected =
          ((others.foldl Session.after r').wait id).1.map Report.asConnected ∧
        ((events.foldl Session.after s').wait id).2.asConnected =
          ((others.foldl Session.after r').wait id).2.asConnected := by
  refine ⟨fun p hp => ?_, fun p p' h => perform_congr t blocks h, ?_,
    fun s r s' r' program id id' h hs hr => Session.wait_congr hs hr h⟩
  · obtain ⟨q, outcome, hq, hrun⟩ := perform_ends hvalid hturn p
    have hvain := inVain_alone t blocks hp
    rw [hq, Channel.limit?] at hvain
    refine ⟨q, outcome, hq, hrun.agrees hp, fun n hgo htrap => ?_, fun n hc hn => ?_,
      fun hc hn => ?_, fun hc => ?_⟩
    · have hcut := cut_alone hvalid hturn hp hgo htrap
      rwa [hq] at hcut
    · rw [hvain, if_pos hc, hn]
      rfl
    · rw [hvain, if_pos hc, hn]
      rfl
    · rw [hvain, if_neg (by rw [hc]; exact Bool.false_ne_true)]
      rfl
  · rintro s s' program id hs rfl rfl hpublished hstart
    exact ⟨Session.agrees_after hs hvalid hturn hpublished hstart,
      Session.wait_left_alone hvalid hturn hpublished hstart⟩

/-- Both traps at once: the connection is lost with the first command, and the third one, which the
second leaf sends, cancels the run before the last leaf. -/
theorem both_traps_cut_before_last_wave :
    Block.AllValid [.ofKind .moveForward, .ofKind .wave, .ofKind .wave] ∧
      Timing.TurnsFit {} (Block.leavesAll [.ofKind .moveForward, .ofKind .wave, .ofKind .wave]) ∧
      ∃ q outcome, perform {} [.ofKind .moveForward, .ofKind .wave, .ofKind .wave]
          { id := 0, channel := { cancelAfter := some (3, 0), disconnectAfter := some 0 } } =
            (q, .ended outcome) ∧
        q.tally.Agrees q.channel ∧ q.tally.commands = 3 ∧ q.tally.whileDisconnected = 2 ∧
        ∃ ls, Timing.IsCut {} 3
            (Block.leavesAll [.ofKind .moveForward, .ofKind .wave, .ofKind .wave]) ls ∧
          ls.length = 2 := by
  have hvalid : Block.AllValid [.ofKind .moveForward, .ofKind .wave, .ofKind .wave] :=
    ⟨Block.valid_ofKind _, Block.valid_ofKind _, Block.valid_ofKind _, trivial⟩
  have hturn : Timing.TurnsFit {}
      (Block.leavesAll [.ofKind .moveForward, .ofKind .wave, .ofKind .wave]) :=
    Timing.turnsFit_of_no_turns {} (by decide)
  obtain ⟨q, outcome, hq, hagrees, hcut, hlost, -⟩ := (report_agrees_with_record hvalid hturn).1
    { id := 0, channel := { cancelAfter := some (3, 0), disconnectAfter := some 0 } } ⟨rfl, rfl⟩
  have hcounts : (perform {} [.ofKind .moveForward, .ofKind .wave, .ofKind .wave]
      { id := 0, channel := { cancelAfter := some (3, 0), disconnectAfter := some 0 } }).1.tally =
        ⟨3, 2, 0, 2⟩ := by decide
  rw [hq] at hcounts
  have hcommands : q.tally.commands = 3 := congrArg Tally.commands hcounts
  obtain ⟨ls, hls, hperformed⟩ := hcut 3 rfl rfl
  have hleaves : ls.length = 2 := by
    have h := hperformed.leaves
    rw [hcounts] at h
    exact (Nat.zero_add _).symm.trans h.symm
  have hvain : q.tally.whileDisconnected = 2 := by
    rw [hlost 0 rfl rfl, ← hagrees.commands, hcommands]
    rfl
  exact ⟨hvalid, hturn, q, outcome, hq, hagrees, hcommands, hvain, ls, hls, hleaves⟩

end Choreo
