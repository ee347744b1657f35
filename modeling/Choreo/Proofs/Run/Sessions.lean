import Choreo.Proofs.Run.Effect
import Choreo.Run.Session

/-! # Runs in a session

A run that a session starts is a run among others: whatever happens to the session between its steps
leaves alone what it has done, and its report is that of the run (`Session.run_after`). Nothing but
a cancellation of this very run cancels it.

Sessions number their runs, so a report is never taken for that of another run
(`Session.Reachable.numbered`). -/

namespace Choreo

/-- What can happen to a session besides that runs are started and reports collected. -/
inductive SessionEvent where
  | advance (millis : Nat)
  | cancel (id : RunId)
  | cancelAfter (id : RunId) (count : Nat)
  | setConnected (connected : Bool)
  | disconnectAfter (count : Nat)

/-- Whether an event cancels a run, at once or later. -/
def SessionEvent.Cancels (e : SessionEvent) (id : RunId) : Prop :=
  e = .cancel id ∨ ∃ count, e = .cancelAfter id count

/-- The channel does not cancel a run. -/
def Channel.Spares (c : Channel) (id : RunId) : Prop := ∀ count, c.cancelAfter ≠ some (count, id)

namespace Session

/-- The session after an event. -/
def after (s : Session) : SessionEvent → Session
  | .advance millis => s.advance millis
  | .cancel id => s.cancel id
  | .cancelAfter id count => s.cancelAfter id count
  | .setConnected connected => s.setConnected connected
  | .disconnectAfter count => s.disconnectAfter count

/-- The sessions that there can be. -/
inductive Reachable : Session → Prop where
  | fresh (timing : Timing) (channel : Channel) : Reachable { timing, channel }
  | after {s : Session} (reachable : Reachable s) (e : SessionEvent) : Reachable (s.after e)
  | start {s s' : Session} {p : Program} {id : RunId} (reachable : Reachable s)
    (started : s.start p = .ok (id, s')) : Reachable s'
  | wait {s : Session} (reachable : Reachable s) (id : RunId) : Reachable (s.wait id).2

/-- The run under way and those that are over have numbers below the next one. -/
structure Numbered (s : Session) : Prop where
  flight : ∀ f, s.flight = some f → f.id < s.next
  ended : ∀ e ∈ s.ended, e.1 < s.next

variable {s s' : Session} {id : RunId}

/-! ### Letting a run go on -/

/-- What a run under way acts on. -/
def stage (s : Session) (f : Flight) : Performance :=
  ⟨f.id, f.cancelled, f.tally, f.wake, s.channel, s.events⟩

/-- The report of a run. -/
def reportOf (result : Except DurationFault Outcome) (tally : Tally) : Except DurationFault Report :=
  result.map (⟨·, tally⟩)

/-- What someone who waits for a run is told. -/
def answerOf (result : Except DurationFault Outcome) (tally : Tally) : Except RunError Report :=
  (reportOf result tally).mapError .failed

/-- The session once the run under way has gone as far as `out`. -/
def resumed (s : Session) (f : Flight) (out : Performance × Halt) : Session :=
  let s := { s with channel := out.1.channel, events := out.1.events, now := out.1.now }
  match out.2 with
  | .ended outcome => s.finish f.id (.ok ⟨outcome, out.1.tally⟩)
  | .failed fault => s.finish f.id (.error fault)
  | .waiting wake rest =>
    { s with flight := some ⟨f.id, wake, rest, out.1.cancelled, out.1.tally⟩ }

theorem runUntil_idle (h : s.flight = none) (horizon : Option Nat) : s.runUntil horizon = s := by
  rw [runUntil, h]

theorem runUntil_eq {f : Flight} (h : s.flight = some f) (horizon : Option Nat) :
    s.runUntil horizon = if horizon.all (f.wake ≤ ·) then
      s.resumed f (play horizon (f.rest ()) (s.stage f)) else s := by
  rw [runUntil, h]
  rfl

section Finish

variable (s) (id : RunId) (result : Except DurationFault Report)

@[simp] theorem flight_finish : (s.finish id result).flight = none := by
  rcases result with fault | report <;> rfl

@[simp] theorem ended_finish : (s.finish id result).ended = (id, result) :: s.ended := by
  rcases result with fault | report <;> rfl

@[simp] theorem next_finish : (s.finish id result).next = s.next := by
  rcases result with fault | report <;> rfl

@[simp] theorem channel_finish : (s.finish id result).channel = s.channel := by
  rcases result with fault | report <;> rfl

@[simp] theorem now_finish : (s.finish id result).now = s.now := by
  rcases result with fault | report <;> rfl

end Finish

theorem resumed_eq_finish (s : Session) (f : Flight) (q : Performance)
    (result : Except DurationFault Outcome) : s.resumed f (q, .ofResult result) =
      Session.finish { s with channel := q.channel, events := q.events, now := q.now } f.id
        (reportOf result q.tally) := by
  rcases result with fault | outcome <;> rfl

/-! ### Numbers -/

theorem Numbered.finish (h : s.Numbered) (hid : id < s.next)
    (result : Except DurationFault Report) : (s.finish id result).Numbered := by
  refine ⟨fun f hf => ?_, fun e he => ?_⟩
  · rw [flight_finish] at hf
    cases hf
  · rw [ended_finish] at he
    rw [next_finish]
    rcases List.mem_cons.mp he with rfl | he
    · exact hid
    · exact h.ended e he

theorem Numbered.resumed (h : s.Numbered) {f : Flight} (hf : s.flight = some f)
    (out : Performance × Halt) : (s.resumed f out).Numbered := by
  have hs : Numbered { s with channel := out.1.channel, events := out.1.events, now := out.1.now } :=
    ⟨h.flight, h.ended⟩
  unfold Session.resumed
  rcases out.2 with outcome | fault | ⟨wake, rest⟩
  · exact hs.finish (h.flight f hf) _
  · exact hs.finish (h.flight f hf) _
  · refine ⟨fun g hg => ?_, h.ended⟩
    cases hg
    exact h.flight f hf

theorem Numbered.runUntil (h : s.Numbered) (horizon : Option Nat) :
    (s.runUntil horizon).Numbered := by
  rcases hf : s.flight with _ | f
  · rwa [runUntil_idle hf]
  · rw [runUntil_eq hf]
    split_ifs
    · exact h.resumed hf _
    · exact h

theorem Numbered.after (h : s.Numbered) (e : SessionEvent) : (s.after e).Numbered := by
  cases e with
  | advance millis =>
    have hrun := h.runUntil (some (s.now + millis))
    change (s.advance millis).Numbered
    unfold Session.advance
    simp only
    split_ifs
    · exact h
    · exact ⟨hrun.flight, hrun.ended⟩
  | cancel id =>
    refine ⟨fun f hf => ?_, h.ended⟩
    obtain ⟨g, hg, rfl⟩ := Option.map_eq_some_iff.mp hf
    exact h.flight g hg
  | cancelAfter id count => exact ⟨h.flight, h.ended⟩
  | setConnected connected => exact ⟨h.flight, h.ended⟩
  | disconnectAfter count => exact ⟨h.flight, h.ended⟩

theorem start_of_connected (hstate : s.state ≠ .running) (hchannel : s.channel.connected = true)
    (p : Program) : ∃ s', s.start p = .ok (s.next, s') := by
  unfold Session.start
  rw [if_neg hstate, hchannel]
  exact ⟨_, rfl⟩

theorem start_eq_ok {p : Program} (h : s.start p = .ok (id, s')) :
    id = s.next ∧ s'.next = s.next + 1 ∧ s'.ended = s.ended ∧ s'.channel = s.channel ∧
      s'.flight = some
        { id := s.next, wake := s.now, rest := fun _ => s.timing.score p.toBlocks } := by
  unfold Session.start at h
  split_ifs at h
  obtain ⟨rfl, rfl⟩ := Prod.mk.inj (Except.ok.inj h)
  exact ⟨rfl, rfl, rfl, rfl, rfl⟩

/-- The session that waits for a run, once the run is over. -/
def awaited (s : Session) (id : RunId) : Session :=
  if s.isFinished id then s else s.runUntil none

theorem awaited_of_vacant (h : s.flight = none) (id : RunId) : s.awaited id = s := by
  rw [awaited, isFinished, h, Option.all_none, if_pos rfl]

/-- **Waiting for the run under way** lets it go on to its end. -/
theorem awaited_of_flight {f : Flight} (h : s.flight = some f) :
    s.awaited f.id = s.resumed f (play none (f.rest ()) (s.stage f)) := by
  have hgoing : s.isFinished f.id = false := by simp [isFinished, h]
  rw [awaited, hgoing, runUntil_eq h]
  rfl

theorem wait_eq (s : Session) (id : RunId) : s.wait id =
    let collected := { s.awaited id with ended := (s.awaited id).ended.filter (·.1 ≠ id) }
    match (s.awaited id).ended.lookup id with
    | some (.ok report) => (.ok report, collected)
    | some (.error fault) => (.error (.failed fault), { collected with state := .idle })
    | none => (.error .noRun, s.awaited id) := rfl

/-- What waiting for a run changes besides the state is that its report is collected. -/
theorem wait_snd (s : Session) (id : RunId) :
    (s.wait id).2.channel = (s.awaited id).channel ∧ (s.wait id).2.now = (s.awaited id).now ∧
    (s.wait id).2.flight = (s.awaited id).flight ∧ (s.wait id).2.next = (s.awaited id).next ∧
    (s.wait id).2.ended ⊆ (s.awaited id).ended := by
  rw [wait_eq]
  rcases (s.awaited id).ended.lookup id with _ | ⟨fault | report⟩
  · exact ⟨rfl, rfl, rfl, rfl, List.Subset.refl _⟩
  · exact ⟨rfl, rfl, rfl, rfl, fun _ h => (List.mem_filter.mp h).1⟩
  · exact ⟨rfl, rfl, rfl, rfl, fun _ h => (List.mem_filter.mp h).1⟩

theorem Numbered.start (h : s.Numbered) {p : Program} (hs : s.start p = .ok (id, s')) :
    s'.Numbered := by
  obtain ⟨-, hnext, hended, -, hflight⟩ := start_eq_ok hs
  refine ⟨fun f hf => ?_, fun e he => ?_⟩
  · rw [hflight] at hf
    cases hf
    rw [hnext]
    exact Nat.lt_succ_self _
  · rw [hended] at he
    rw [hnext]
    exact Nat.lt_succ_of_lt (h.ended e he)

theorem Numbered.wait (h : s.Numbered) (id : RunId) : (s.wait id).2.Numbered := by
  have hawaited : (s.awaited id).Numbered := by
    unfold awaited
    split_ifs
    · exact h
    · exact h.runUntil none
  obtain ⟨-, -, hflight, hnext, hended⟩ := s.wait_snd id
  refine ⟨fun f hf => ?_, fun e he => ?_⟩
  · rw [hflight] at hf
    rw [hnext]
    exact hawaited.flight f hf
  · rw [hnext]
    exact hawaited.ended e (hended he)

/-- **No run has the number of the next one.** -/
theorem Reachable.numbered (h : s.Reachable) : s.Numbered := by
  induction h with
  | fresh timing channel => exact ⟨nofun, nofun⟩
  | after _ e ih => exact ih.after e
  | start _ started ih => exact ih.start started
  | wait _ id ih => exact ih.wait id

/-! ### Following a run -/

section Follow

variable (steps : List Step) (init : Performance)

/-- A run of the steps that began at `init` stands at the moment: it has not taken a step yet, or it
is over a wait. -/
def Paused (m : Moment) : Prop :=
  (m.1 = steps ∧ Undisturbed init m.2) ∨
  ∃ p q d, Undisturbed init p ∧ Course (steps, p) (.wait d :: m.1, q) ∧
    Undisturbed (q.waited d) m.2

/-- The session has the run under way. -/
structure Flies (s : Session) (f : Flight) : Prop where
  flight : s.flight = some f
  id : f.id = init.id
  ended : ∀ e ∈ s.ended, e.1 ≠ init.id
  paused : Paused steps init ((f.rest ()).toList, s.stage f)

/-- The session has the run among those that are over. -/
structure Landed (s : Session) (q : Performance) : Prop where
  flight : s.flight = none
  run : ∃ p result, Undisturbed init p ∧ Run (steps, p) q result ∧
    s.ended.lookup init.id = some (reportOf result q.tally)
  published : s.channel.published = q.channel.published

/-- The session follows the run: it is under way or over, and if `spared` holds nobody cancels it. -/
def Follows (spared : Prop) (s : Session) : Prop :=
  (∃ f, Flies steps init s f ∧ (spared → f.cancelled = false ∧ s.channel.Spares init.id)) ∨
  ∃ q, Landed steps init s q ∧ (spared → q.cancelled = false)

variable {steps init} {spared : Prop}

theorem Paused.disturb {m : Moment} (h : Paused steps init m) {p : Performance}
    (hp : Undisturbed m.2 p) : Paused steps init (m.1, p) := by
  rcases h with ⟨h1, h2⟩ | ⟨p', q, d, h1, h2, h3⟩
  · exact Or.inl ⟨h1, h2.trans hp⟩
  · exact Or.inr ⟨p', q, d, h1, h2, h3.trans hp⟩

theorem Paused.course {m : Moment} (h : Paused steps init m) :
    ∃ p, Undisturbed init p ∧ Course (steps, p) m := by
  obtain ⟨rest, p'⟩ := m
  rcases h with ⟨rfl, h2⟩ | ⟨p, q, d, h1, h2, h3⟩
  · exact ⟨p', h2, .refl⟩
  · exact ⟨p, h1, h2.tail (.wait h3)⟩

theorem Flies.disturb {s s' : Session} {f f' : Flight} (h : Flies steps init s f)
    (hflight : s'.flight = some f') (hid : f'.id = f.id) (hrest : f'.rest = f.rest)
    (hended : s'.ended = s.ended) (hstage : Undisturbed (s.stage f) (s'.stage f')) :
    Flies steps init s' f' := by
  refine ⟨hflight, hid.trans h.id, fun e he => h.ended e (hended ▸ he), ?_⟩
  rw [hrest]
  exact h.paused.disturb hstage

theorem spared_play (horizon : Option Nat) (steps : LazyList Step) {p : Performance}
    (hc : p.cancelled = false) (hs : p.channel.Spares p.id) :
    (play horizon steps p).1.cancelled = false ∧
      (play horizon steps p).1.channel.Spares p.id := by
  induction steps generalizing p with
  | nil => exact ⟨hc, hs⟩
  | cons step rest ih =>
    unfold play
    cases step with
    | checkpoint =>
      simp only [hc, Bool.false_eq_true, if_false]
      exact ih () hc hs
    | publish c =>
      have hchannel : (p.send c).channel.Spares (p.send c).id := by
        rw [id_send, channel_send]
        exact hs
      have hcancels : (p.channel.publish p.now c).cancels p.id = false := by
        unfold Channel.cancels Channel.publish
        rcases ha : p.channel.cancelAfter with _ | ⟨n, target⟩
        · rfl
        · have hne : target ≠ p.id := fun h => hs n (by rw [ha, h])
          simp [hne]
      have hgo := ih () (p := p.send c) (by rw [cancelled_send, hc, hcancels]; rfl) hchannel
      rwa [id_send] at hgo
    | wait d =>
      simp only
      split_ifs
      · exact ih () (p := { p with now := p.now + d.millisUp }) hc hs
      · exact ⟨hc, hs⟩
    | note n => exact ih () (p := p.tell (.noted n)) hc hs
    | interlock => exact ih () (p := p.countInterlock) hc hs
    | done => exact ih () (p := p.countLeaf) hc hs
    | fail fault => exact ⟨hc, hs⟩

/-- **A run that goes on is over or stands at its next wait.** -/
theorem follows_resumed {s : Session} {f : Flight} (h : Flies steps init s f)
    (hspared : spared → f.cancelled = false ∧ s.channel.Spares init.id) (horizon : Option Nat) :
    Follows steps init spared (s.resumed f (play horizon (f.rest ()) (s.stage f))) ∧
    (horizon = none →
      ∃ q, Landed steps init (s.resumed f (play horizon (f.rest ()) (s.stage f))) q ∧
        (s.resumed f (play horizon (f.rest ()) (s.stage f))).now = q.now ∧
        (spared → q.cancelled = false)) := by
  obtain ⟨p, hp, hcourse⟩ := h.paused.course
  have hcomes := comes_play horizon (f.rest ()) (s.stage f)
  have hquiet : spared → (play horizon (f.rest ()) (s.stage f)).1.cancelled = false ∧
      (play horizon (f.rest ()) (s.stage f)).1.channel.Spares init.id := by
    intro hs
    have hid : init.id = (s.stage f).id := h.id.symm
    have hsp := (hspared hs).2
    rw [hid] at hsp ⊢
    exact spared_play horizon (f.rest ()) (hspared hs).1 hsp
  generalize play horizon (f.rest ()) (s.stage f) = out at hcomes hquiet ⊢
  obtain ⟨q, halt⟩ := out
  rcases hcomes with ⟨result, hhalt, hrun⟩ | ⟨d, rest, hhalt, hhorizon, hto⟩
  · obtain rfl : halt = .ofResult result := hhalt
    have hnow : (s.resumed f (q, .ofResult result)).now = q.now := by
      rw [resumed_eq_finish, now_finish]
    have hlanded : Landed steps init (s.resumed f (q, .ofResult result)) q := by
      rw [resumed_eq_finish]
      refine ⟨flight_finish _ _ _, ⟨p, result, hp, hcourse.run hrun, ?_⟩, ?_⟩
      · rw [ended_finish, h.id, List.lookup_cons_self]
      · rw [channel_finish]
    exact ⟨Or.inr ⟨q, hlanded, fun hs => (hquiet hs).1⟩,
      fun _ => ⟨q, hlanded, hnow, fun hs => (hquiet hs).1⟩⟩
  · -- the time at which the session resumes the run is the one at which the wait is over
    obtain rfl : halt = .waiting (q.waited d).now rest := hhalt
    refine ⟨Or.inl ⟨_, ⟨rfl, h.id, h.ended, ?_⟩, hquiet⟩, fun hnone => absurd hnone hhorizon⟩
    obtain ⟨_, -, heffect, -⟩ := hto.effect
    have hid : q.id = f.id := heffect.id
    have hstage : Undisturbed (q.waited d) ((s.resumed f (q, .waiting (q.waited d).now rest)).stage
        ⟨f.id, (q.waited d).now, rest, q.cancelled, q.tally⟩) := by
      refine ⟨?_, ?_, ?_, ?_, fun hc => ?_⟩
      · rw [Performance.id_waited, hid]
        rfl
      · rw [Performance.tally_waited]
        rfl
      · rfl
      · rw [Performance.channel_waited]
        rfl
      · rwa [Performance.cancelled_waited] at hc
    exact Or.inr ⟨p, q, d, hp, hcourse.trans hto, hstage⟩

/-- What changes nothing of the runs of a session and nothing that its channel has recorded. -/
theorem Follows.of_same {s s' : Session} (h : Follows steps init spared s)
    (hflight : s'.flight = s.flight) (hended : s'.ended = s.ended)
    (hpublished : s'.channel.published = s.channel.published)
    (hspares : spared → s.channel.Spares init.id → s'.channel.Spares init.id) :
    Follows steps init spared s' := by
  rcases h with ⟨f, hflies, hspared⟩ | ⟨q, ⟨hnone, hrun, hrecord⟩, hspared⟩
  · have hstage : Undisturbed (s.stage f) (s'.stage f) := ⟨rfl, rfl, rfl, hpublished, fun h => h⟩
    exact Or.inl ⟨f, hflies.disturb (hflight.trans hflies.flight) rfl rfl hended hstage,
      fun hs => ⟨(hspared hs).1, hspares hs (hspared hs).2⟩⟩
  · refine Or.inr ⟨q, ⟨hflight.trans hnone, ?_, ?_⟩, hspared⟩
    · rwa [hended]
    · rwa [hpublished]

theorem Follows.runUntil {s : Session} (h : Follows steps init spared s)
    (horizon : Option Nat) : Follows steps init spared (s.runUntil horizon) := by
  rcases h with ⟨f, hflies, hspared⟩ | ⟨q, hlanded, hspared⟩
  · rw [runUntil_eq hflies.flight]
    split_ifs
    · exact (follows_resumed hflies hspared horizon).1
    · exact Or.inl ⟨f, hflies, hspared⟩
  · rw [runUntil_idle hlanded.flight]
    exact Or.inr ⟨q, hlanded, hspared⟩

theorem Flies.cancel {s : Session} {f : Flight} (h : Flies steps init s f) (id : RunId) :
    Flies steps init (s.cancel id) { f with cancelled := f.cancelled || f.id = id } := by
  refine h.disturb ?_ rfl rfl rfl ⟨rfl, rfl, rfl, rfl, fun hc => by simp_all [stage]⟩
  rw [Session.cancel, h.flight]
  rfl

theorem Follows.cancel {s : Session} (h : Follows steps init spared s) {id : RunId}
    (hid : spared → id ≠ init.id) : Follows steps init spared (s.cancel id) := by
  rcases h with ⟨f, hflies, hspared⟩ | ⟨q, ⟨hnone, hrun, hrecord⟩, hspared⟩
  · refine Or.inl ⟨_, hflies.cancel id, fun hs => ⟨?_, (hspared hs).2⟩⟩
    have hne : ¬ f.id = id := fun h => hid hs (h ▸ hflies.id)
    simp [(hspared hs).1, hne]
  · refine Or.inr ⟨q, ⟨?_, hrun, hrecord⟩, hspared⟩
    rw [Session.cancel, hnone]
    rfl

/-- **Whatever happens to a session, it follows its run.** -/
theorem Follows.after {s : Session} (h : Follows steps init spared s) {e : SessionEvent}
    (he : spared → ¬ e.Cancels init.id) : Follows steps init spared (s.after e) := by
  cases e with
  | advance millis =>
    change Follows steps init spared (s.advance millis)
    unfold Session.advance
    simp only
    split_ifs
    · exact h
    · exact (h.runUntil _).of_same rfl rfl rfl fun _ hs => hs
  | cancel id => exact h.cancel fun hs hid => he hs (Or.inl (hid ▸ rfl))
  | cancelAfter id count =>
    refine h.of_same rfl rfl rfl fun hs _ n hn => he hs (Or.inr ⟨count, ?_⟩)
    have hn : some (count, id) = some (n, init.id) := hn
    cases hn
    rfl
  | setConnected connected => exact h.of_same rfl rfl rfl fun _ hs => hs
  | disconnectAfter count => exact h.of_same rfl rfl rfl fun _ hs => hs

theorem Follows.foldl {s : Session} (h : Follows steps init spared s)
    (events : List SessionEvent) (he : spared → ∀ e ∈ events, ¬ e.Cancels init.id) :
    Follows steps init spared (events.foldl Session.after s) := by
  induction events generalizing s with
  | nil => exact h
  | cons e events ih =>
    exact ih (h.after fun hs => he hs e List.mem_cons_self)
      fun hs e' he' => he hs e' (List.mem_cons_of_mem _ he')

/-- A session that waits for its run has it among those that are over. If the run was not over
before, then the clock shows when it ended. -/
theorem Follows.awaited {s : Session} (h : Follows steps init spared s) :
    ∃ q, Landed steps init (s.awaited init.id) q ∧
      (s.isFinished init.id = false → (s.awaited init.id).now = q.now) ∧
      (spared → q.cancelled = false) := by
  rcases h with ⟨f, hflies, hspared⟩ | ⟨q, hlanded, hspared⟩
  · obtain ⟨q, hlanded, hnow, hspared⟩ := (follows_resumed hflies hspared none).2 rfl
    rw [← hflies.id, awaited_of_flight hflies.flight]
    exact ⟨q, hlanded, fun _ => hnow, hspared⟩
  · rw [awaited_of_vacant hlanded.flight, isFinished, hlanded.flight]
    exact ⟨q, hlanded, nofun, hspared⟩

theorem Follows.wait {s : Session} (h : Follows steps init spared s) :
    ∃ p q result, Undisturbed init p ∧ Run (steps, p) q result ∧
      (s.wait init.id).1 = answerOf result q.tally ∧
      (s.wait init.id).2.channel.published = q.channel.published ∧
      (s.isFinished init.id = false → (s.wait init.id).2.now = q.now) ∧
      (spared → q.cancelled = false) := by
  obtain ⟨q, ⟨-, ⟨p, result, hp, hrun, hreport⟩, hrecord⟩, hnow, hspared⟩ := h.awaited
  refine ⟨p, q, result, hp, hrun, ?_, ?_, fun hgoing => ?_, hspared⟩
  · rw [wait_eq, hreport]
    rcases result with fault | outcome <;> rfl
  · rw [(wait_snd _ _).1]
    exact hrecord
  · rw [(wait_snd _ _).2.1]
    exact hnow hgoing

theorem Flies.resume {s : Session} {f : Flight} (h : Flies steps init s f) :
    Flies (f.rest ()).toList (s.stage f) s f := by
  refine ⟨h.flight, rfl, fun e he => ?_, Or.inl ⟨rfl, .refl _⟩⟩
  change e.1 ≠ f.id
  rw [h.id]
  exact h.ended e he

end Follow

theorem follows_start (h : s.Reachable) {p : Program} (hs : s.start p = .ok (id, s')) {spared : Prop}
    (hspared : spared → s.channel.Spares id) :
    ∃ init : Performance, init.id = id ∧ init.tally = {} ∧ init.now = s.now ∧
      init.channel = s.channel ∧
      Follows (s.timing.stepsOf none (beatsOf p.toBlocks)) init spared s' := by
  obtain ⟨rfl, -, hended, hchannel, hflight⟩ := start_eq_ok hs
  refine ⟨s'.stage { id := s.next, wake := s.now, rest := fun _ => s.timing.score p.toBlocks },
    rfl, rfl, rfl, hchannel, Or.inl ⟨_, ⟨hflight, rfl, fun e he => ?_, Or.inl ⟨Timing.toList_score _ _,
      .refl _⟩⟩, fun hsp => ⟨rfl, ?_⟩⟩⟩
  · rw [hended] at he
    exact Nat.ne_of_lt (h.numbered.ended e he)
  · rw [hchannel]
    exact hspared hsp

/-- **A run in a session is a run among others.** Whatever happens to the session between the start
of a run and the wait for it, the report is that of a run of the program from where the clock and the
channel stood; if it is not over when someone begins to wait, then the clock shows when it ended.
Nothing cancels it that is not meant for it. -/
theorem run_after (h : s.Reachable) {p : Program} (hs : s.start p = .ok (id, s'))
    (events : List SessionEvent) :
    ∃ m q result, m.tally = {} ∧ m.now = s.now ∧ m.channel.published = s.channel.published ∧
      Run (s.timing.stepsOf none (beatsOf p.toBlocks), m) q result ∧
      ((events.foldl Session.after s').wait id).1 = answerOf result q.tally ∧
      ((events.foldl Session.after s').wait id).2.channel.published = q.channel.published ∧
      ((events.foldl Session.after s').isFinished id = false →
        ((events.foldl Session.after s').wait id).2.now = q.now) ∧
      (s.channel.Spares id → (∀ e ∈ events, ¬ e.Cancels id) → q.cancelled = false) := by
  have hleft : (s.channel.Spares id ∧ ∀ e ∈ events, ¬ e.Cancels id) → s.channel.Spares id := And.left
  obtain ⟨init, rfl, htally, hnow, hchannel, hfollows⟩ := follows_start h hs hleft
  obtain ⟨m, q, result, hm, hrun, hreport, hrecord, hend, hspared⟩ :=
    (hfollows.foldl events And.right).wait
  refine ⟨m, q, result, hm.tally.trans htally, hm.now.trans hnow, ?_, hrun, hreport, hrecord, hend,
    fun h1 h2 => hspared ⟨h1, h2⟩⟩
  rw [hm.published, hchannel]

theorem wait_after (h : s.Reachable) {p : Program} (hs : s.start p = .ok (id, s'))
    (events : List SessionEvent) :
    ∃ m q result, m.tally = {} ∧ m.channel.commands = s.channel.commands ∧
      Run (s.timing.stepsOf none (beatsOf p.toBlocks), m) q result ∧
      ((events.foldl Session.after s').wait id).1 = answerOf result q.tally ∧
      ((events.foldl Session.after s').wait id).2.channel.commands = q.channel.commands ∧
      (s.channel.Spares id → (∀ e ∈ events, ¬ e.Cancels id) → q.cancelled = false) := by
  obtain ⟨m, q, result, htally, -, hstart, hrun, hreport, hrecord, -, hspared⟩ :=
    run_after h hs events
  refine ⟨m, q, result, htally, ?_, hrun, hreport, ?_, hspared⟩
  · rw [Channel.commands, hstart]
    rfl
  · rw [Channel.commands, hrecord]
    rfl

/-- **A run that is cancelled goes on from where it stands**, as one that is cancelled. The wait that
it is in, if there is one, lasts as long as it would have otherwise. -/
theorem run_after_cancel (h : s.Reachable) {p : Program} (hs : s.start p = .ok (id, s'))
    (before later : List SessionEvent) {f : Flight}
    (hf : (before.foldl Session.after s').flight = some f) :
    ∃ m m' q result, Course (s.timing.stepsOf none (beatsOf p.toBlocks), m)
        ((f.rest ()).toList, m') ∧ m'.tally = f.tally ∧ m'.now = f.wake ∧ m'.cancelled = true ∧
      Run ((f.rest ()).toList, m') q result ∧
      ((later.foldl Session.after ((before.foldl Session.after s').cancel id)).wait id).1 =
        answerOf result q.tally ∧
      ((later.foldl Session.after ((before.foldl Session.after s').cancel id)).isFinished id = false →
        ((later.foldl Session.after ((before.foldl Session.after s').cancel id)).wait id).2.now =
          q.now) := by
  obtain ⟨init, rfl, -, -, -, hfollows⟩ := follows_start h hs False.elim
  rcases hfollows.foldl before False.elim with ⟨g, hg, -⟩ | ⟨q, hlanded, -⟩
  · obtain rfl : g = f := Option.some.inj (hg.flight.symm.trans hf)
    have hcancelled := hg.cancel init.id
    obtain ⟨m', q, result, hm', hrun, hreport, -, hend, -⟩ :=
      (Follows.foldl (Or.inl ⟨_, hcancelled.resume, False.elim⟩) later False.elim).wait
    obtain ⟨m, -, hcourse⟩ := (hcancelled.paused.disturb hm').course
    have hid : (stage ((before.foldl Session.after s').cancel init.id)
        { g with cancelled := g.cancelled || g.id = init.id }).id = init.id := hg.id
    rw [hid] at hreport hend
    refine ⟨m, m', q, result, hcourse, hm'.tally, hm'.now, hm'.cancelled ?_, hrun, hreport, hend⟩
    simp [stage, hg.id]
  · rw [hlanded.flight] at hf
    cases hf

theorem wait_after_cancel (h : s.Reachable) {p : Program} (hs : s.start p = .ok (id, s'))
    (before later : List SessionEvent) {f : Flight}
    (hf : (before.foldl Session.after s').flight = some f) :
    ∃ m m' q result, Course (s.timing.stepsOf none (beatsOf p.toBlocks), m)
        ((f.rest ()).toList, m') ∧ m'.tally = f.tally ∧ m'.cancelled = true ∧
      Run ((f.rest ()).toList, m') q result ∧
      ((later.foldl Session.after ((before.foldl Session.after s').cancel id)).wait id).1 =
        answerOf result q.tally := by
  obtain ⟨m, m', q, result, hcourse, htally, -, hcancelled, hrun, hreport, -⟩ :=
    run_after_cancel h hs before later hf
  exact ⟨m, m', q, result, hcourse, htally, hcancelled, hrun, hreport⟩

end Session

end Choreo
