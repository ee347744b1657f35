import Choreo.Proofs.Run.Sessions

/-! # What a connection changes

Whether the channel has a connection decides what a run counts as sent in vain and what it warns of,
and nothing else. `asConnected` is a performance, or a session, as it would be on a channel that
never loses its connection; everything that a run does and everything that happens to a session does
the same to it (`play_asConnected`, `Session.asConnected_foldl`). So two of them that are the same
but for their connections stay so. -/

namespace Choreo

/-! ### Performances -/

/-- The channel if it never loses its connection. -/
def Channel.asConnected (c : Channel) : Channel :=
  { c with connected := true, disconnectAfter := none }

/-- What is counted besides what is sent in vain. -/
def Tally.asConnected (t : Tally) : Tally := { t with whileDisconnected := 0 }

def Report.asConnected (r : Report) : Report := { r with tally := r.tally.asConnected }

/-- What is told of a run that never loses its connection: no warnings. -/
def RunEvent.asConnected? : RunEvent → Option RunEvent
  | .unconnected _ => none
  | .finished report => some (.finished report.asConnected)
  | e => some e

/-- What is told over time. -/
def toldAsConnected (events : Array (Nat × RunEvent)) : Array (Nat × RunEvent) :=
  events.filterMap fun told => told.2.asConnected?.map (told.1, ·)

/-- The performance on a channel that never loses its connection. -/
def Performance.asConnected (p : Performance) : Performance :=
  { p with
    channel := p.channel.asConnected
    tally := p.tally.asConnected
    events := toldAsConnected p.events }

theorem toldAsConnected_push {events : Array (Nat × RunEvent)} {time : Nat} {e e' : RunEvent}
    (h : e.asConnected? = some e') :
    toldAsConnected (events.push (time, e)) = (toldAsConnected events).push (time, e') := by
  simp [toldAsConnected, h]

theorem Performance.asConnected_tell {p : Performance} {e e' : RunEvent}
    (h : e.asConnected? = some e') : (p.tell e).asConnected = p.asConnected.tell e' := by
  simp [asConnected, tell, toldAsConnected_push h]

theorem Performance.asConnected_send (p : Performance) (c : Command) :
    (p.send c).asConnected = p.asConnected.send c := by
  obtain ⟨id, cancelled, tally, now, ⟨connected, published, cancelAfter, disconnectAfter⟩, events⟩ :=
    p
  cases connected <;>
    simp [send, tell, Channel.publish, Channel.cancels, Channel.count, asConnected,
      Channel.asConnected, Tally.asConnected, toldAsConnected, RunEvent.asConnected?]

/-- **Playing a run is the same on a channel that never loses its connection.** -/
theorem play_asConnected (horizon : Option Nat) (steps : LazyList Step) (p : Performance) :
    play horizon steps p.asConnected =
      ((play horizon steps p).1.asConnected, (play horizon steps p).2) := by
  induction steps generalizing p with
  | nil => rfl
  | cons step rest ih =>
    cases step with
    | checkpoint =>
      have hc : p.asConnected.cancelled = p.cancelled := rfl
      rw [play, play, hc]
      rcases p.cancelled with _ | _
      · exact ih () p
      · rfl
    | note n =>
      rw [play, play, ← Performance.asConnected_tell (e := .noted n) rfl]
      exact ih () (p.tell (.noted n))
    | interlock => exact ih () p.countInterlock
    | publish c =>
      rw [play, play, ← Performance.asConnected_send]
      exact ih () (p.send c)
    | done => exact ih () p.countLeaf
    | fail fault => rfl
    | wait d =>
      rw [play, play]
      have hnow : p.asConnected.now = p.now := rfl
      rw [hnow]
      split_ifs
      · exact ih () { p with now := p.now + d.millisUp }
      · rfl

/-- **Runs that differ in their connections only** come to the same. -/
theorem perform_congr (t : Timing) (blocks : List Block) {p p' : Performance}
    (h : p.asConnected = p'.asConnected) :
    (perform t blocks p).1.asConnected = (perform t blocks p').1.asConnected ∧
      (perform t blocks p).2 = (perform t blocks p').2 := by
  have hp := play_asConnected none (t.score blocks) p
  rw [h, play_asConnected none (t.score blocks) p'] at hp
  obtain ⟨hperformed, hhalt⟩ := Prod.mk.inj hp
  exact ⟨hperformed.symm, hhalt.symm⟩

/-! ### Sessions -/

def Flight.asConnected (f : Flight) : Flight := { f with tally := f.tally.asConnected }

/-- A run that is over, by its number. -/
def endedAsConnected (e : RunId × Except DurationFault Report) :
    RunId × Except DurationFault Report :=
  (e.1, e.2.map Report.asConnected)

/-- Whether an event is about the connection of the channel. -/
def SessionEvent.isLink : SessionEvent → Bool
  | .setConnected _ | .disconnectAfter _ => true
  | _ => false

namespace Session

variable {s s' : Session} {id : RunId}

/-- The session on a channel that never loses its connection. -/
def asConnected (s : Session) : Session :=
  { s with
    channel := s.channel.asConnected
    flight := s.flight.map Flight.asConnected
    ended := s.ended.map endedAsConnected
    events := toldAsConnected s.events }

theorem asConnected_tell (s : Session) {e e' : RunEvent} (h : e.asConnected? = some e') :
    (s.tell e).asConnected = s.asConnected.tell e' := by
  simp [asConnected, tell, toldAsConnected_push h]

theorem asConnected_finish (s : Session) (id : RunId) (result : Except DurationFault Report) :
    (s.finish id result).asConnected = s.asConnected.finish id (result.map Report.asConnected) := by
  rcases result with fault | ⟨outcome, tally⟩
  · rfl
  · simp [finish, tell, asConnected, toldAsConnected, RunEvent.asConnected?, endedAsConnected,
      Report.asConnected, Except.map]

theorem asConnected_resumed (s : Session) (f : Flight) (q : Performance) (halt : Halt) :
    (s.resumed f (q, halt)).asConnected =
      s.asConnected.resumed f.asConnected (q.asConnected, halt) := by
  rcases halt with outcome | fault | ⟨wake, rest⟩
  · exact asConnected_finish _ f.id (.ok ⟨outcome, q.tally⟩)
  · exact asConnected_finish _ f.id (.error fault)
  · rfl

theorem asConnected_runUntil (s : Session) (horizon : Option Nat) :
    (s.runUntil horizon).asConnected = s.asConnected.runUntil horizon := by
  rcases hf : s.flight with _ | f
  · rw [runUntil_idle hf, runUntil_idle (by rw [asConnected, hf]; rfl)]
  · have hf' : s.asConnected.flight = some f.asConnected := by rw [asConnected, hf]; rfl
    rw [runUntil_eq hf, runUntil_eq hf']
    have hplay := play_asConnected horizon (f.rest ()) (s.stage f)
    have hwake : f.asConnected.wake = f.wake := rfl
    rw [hwake]
    split_ifs
    · rw [asConnected_resumed]
      exact congrArg _ hplay.symm
    · rfl

theorem asConnected_advance (s : Session) (millis : Nat) :
    (s.advance millis).asConnected = s.asConnected.advance millis := by
  have hnow : s.asConnected.now = s.now := rfl
  unfold advance
  simp only [hnow, ← asConnected_runUntil]
  split_ifs <;> rfl

theorem asConnected_cancel (s : Session) (id : RunId) :
    (s.cancel id).asConnected = s.asConnected.cancel id := by
  have hflight : (s.flight.map fun f => { f with cancelled := f.cancelled || f.id = id }).map
      Flight.asConnected = (s.flight.map Flight.asConnected).map
        fun f => { f with cancelled := f.cancelled || f.id = id } := by
    cases s.flight <;> rfl
  calc (s.cancel id).asConnected
      = { (s.tell .cancelRequested).asConnected with
          flight := (s.flight.map fun f => { f with cancelled := f.cancelled || f.id = id }).map
            Flight.asConnected } := rfl
    _ = s.asConnected.cancel id := by
      rw [asConnected_tell s (e := .cancelRequested) rfl, hflight]
      rfl

/-- Events about the connection do nothing to a channel that never loses its own. -/
theorem asConnected_after (s : Session) (e : SessionEvent) :
    (s.after e).asConnected = if e.isLink then s.asConnected else s.asConnected.after e := by
  cases e with
  | advance millis => exact asConnected_advance s millis
  | cancel id => exact asConnected_cancel s id
  | cancelAfter id count => rfl
  | setConnected connected => rfl
  | disconnectAfter count => rfl

/-- **What happens to a session** is the same on a channel that never loses its connection, the
events about the connection left out. -/
theorem asConnected_foldl (s : Session) (events : List SessionEvent) :
    (events.foldl after s).asConnected =
      (events.filter (!·.isLink)).foldl after s.asConnected := by
  induction events generalizing s with
  | nil => rfl
  | cons e events ih =>
    rw [List.foldl_cons, ih, asConnected_after, List.filter_cons]
    cases e.isLink <;> rfl

theorem asConnected_start {p : Program} (h : s.start p = .ok (id, s')) :
    s.asConnected.start p = .ok (id, s'.asConnected) := by
  unfold start at h ⊢
  split_ifs at h with hstate hconnected
  obtain ⟨rfl, rfl⟩ := Prod.mk.inj (Except.ok.inj h)
  rw [if_neg (show ¬ s.asConnected.state = .running from hstate)]
  simp [asConnected, Channel.asConnected, tell, toldAsConnected, RunEvent.asConnected?,
    Flight.asConnected, Tally.asConnected]

theorem asConnected_awaited (s : Session) (id : RunId) :
    (s.awaited id).asConnected = s.asConnected.awaited id := by
  have hfinished : s.asConnected.isFinished id = s.isFinished id := by
    rw [isFinished, isFinished, asConnected]
    cases s.flight <;> rfl
  rw [awaited, awaited, hfinished, ← asConnected_runUntil]
  split_ifs <;> rfl

theorem lookup_endedAsConnected (ended : List (RunId × Except DurationFault Report)) (id : RunId) :
    (ended.map endedAsConnected).lookup id = (ended.lookup id).map (·.map Report.asConnected) := by
  induction ended with
  | nil => rfl
  | cons e ended ih =>
    rw [List.map_cons, List.lookup_cons, List.lookup_cons, ih]
    have hid : (endedAsConnected e).1 = e.1 := rfl
    rw [hid]
    cases id == e.1 <;> rfl

/-- **Waiting for a run** gives the same report on a channel that never loses its connection, but
for what was sent in vain. -/
theorem asConnected_wait (s : Session) (id : RunId) :
    s.asConnected.wait id =
      ((s.wait id).1.map Report.asConnected, (s.wait id).2.asConnected) := by
  have hlookup : (s.awaited id).asConnected.ended.lookup id =
      ((s.awaited id).ended.lookup id).map (·.map Report.asConnected) :=
    lookup_endedAsConnected _ id
  have hfilter : (s.awaited id).asConnected.ended.filter (·.1 ≠ id) =
      ((s.awaited id).ended.filter (·.1 ≠ id)).map endedAsConnected :=
    List.filter_map
  rw [wait_eq, wait_eq, ← asConnected_awaited, hlookup, hfilter]
  rcases (s.awaited id).ended.lookup id with _ | fault | report <;> rfl

/-- **Sessions that differ in their connections only**, from the start of a run on, report the same
of it. -/
theorem wait_congr {r r' : Session} {id' : RunId} {p : Program} (hs : s.start p = .ok (id, s'))
    (hr : r.start p = .ok (id', r')) (h : s.asConnected = r.asConnected) : id = id' ∧
      ∀ events others : List SessionEvent,
        events.filter (!·.isLink) = others.filter (!·.isLink) →
        ((events.foldl after s').wait id).1.map Report.asConnected =
          ((others.foldl after r').wait id).1.map Report.asConnected ∧
        ((events.foldl after s').wait id).2.asConnected =
          ((others.foldl after r').wait id).2.asConnected := by
  have hs' := asConnected_start hs
  rw [h, asConnected_start hr] at hs'
  obtain ⟨rfl, hstarted⟩ := Prod.mk.inj (Except.ok.inj hs')
  refine ⟨rfl, fun events others hevents => ?_⟩
  have hwait := asConnected_wait (events.foldl after s') id'
  rw [asConnected_foldl, ← hstarted, hevents, ← asConnected_foldl, asConnected_wait] at hwait
  obtain ⟨hreport, hsession⟩ := Prod.mk.inj hwait
  exact ⟨hreport.symm, hsession.symm⟩

end Session

end Choreo
