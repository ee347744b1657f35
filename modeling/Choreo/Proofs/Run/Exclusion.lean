import Choreo.Proofs.Run.Traffic

/-! # One run at a time

Of runs that could go on side by side there is never more than one, in whatever order requests,
steps, cancellations and collections come (`Traffic.one_run_at_a_time`). So nobody writes the state
while a run is under way but this run (`Traffic.Orderly.state_written`).

What happens to a session, one thing after the other, is one of these orders
(`Session.Reachable.spread`): playing a run up to a horizon is taking its steps, and waiting for it
is letting it come to its end and then collecting its report. -/

namespace Choreo

namespace Traffic

/-! ### Sessions are traffic -/

/-- What becomes of a run that went on after a step is what becomes of the run. -/
theorem resumed_resumed (hub : Session) (f : Flight) (q : Performance) (now : Nat)
    (rest : Unit → LazyList Step) (out : Performance × Halt) :
    spread ((spread (hub.resumed f ({ q with now }, .waiting q.now rest)) []).hub.resumed
      ⟨f.id, q.now, rest, q.cancelled, q.tally⟩ out) [] = spread (hub.resumed f out) [] := by
  obtain ⟨r, outcome | fault | ⟨wake, later⟩⟩ := out <;> rfl

theorem Reachable.took_step {hub : Session} {f : Flight} (h : Reachable ⟨hub, [f]⟩) :
    Reachable (spread (hub.resumed f (takeStep (f.rest ()) (hub.stage f))) []) := by
  have hstep := h.after (.step f.id)
  rwa [after_step rfl] at hstep

theorem Reachable.played {hub : Session} {f : Flight} (h : Reachable ⟨hub, [f]⟩)
    (horizon : Option Nat) :
    Reachable (spread (hub.resumed f (play horizon (f.rest ()) (hub.stage f))) []) := by
  generalize hsteps : f.rest () = steps
  induction steps generalizing hub f with
  | nil =>
    have hstep := h.took_step
    rw [hsteps] at hstep
    exact hstep
  | cons step rest ih =>
    have hstep := h.took_step
    rw [hsteps] at hstep
    rcases takeStep_cases (.cons step rest) (hub.stage f) with
      ⟨result, -, htake, hplay⟩ | ⟨_, _, q, hcons, hid, -, htake, hplay⟩
    · rwa [hplay horizon, ← htake]
    · cases hcons
      rcases hplay horizon with hp | hp
      · rw [htake] at hstep
        have hgo := ih () hstep rfl
        have hstage := hub.stage_resumed hid (hub.stage f).now rest
        rw [hp, ← resumed_resumed hub f q (hub.stage f).now rest]
        exact hstage ▸ hgo
      · rwa [hp]

theorem Reachable.runUntil {s : Session} (h : Reachable (spread s [])) (horizon : Option Nat) :
    Reachable (spread (s.runUntil horizon) []) := by
  rcases hf : s.flight with _ | f
  · rwa [Session.runUntil_idle hf]
  · rw [Session.runUntil_eq hf]
    split_ifs
    · have hsame : ∀ out, spread (Session.resumed { s with flight := none } f out) [] =
          spread (s.resumed f out) [] := by
        rintro ⟨q, outcome | fault | ⟨wake, rest⟩⟩ <;> rfl
      rw [spread, hf] at h
      have hplayed := h.played horizon
      rw [hsame] at hplayed
      exact hplayed
    · exact h

theorem spread_of_vacant {s : Session} (hvacant : s.flight = none) (flights : List Flight) :
    spread s flights = ⟨s, flights⟩ := by
  cases s
  cases hvacant
  rfl

theorem Reachable.cancel {s : Session} (h : Reachable (spread s [])) (id : RunId) :
    Reachable (spread (s.cancel id) []) := by
  have hcancel := h.after (.cancel id)
  obtain ⟨timing, channel, state, now, flight, ended, next, events⟩ := s
  rcases flight with _ | f <;> exact hcancel

theorem Reachable.start {s s' : Session} {p : Program} {id : RunId} (h : Reachable (spread s []))
    (started : s.start p = .ok (id, s')) : Reachable (spread s' []) := by
  have hstate : s.state ≠ .running := by
    intro hrunning
    rw [Session.start, if_pos hrunning] at started
    cases started
  have hnone : s.flight.toList ++ [] = [] := (h.orderly.phase.of_state hstate).1
  have hvacant : s.flight = none := by
    rcases hf : s.flight with _ | f
    · rfl
    · rw [hf] at hnone
      cases hnone
  have hrequest := h.after (.request p)
  rwa [spread_of_vacant hvacant, Traffic.after, started] at hrequest

/-- What someone who collects a report finds does not depend on another run. -/
theorem Reachable.collect {s : Session} (h : Reachable (spread s [])) {id : RunId}
    (hfinished : s.isFinished id = true) : Reachable (spread (s.wait id).2 []) := by
  have hcollect := h.after (.collect id)
  have hnone : (spread s []).flights.any (·.id = id) = false := by
    rcases hf : s.flight with _ | f
    · simp [spread, hf]
    · simpa [spread, hf, Session.isFinished] using hfinished
  rw [Traffic.after, hnone] at hcollect
  have hwait : (Session.wait { s with flight := none } id).2 =
      { (s.wait id).2 with flight := none } ∧ (s.wait id).2.flight = s.flight := by
    have hvacant : Session.isFinished { s with flight := none } id = true := rfl
    simp only [Session.wait, hfinished, hvacant, if_true]
    rcases s.ended.lookup id with _ | ⟨fault | report⟩ <;> exact ⟨rfl, rfl⟩
  rw [spread, hwait.2, ← hwait.1]
  exact hcollect

end Traffic

namespace Session

theorem flight_runUntil_none (s : Session) : (s.runUntil none).flight = none := by
  rcases hf : s.flight with _ | f
  · rw [runUntil_idle hf, hf]
  · rw [runUntil_eq hf]
    rcases comes_play none (f.rest ()) (s.stage f) with ⟨result, hend, -⟩ | ⟨-, -, -, hnone, -⟩
    · rw [Option.all_none, if_pos rfl, ← Prod.eta (play none (f.rest ()) (s.stage f)), hend]
      exact (s.resumed_ofResult f _ result).1
    · exact absurd rfl hnone

theorem isFinished_awaited (s : Session) (id : RunId) : (s.awaited id).isFinished id = true := by
  unfold awaited
  split_ifs with h
  · exact h
  · rw [isFinished, flight_runUntil_none]
    rfl

theorem wait_awaited (s : Session) (id : RunId) : (s.awaited id).wait id = s.wait id := by
  have hawaited : (s.awaited id).awaited id = s.awaited id := by
    rw [awaited, isFinished_awaited, if_pos rfl]
  rw [wait_eq, wait_eq, hawaited]

/-- **What happens to a session is traffic.** -/
theorem Reachable.spread {s : Session} (h : s.Reachable) :
    Traffic.Reachable (Traffic.spread s []) := by
  induction h with
  | fresh timing channel => exact .fresh timing channel
  | @after s _ e ih =>
    cases e with
    | advance millis =>
      change Traffic.Reachable (Traffic.spread (s.advance millis) [])
      unfold Session.advance
      split_ifs
      · exact ih
      · exact (ih.runUntil (some (s.now + millis))).after (.clock (s.now + millis))
    | cancel id => exact ih.cancel id
    | cancelAfter id count =>
      exact ih.after (.channel { s.channel with cancelAfter := some (count, id) })
    | setConnected connected => exact ih.after (.channel { s.channel with connected })
    | disconnectAfter count =>
      exact ih.after (.channel { s.channel with disconnectAfter := some count })
  | start _ started ih => exact ih.start started
  | @wait s _ id ih =>
    rw [← wait_awaited]
    refine Traffic.Reachable.collect ?_ (s.isFinished_awaited id)
    unfold awaited
    split_ifs
    · exact ih
    · exact ih.runUntil none

end Session

namespace Traffic

open Session (reportOf)

variable {t : Traffic}

/-! ### One run at a time -/

theorem Orderly.request_granted (h : t.Orderly) (hstate : t.hub.state ≠ .running)
    (hconnected : t.hub.channel.connected = true) (p : Program) :
    (t.after (.request p)).hub.state = .running ∧ ∃ f, (t.after (.request p)).flights = [f] ∧
      f.id = t.hub.next ∧ (f.rest ()).toList = t.hub.timing.stepsOf none (beatsOf p.toBlocks) := by
  rcases t.hub.start_cases p with ⟨hrunning, -⟩ | ⟨-, hdown, -⟩ | ⟨-, -, s, hs, hrunning⟩
  · exact absurd hrunning hstate
  · rw [hdown] at hconnected
    cases hconnected
  · obtain ⟨hflights, -⟩ := h.phase.of_state hstate
    obtain ⟨-, -, -, -, hflight⟩ := Session.start_eq_ok hs
    simp only [Traffic.after, hs, spread, hflight, hflights]
    exact ⟨hrunning, _, rfl, rfl, Timing.toList_score _ _⟩

/-- **Who writes the state.** A request that is granted does while nothing is open, the run under
way does at its end, and who collects a failure does while no run is under way. -/
theorem Orderly.state_written (h : t.Orderly) {e : TrafficEvent}
    (hwritten : (t.after e).hub.state ≠ t.hub.state) :
    (t.flights = [] ∧ t.hub.failures = [] ∧ ∃ p, e = .request p) ∨
    (∃ f, t.flights = [f] ∧ e = .step f.id) ∨
    (t.flights = [] ∧ ∃ id fault, (id, .error fault) ∈ t.hub.ended ∧ e = .collect id) := by
  cases e with
  | request p =>
    rcases t.hub.start_cases p with ⟨-, hs⟩ | ⟨-, -, hs⟩ | ⟨hstate, -⟩
    · exact absurd (congrArg (·.hub.state) (after_request_refused hs)) hwritten
    · exact absurd (congrArg (·.hub.state) (after_request_refused hs)) hwritten
    · obtain ⟨hflights, hfailures⟩ := h.phase.of_state hstate
      exact Or.inl ⟨hflights, hfailures, p, rfl⟩
  | step id =>
    rcases h.step_or id with hsame | ⟨f, rfl, hflights⟩
    · exact absurd (congrArg (·.hub.state) hsame) hwritten
    · exact Or.inr (Or.inl ⟨f, hflights, rfl⟩)
  | collect id =>
    rcases h.collect_cases id with ⟨-, hsame⟩ | ⟨report, -, -, hsame⟩ | ⟨fault, hmem, -, -⟩
    · exact absurd (congrArg (·.hub.state) hsame) hwritten
    · exact absurd (congrArg (·.hub.state) hsame) hwritten
    · obtain ⟨-, hflights, -⟩ := h.phase.of_failures (Session.mem_failures.mpr hmem)
      exact Or.inr (Or.inr ⟨hflights, id, fault, hmem, rfl⟩)
  | cancel id => exact absurd rfl hwritten
  | channel channel => exact absurd rfl hwritten
  | clock now => exact absurd rfl hwritten

/-- Someone who waits changes neither the channel nor what is under way. -/
theorem Orderly.collect_keeps (h : t.Orderly) (id : RunId) :
    (t.after (.collect id)).flights = t.flights ∧
      (t.after (.collect id)).hub.channel = t.hub.channel := by
  rcases h.collect_cases id with ⟨-, hsame⟩ | ⟨report, -, -, hsame⟩ | ⟨fault, -, -, hsame⟩ <;>
    rw [hsame] <;> exact ⟨rfl, rfl⟩

/-- **One run at a time.** In whatever order things happen, there is one run under way at most.

While the state is `running`, requests are refused because of that, whatever the channel is like;
otherwise they are refused if it is disconnected. A request that is refused changes nothing, and one
that is granted puts the only run under way. A run moves on step by step while the state is
`running`; at its end the state is `idle` if it has completed and `cancelled` if it was cancelled.
While a run is under way, waiting for any run leaves the state as it is, and no failure is left that
someone could collect. Nothing else writes the state.

What happens to a session is one such order. -/
theorem one_run_at_a_time (ht : t.Reachable) :
    t.flights.length ≤ 1 ∧
    (∀ p, (t.hub.state = .running → t.hub.start p = .error .alreadyRunning) ∧
      (t.hub.state ≠ .running → t.hub.channel.connected = false →
        t.hub.start p = .error .notConnected) ∧
      (∀ e, t.hub.start p = .error e → t.after (.request p) = t) ∧
      (t.hub.state ≠ .running → t.hub.channel.connected = true →
        (t.after (.request p)).hub.state = .running ∧
        ∃ f, (t.after (.request p)).flights = [f] ∧ f.id = t.hub.next ∧
          (f.rest ()).toList = t.hub.timing.stepsOf none (beatsOf p.toBlocks))) ∧
    (∀ f ∈ t.flights, t.hub.state = .running ∧
      ((∃ result, Ends ((f.rest ()).toList, t.hub.stage f) result ∧
          (t.after (.step f.id)).flights = [] ∧
          (t.after (.step f.id)).hub.ended = (f.id, reportOf result f.tally) :: t.hub.ended ∧
          (t.after (.step f.id)).hub.state = t.hub.stateLeft result) ∨
        ∃ f', (t.after (.step f.id)).flights = [f'] ∧ f'.id = f.id ∧
          Move ((f.rest ()).toList, t.hub.stage f)
            ((f'.rest ()).toList, (t.after (.step f.id)).hub.stage f') ∧
          (t.after (.step f.id)).hub.ended = t.hub.ended ∧
          (t.after (.step f.id)).hub.state = t.hub.state)) ∧
    (t.flights ≠ [] → t.hub.failures = [] ∧ ∀ id,
      (t.after (.collect id)).hub.state = t.hub.state ∧
      (t.after (.collect id)).flights = t.flights ∧
      (t.after (.collect id)).hub.channel = t.hub.channel) ∧
    (∀ e, (t.after e).hub.state ≠ t.hub.state →
      (t.flights = [] ∧ t.hub.failures = [] ∧ ∃ p, e = .request p) ∨
      (∃ f, t.flights = [f] ∧ e = .step f.id) ∨
      (t.flights = [] ∧ ∃ id fault, (id, .error fault) ∈ t.hub.ended ∧ e = .collect id)) ∧
    ∀ s : Session, s.Reachable → Reachable (spread s []) := by
  have h := ht.orderly
  refine ⟨h.phase.length_le, fun p => ⟨fun hstate => if_pos hstate, fun hstate hdown => ?_,
    fun e => after_request_refused, fun hstate hconnected => h.request_granted hstate hconnected p⟩,
    fun f hf => ⟨(h.phase.of_flights hf).1, h.step_cases hf⟩, fun hflights => ?_,
    fun e => h.state_written, fun s hs => hs.spread⟩
  · rcases t.hub.start_cases p with ⟨hrunning, -⟩ | ⟨-, -, hs⟩ | ⟨-, hconnected, -⟩
    · exact absurd hrunning hstate
    · exact hs
    · rw [hdown] at hconnected
      cases hconnected
  · obtain ⟨f, hf⟩ := List.exists_mem_of_ne_nil _ hflights
    refine ⟨(h.phase.of_flights hf).2.2, fun id => ⟨?_, h.collect_keeps id⟩⟩
    by_contra hwritten
    rcases h.state_written hwritten with ⟨hnil, -⟩ | ⟨g, -, hstep⟩ | ⟨hnil, -⟩
    · exact hflights hnil
    · cases hstep
    · exact hflights hnil

/-- A second request is refused because of the first one, although the channel is down as well. -/
theorem second_request_refused :
    ∃ t : Traffic, t.Reachable ∧ t.flights.length = 1 ∧ t.hub.channel.connected = false ∧
      ∀ p, t.hub.start p = .error .alreadyRunning ∧ t.after (.request p) = t := by
  have ht := ((Reachable.fresh {} {}).after (.request (.ofBlocks [.ofKind .wave]))).after
    (.channel { connected := false })
  obtain ⟨-, hrequest, -⟩ := one_run_at_a_time ht
  refine ⟨_, ht, rfl, rfl, fun p => ?_⟩
  have hrefused := (hrequest p).1 rfl
  exact ⟨hrefused, (hrequest p).2.2.1 _ hrefused⟩

end Traffic

end Choreo
