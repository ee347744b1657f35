import Choreo.Proofs.Run.Exclusion

/-! # Failures that nobody collects

A run that completes or is cancelled writes the state at its end. A run that fails does not: the
state is written when someone collects the failure. Until then no run is under way, the state says
that one is, and every request is refused (`Traffic.Orderly.stranded`); if nobody ever waits for the
run that failed, that is how it stays. -/

namespace Choreo

namespace Traffic

variable {t : Traffic} {id : RunId} {fault : DurationFault}

theorem Orderly.failure_after (h : t.Orderly) (hfailed : (id, .error fault) ∈ t.hub.ended)
    {e : TrafficEvent} (he : e ≠ .collect id) : (id, .error fault) ∈ (t.after e).hub.ended := by
  obtain ⟨hstate, hflights, -⟩ := h.phase.of_failures (Session.mem_failures.mpr hfailed)
  have hkept : ∀ id', id' ≠ id →
      (id, .error fault) ∈ t.hub.ended.filter (·.1 ≠ id') := fun id' hid =>
    List.mem_filter.mpr ⟨hfailed, decide_eq_true hid.symm⟩
  cases e with
  | request p =>
    rwa [after_request_refused (e := .alreadyRunning) (if_pos hstate)]
  | step id' =>
    rcases h.step_or id' with hsame | ⟨f, -, hflying⟩
    · rwa [hsame]
    · rw [hflights] at hflying
      cases hflying
  | collect id' =>
    have hid : id' ≠ id := fun hid => he (hid ▸ rfl)
    rcases h.collect_cases id' with ⟨-, hsame⟩ | ⟨report, -, -, hsame⟩ | ⟨fault', -, -, hsame⟩
    · rwa [hsame]
    · rw [hsame]
      exact hkept id' hid
    · rw [hsame]
      exact hkept id' hid
  | cancel id' => exact hfailed
  | channel channel => exact hfailed
  | clock now => exact hfailed

theorem Orderly.foldl (h : t.Orderly) (events : List TrafficEvent) :
    (events.foldl Traffic.after t).Orderly := by
  induction events generalizing t with
  | nil => exact h
  | cons e events ih => exact ih (h.after e)

theorem Orderly.failure_foldl (h : t.Orderly) (hfailed : (id, .error fault) ∈ t.hub.ended)
    (events : List TrafficEvent) (hevents : .collect id ∉ events) :
    (id, .error fault) ∈ (events.foldl Traffic.after t).hub.ended := by
  induction events generalizing t with
  | nil => exact hfailed
  | cons e events ih =>
    rw [List.mem_cons, not_or] at hevents
    exact ih (h.after e) (h.failure_after hfailed (Ne.symm hevents.1)) hevents.2

theorem Orderly.stranded (h : t.Orderly) (hfailed : (id, .error fault) ∈ t.hub.ended) :
    t.flights = [] ∧ t.hub.state = .running ∧ ∀ p, t.hub.start p = .error .alreadyRunning := by
  obtain ⟨hstate, hflights, -⟩ := h.phase.of_failures (Session.mem_failures.mpr hfailed)
  exact ⟨hflights, hstate, fun p => if_pos hstate⟩

theorem Orderly.collect_failure (h : t.Orderly) (hfailed : (id, .error fault) ∈ t.hub.ended) :
    (t.hub.wait id).1 = .error (.failed fault) ∧ (t.after (.collect id)).hub.state = .idle ∧
      (t.after (.collect id)).flights = [] ∧ (t.after (.collect id)).hub.failures = [] := by
  have hlookup := h.lookup_eq_some_iff.mpr hfailed
  rcases h.collect_cases id with ⟨hnone, -⟩ | ⟨report, hmem, -, -⟩ | ⟨fault', hmem, hwait, hsame⟩
  · exact absurd hfailed (hnone _)
  · rw [h.lookup_eq_some_iff.mpr hmem] at hlookup
    cases hlookup
  · rw [h.lookup_eq_some_iff.mpr hmem] at hlookup
    cases hlookup
    have hstate : (t.after (.collect id)).hub.state = .idle := by rw [hsame]
    obtain ⟨hflights, hfailures⟩ := (h.collect id).phase.of_state (by rw [hstate]; exact nofun)
    exact ⟨hwait, hstate, hflights, hfailures⟩

/-- **What the state says.** It is `running` while a run is under way, and also while a run has
failed and nobody has collected its failure. Otherwise a run can be started if the channel is
connected.

A failure stays until someone collects it, and until then no run is under way and every request is
refused, whatever else happens. Who collects it is told the fault and makes way for further runs. -/
theorem failures_block_until_collected (ht : t.Reachable) :
    (t.hub.state = .running ↔ t.flights ≠ [] ∨ t.hub.failures ≠ []) ∧
    (t.flights = [] → t.hub.failures = [] → t.hub.channel.connected = true →
      ∀ p, ∃ s, t.hub.start p = .ok (t.hub.next, s)) ∧
    ∀ id fault, (id, .error fault) ∈ t.hub.ended →
      (∀ events : List TrafficEvent, .collect id ∉ events →
        (events.foldl Traffic.after t).flights = [] ∧
        (events.foldl Traffic.after t).hub.state = .running ∧
        ∀ p, (events.foldl Traffic.after t).hub.start p = .error .alreadyRunning) ∧
      (t.hub.wait id).1 = .error (.failed fault) ∧
      (t.after (.collect id)).hub.state = .idle ∧ (t.after (.collect id)).flights = [] ∧
      (t.after (.collect id)).hub.failures = [] := by
  have h := ht.orderly
  refine ⟨h.phase.running_iff, fun hflights hfailures hconnected p => ?_,
    fun id fault hfailed => ⟨fun events hevents => ?_, h.collect_failure hfailed⟩⟩
  · refine Session.start_of_connected (fun hstate => ?_) hconnected p
    rcases h.phase.running_iff.mp hstate with hne | hne
    · exact hne hflights
    · exact hne hfailures
  · exact (h.foldl events).stranded (h.failure_foldl hfailed events hevents)

end Traffic

namespace Session

/-! ### A turn that fails -/

/-- A timing of turns that would have to last less than no time. -/
def backwardTiming : Timing := { angularSpeed := -1.0 }

/-- A session in which a turn has failed and nobody has waited for it. -/
def failedTurn : Session :=
  match Session.start { timing := backwardTiming } (.ofBlocks [.ofKind .turnLeft]) with
  | .ok (_, s) => s.advance 10
  | .error _ => {}

theorem failedTurn_reachable : failedTurn.Reachable :=
  (Reachable.start (.fresh backwardTiming {}) rfl).after (.advance 10)

theorem ended_failedTurn : (0, .error .negative) ∈ failedTurn.ended := by
  have hfailures : failedTurn.failures = [(0, .negative)] := by decide +kernel
  exact mem_failures.mp (by rw [hfailures]; exact List.mem_cons_self)

/-- The turn blocks all further runs until someone waits for it. -/
theorem failed_turn_makes_way :
    ∃ t : Traffic, t.Reachable ∧ (0, .error .negative) ∈ t.hub.ended ∧
      (∀ events : List TrafficEvent, .collect 0 ∉ events →
        ∀ p, (events.foldl Traffic.after t).hub.start p = .error .alreadyRunning) ∧
      (t.hub.wait 0).1 = .error (.failed .negative) ∧
      (t.after (.collect 0)).hub.state = .idle := by
  have ht := failedTurn_reachable.spread
  obtain ⟨-, -, hfailed⟩ := Traffic.failures_block_until_collected ht
  obtain ⟨hblocked, hwait, hstate, -⟩ := hfailed 0 .negative ended_failedTurn
  exact ⟨_, ht, ended_failedTurn, fun events hevents => (hblocked events hevents).2.2, hwait,
    hstate⟩

/-- **A run that fails can leave the session unable to run.** Nothing is under way and the channel
is connected, but the state is `running` and every request is refused. -/
theorem failed_turn_refuses_requests :
    failedTurn.Reachable ∧ failedTurn.flight = none ∧ failedTurn.channel.connected = true ∧
      failedTurn.state = .running ∧ ∀ p, failedTurn.start p = .error .alreadyRunning := by
  have hflight : failedTurn.flight.isNone = true := by decide +kernel
  have hchannel : failedTurn.channel.connected = true := by decide +kernel
  have hstate : failedTurn.state = .running := by decide +kernel
  exact ⟨failedTurn_reachable, Option.isNone_iff_eq_none.mp hflight, hchannel, hstate,
    fun p => if_pos hstate⟩

end Session

end Choreo
