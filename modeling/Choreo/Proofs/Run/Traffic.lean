import Choreo.Proofs.Run.Sessions
import Mathlib.Data.List.Nodup

/-! # Runs that go on by themselves

A session has one place for a run under way, so it cannot hold two. Here runs have no place: once
it is started, a run goes on by itself and takes its steps when it likes, among requests for further
runs, cancellations, changes of the channel, and people who collect reports. Nobody has to wait for
a run. What keeps a second run away is only the state that `Session.start` looks at. It is written
when a run is started, when a run ends, which is when it leaves its report, and when someone
collects the failure of a run, who need not be the one who started the last run.

Whatever the order, there are three phases (`Traffic.Phase`): nothing is open, one run is under way,
or one run has failed and nobody has collected its failure. In the last two the state is `running`,
so no run can be started, and hence there is never more than one that could write the state
(`Traffic.Reachable.orderly`). -/

namespace Choreo

/-! ### One step of a run -/

/-- Takes one step. A run that goes on does so when the step is over. -/
def takeStep : LazyList Step → Performance → Performance × Halt
  | .nil, p => (p, .ended .completed)
  | .cons step rest, p =>
    match play none (.cons step fun _ => .nil) p with
    | (q, .ended .completed) => ({ q with now := p.now }, .waiting q.now rest)
    | out => out

/-- **A step ends the run or moves it on.** A run that is played ends in the same way, or it goes on
from there unless the step lasts beyond the horizon. -/
theorem takeStep_cases (steps : LazyList Step) (p : Performance) :
    (∃ result, Ends (steps.toList, p) result ∧ takeStep steps p = (p, .ofResult result) ∧
      ∀ horizon, play horizon steps p = (p, .ofResult result)) ∨
    ∃ step rest q, steps = .cons step rest ∧ q.id = p.id ∧
      Move (steps.toList, p) ((rest ()).toList, q) ∧
      takeStep steps p = ({ q with now := p.now }, .waiting q.now rest) ∧
      ∀ horizon, play horizon steps p = play horizon (rest ()) q ∨
        play horizon steps p = takeStep steps p := by
  rcases steps with _ | ⟨step, rest⟩
  · exact Or.inl ⟨.ok .completed, .completed, rfl, fun _ => rfl⟩
  cases step with
  | checkpoint =>
    rcases hc : p.cancelled with _ | _
    · refine Or.inr ⟨_, rest, p, rfl, rfl, .checkpoint hc, ?_, fun _ => Or.inl ?_⟩
      · simp [takeStep, play, hc]
      · simp [play, hc]
    · refine Or.inl ⟨.ok .cancelled, .cancelled hc, ?_, fun _ => ?_⟩
      · simp [takeStep, play, hc, Halt.ofResult]
      · simp [play, hc, Halt.ofResult]
  | note n => exact Or.inr ⟨_, rest, p.tell (.noted n), rfl, rfl, .note, rfl, fun _ => Or.inl rfl⟩
  | interlock =>
    exact Or.inr ⟨_, rest, p.countInterlock, rfl, rfl, .interlock, rfl, fun _ => Or.inl rfl⟩
  | publish c =>
    exact Or.inr ⟨_, rest, p.send c, rfl, id_send p c, .publish (.refl _), rfl,
      fun _ => Or.inl rfl⟩
  | wait d =>
    refine Or.inr ⟨_, rest, p.waited d, rfl, p.id_waited d, .wait (.refl _), rfl, fun horizon => ?_⟩
    rw [play]
    split_ifs
    · exact Or.inl rfl
    · exact Or.inr rfl
  | done => exact Or.inr ⟨_, rest, p.countLeaf, rfl, rfl, .done, rfl, fun _ => Or.inl rfl⟩
  | fail fault => exact Or.inl ⟨.error fault, .failed, rfl, fun _ => rfl⟩

/-! ### Traffic -/

/-- A session and runs that go on by themselves, as many as there may be. -/
structure Traffic where
  /-- The session, which has no run of its own under way. -/
  hub : Session
  flights : List Flight

/-- One thing that happens. -/
inductive TrafficEvent where
  /-- Someone asks for a run of a program. -/
  | request (p : Program)
  /-- A run takes its next step. -/
  | step (id : RunId)
  | cancel (id : RunId)
  /-- Someone who waits for a run collects its report, once there is one. -/
  | collect (id : RunId)
  /-- The channel is in another condition. -/
  | channel (channel : Channel)
  /-- The clock shows another time. -/
  | clock (now : Nat)

namespace Traffic

/-- The traffic in which the run that a session has under way goes on by itself. -/
def spread (s : Session) (others : List Flight) : Traffic :=
  ⟨{ s with flight := none }, s.flight.toList ++ others⟩

/-- The traffic after an event. A request that is refused, a step of a run that is over, and waiting
for a run under way change nothing. -/
def after (t : Traffic) : TrafficEvent → Traffic
  | .request p =>
    match t.hub.start p with
    | .ok (_, s) => spread s t.flights
    | .error _ => t
  | .step id =>
    match t.flights.find? (·.id = id) with
    | some f =>
      spread (t.hub.resumed f (takeStep (f.rest ()) (t.hub.stage f)))
        (t.flights.filter (·.id ≠ id))
    | none => t
  | .cancel id =>
    ⟨t.hub.cancel id,
      t.flights.map fun f => { f with cancelled := f.cancelled || f.id = id }⟩
  | .collect id =>
    if t.flights.any (·.id = id) then t else { t with hub := (t.hub.wait id).2 }
  | .channel channel => { t with hub := { t.hub with channel } }
  | .clock now => { t with hub := { t.hub with now } }

/-- The traffic that there can be. -/
inductive Reachable : Traffic → Prop where
  | fresh (timing : Timing) (channel : Channel) : Reachable ⟨{ timing, channel }, []⟩
  | after {t : Traffic} (reachable : Reachable t) (e : TrafficEvent) : Reachable (t.after e)

end Traffic

namespace Session

variable {s : Session} {id : RunId} {fault : DurationFault}

/-- The failure that is reported, if it is one. -/
def failureOf : RunId × Except DurationFault Report → Option (RunId × DurationFault)
  | (id, .error fault) => some (id, fault)
  | (_, .ok _) => none

/-- The runs that failed and whose failure nobody has collected. -/
def failures (s : Session) : List (RunId × DurationFault) := s.ended.filterMap failureOf

theorem mem_failures : (id, fault) ∈ s.failures ↔ (id, .error fault) ∈ s.ended := by
  rw [failures, List.mem_filterMap]
  constructor
  · rintro ⟨⟨id', fault' | report⟩, he, h⟩
    · cases h
      exact he
    · cases h
  · exact fun h => ⟨_, h, rfl⟩

theorem failures_filter (s : Session) (id : RunId) :
    failures { s with ended := s.ended.filter (·.1 ≠ id) } = s.failures.filter (·.1 ≠ id) := by
  rw [failures, failures, List.filterMap_filter, List.filter_filterMap]
  congr 1
  funext ⟨id', result⟩
  rcases result with fault | report <;> by_cases hid : id' = id <;>
    simp [failureOf, hid, Option.filter]

/-- Who asks for a run is told that there is one, or else that there is no connection. -/
theorem start_cases (s : Session) (p : Program) :
    (s.state = .running ∧ s.start p = .error .alreadyRunning) ∨
    (s.state ≠ .running ∧ s.channel.connected = false ∧ s.start p = .error .notConnected) ∨
    (s.state ≠ .running ∧ s.channel.connected = true ∧ ∃ s', s.start p = .ok (s.next, s') ∧
      s'.state = .running) := by
  by_cases hstate : s.state = .running
  · exact Or.inl ⟨hstate, if_pos hstate⟩
  · rcases hc : s.channel.connected with _ | _
    · refine Or.inr (Or.inl ⟨hstate, rfl, ?_⟩)
      rw [start, if_neg hstate, hc]
      rfl
    · refine Or.inr (Or.inr ⟨hstate, rfl, ?_⟩)
      rw [start, if_neg hstate, hc]
      exact ⟨_, rfl, rfl⟩

/-- What the state is once a run is over. -/
def stateLeft (s : Session) : Except DurationFault Outcome → RunState
  | .ok .completed => .idle
  | .ok .cancelled => .cancelled
  | .error _ => s.state

theorem resumed_ofResult (s : Session) (f : Flight) (q : Performance)
    (result : Except DurationFault Outcome) :
    (s.resumed f (q, .ofResult result)).flight = none ∧
    (s.resumed f (q, .ofResult result)).ended = (f.id, reportOf result q.tally) :: s.ended ∧
    (s.resumed f (q, .ofResult result)).state = s.stateLeft result := by
  rcases result with fault | _ | _ <;> exact ⟨rfl, rfl, rfl⟩

theorem stage_resumed (s : Session) {f : Flight} {q : Performance} (hid : q.id = f.id) (now : Nat)
    (rest : Unit → LazyList Step) :
    (s.resumed f ({ q with now }, .waiting q.now rest)).stage
      ⟨f.id, q.now, rest, q.cancelled, q.tally⟩ = q := by
  obtain ⟨id, cancelled, tally, now, channel, events⟩ := q
  obtain rfl : id = f.id := hid
  rfl

@[simp] theorem next_resumed (s : Session) (f : Flight) (out : Performance × Halt) :
    (s.resumed f out).next = s.next := by
  unfold resumed
  rcases out.2 with outcome | fault | ⟨wake, rest⟩
  · exact next_finish _ _ _
  · exact next_finish _ _ _
  · rfl

theorem wait_of_vacant (hvacant : s.flight = none) (id : RunId) :
    (s.ended.lookup id = none ∧ s.wait id = (.error .noRun, s)) ∨
    (∃ report, s.ended.lookup id = some (.ok report) ∧
      s.wait id = (.ok report, { s with ended := s.ended.filter (·.1 ≠ id) })) ∨
    ∃ fault, s.ended.lookup id = some (.error fault) ∧ s.wait id = (.error (.failed fault),
      { s with ended := s.ended.filter (·.1 ≠ id), state := .idle }) := by
  rw [wait_eq, awaited_of_vacant hvacant]
  rcases s.ended.lookup id with _ | ⟨fault | report⟩
  · exact Or.inl ⟨rfl, rfl⟩
  · exact Or.inr (Or.inr ⟨fault, rfl, rfl⟩)
  · exact Or.inr (Or.inl ⟨report, rfl, rfl⟩)

end Session

namespace Traffic

open Session (reportOf)

variable {t : Traffic}

/-! ### What holds of all traffic -/

/-- What is open, by the state, the runs under way, and the failures that nobody has collected:
nothing, one run, or one failure. -/
inductive Phase : RunState → List Flight → List (RunId × DurationFault) → Prop where
  | resting {state : RunState} (rests : state ≠ .running) : Phase state [] []
  | flying (f : Flight) : Phase .running [f] []
  | stranded (id : RunId) (fault : DurationFault) : Phase .running [] [(id, fault)]

namespace Phase

variable {state : RunState} {flights : List Flight} {failures : List (RunId × DurationFault)}

theorem of_flights (h : Phase state flights failures) {f : Flight} (hf : f ∈ flights) :
    state = .running ∧ flights = [f] ∧ failures = [] := by
  cases h with
  | resting => cases hf
  | flying g =>
    rw [List.mem_singleton] at hf
    subst hf
    exact ⟨rfl, rfl, rfl⟩
  | stranded => cases hf

theorem of_failures (h : Phase state flights failures) {id : RunId} {fault : DurationFault}
    (hf : (id, fault) ∈ failures) : state = .running ∧ flights = [] ∧ failures = [(id, fault)] := by
  cases h with
  | resting => cases hf
  | flying => cases hf
  | stranded id' fault' =>
    rw [List.mem_singleton] at hf
    cases hf
    exact ⟨rfl, rfl, rfl⟩

theorem of_state (h : Phase state flights failures) (hstate : state ≠ .running) :
    flights = [] ∧ failures = [] := by
  cases h with
  | resting => exact ⟨rfl, rfl⟩
  | flying => exact absurd rfl hstate
  | stranded => exact absurd rfl hstate

theorem map (h : Phase state flights failures) (change : Flight → Flight) :
    Phase state (flights.map change) failures := by
  cases h with
  | resting rests => exact .resting rests
  | flying f => exact .flying (change f)
  | stranded id fault => exact .stranded id fault

theorem length_le (h : Phase state flights failures) : flights.length ≤ 1 := by
  cases h <;> simp

theorem running_iff (h : Phase state flights failures) :
    state = .running ↔ flights ≠ [] ∨ failures ≠ [] := by
  cases h with
  | resting rests => simp [rests]
  | flying => simp
  | stranded => simp

end Phase

/-- The numbers of the runs that are under way or over. -/
def numbers (t : Traffic) : List RunId := t.flights.map Flight.id ++ t.hub.ended.map Prod.fst

/-- Runs have different numbers, below the next one, and the traffic is in one of its phases. -/
structure Orderly (t : Traffic) : Prop where
  vacant : t.hub.flight = none
  nodup : t.numbers.Nodup
  below : ∀ id ∈ t.numbers, id < t.hub.next
  phase : Phase t.hub.state t.flights t.hub.failures

theorem after_request_refused {p : Program} {e : RunError} (h : t.hub.start p = .error e) :
    t.after (.request p) = t := by
  rw [after, h]

theorem after_step {f : Flight} (h : t.flights = [f]) : t.after (.step f.id) =
    spread (t.hub.resumed f (takeStep (f.rest ()) (t.hub.stage f))) [] := by
  have hfind : t.flights.find? (·.id = f.id) = some f := by
    rw [h]
    simp
  have hothers : t.flights.filter (·.id ≠ f.id) = [] := by
    rw [h]
    simp
  simp only [after, hfind, hothers]

theorem Orderly.step_or (h : t.Orderly) (id : RunId) :
    t.after (.step id) = t ∨ ∃ f, f.id = id ∧ t.flights = [f] := by
  rcases hfind : t.flights.find? (·.id = id) with _ | f
  · refine Or.inl ?_
    simp only [after, hfind]
  · have hid : f.id = id := by simpa using List.find?_some hfind
    exact Or.inr ⟨f, hid, (h.phase.of_flights (List.mem_of_find?_eq_some hfind)).2.1⟩

theorem Orderly.of_sublist {u : Traffic} (h : t.Orderly) (hvacant : u.hub.flight = none)
    (hnumbers : u.numbers.Sublist t.numbers) (hnext : u.hub.next = t.hub.next)
    (hphase : Phase u.hub.state u.flights u.hub.failures) : u.Orderly := by
  refine ⟨hvacant, h.nodup.sublist hnumbers, fun id hid => ?_, hphase⟩
  rw [hnext]
  exact h.below id (hnumbers.subset hid)

theorem Orderly.request (h : t.Orderly) (p : Program) : (t.after (.request p)).Orderly := by
  rcases t.hub.start_cases p with ⟨-, hs⟩ | ⟨-, -, hs⟩ | ⟨hstate, -, s, hs, hrunning⟩
  · rwa [after_request_refused hs]
  · rwa [after_request_refused hs]
  obtain ⟨hflights, hfailures⟩ := h.phase.of_state hstate
  obtain ⟨-, hnext, hended, -, hflight⟩ := Session.start_eq_ok hs
  have hnumbers : (t.after (.request p)).numbers = t.hub.next :: t.numbers := by
    simp [after, hs, spread, numbers, hflight, hflights, hended]
  refine ⟨?_, ?_, fun id hid => ?_, ?_⟩
  · simp only [after, hs, spread]
  · rw [hnumbers, List.nodup_cons]
    exact ⟨fun hmem => Nat.lt_irrefl _ (h.below _ hmem), h.nodup⟩
  · have hlater : (t.after (.request p)).hub.next = t.hub.next + 1 := by
      simp only [after, hs, spread, hnext]
    rw [hnumbers, List.mem_cons] at hid
    rw [hlater]
    rcases hid with rfl | hid
    · exact Nat.lt_succ_self _
    · exact Nat.lt_succ_of_lt (h.below id hid)
  · have hend : s.failures = [] := by
      rw [Session.failures, hended]
      exact hfailures
    simp only [after, hs, spread, hflight, hflights, hrunning]
    exact hend ▸ Phase.flying _

/-- **The step of a run under way** is a move of the run, or it ends the run and leaves the state
accordingly. -/
theorem Orderly.step_cases (h : t.Orderly) {f : Flight} (hf : f ∈ t.flights) :
    (∃ result, Ends ((f.rest ()).toList, t.hub.stage f) result ∧
      (t.after (.step f.id)).flights = [] ∧
      (t.after (.step f.id)).hub.ended = (f.id, reportOf result f.tally) :: t.hub.ended ∧
      (t.after (.step f.id)).hub.state = t.hub.stateLeft result) ∨
    ∃ f', (t.after (.step f.id)).flights = [f'] ∧ f'.id = f.id ∧
      Move ((f.rest ()).toList, t.hub.stage f)
        ((f'.rest ()).toList, (t.after (.step f.id)).hub.stage f') ∧
      (t.after (.step f.id)).hub.ended = t.hub.ended ∧
      (t.after (.step f.id)).hub.state = t.hub.state := by
  rw [after_step (h.phase.of_flights hf).2.1]
  rcases takeStep_cases (f.rest ()) (t.hub.stage f) with
    ⟨result, hends, hstep, -⟩ | ⟨step, rest, q, -, hid, hmove, hstep, -⟩
  · rw [hstep]
    obtain ⟨hflight, hended, hstate⟩ := t.hub.resumed_ofResult f (t.hub.stage f) result
    refine Or.inl ⟨result, hends, ?_, hended, hstate⟩
    rw [spread, hflight]
    rfl
  · rw [hstep]
    refine Or.inr ⟨⟨f.id, q.now, rest, q.cancelled, q.tally⟩, rfl, rfl, ?_, rfl, rfl⟩
    rwa [← t.hub.stage_resumed hid (t.hub.stage f).now rest] at hmove

theorem Orderly.step (h : t.Orderly) (id : RunId) : (t.after (.step id)).Orderly := by
  rcases h.step_or id with hsame | ⟨f, rfl, hflights⟩
  · rwa [hsame]
  have hf : f ∈ t.flights := by rw [hflights]; exact List.mem_singleton_self f
  obtain ⟨hstate, -, hfailures⟩ := h.phase.of_flights hf
  have hvacant : (t.after (.step f.id)).hub.flight = none := by
    rw [after_step hflights]
    rfl
  have hnext : (t.after (.step f.id)).hub.next = t.hub.next := by
    rw [after_step hflights]
    exact t.hub.next_resumed f _
  rcases h.step_cases hf with
    ⟨result, -, hgone, hended, hleft⟩ | ⟨f', hgoes, hid, -, hended, hleft⟩
  · refine h.of_sublist hvacant ?_ hnext ?_
    · simp [numbers, hgone, hended, hflights]
    · rw [Session.failures, hended, hgone, hleft]
      rcases result with fault | outcome
      · change Phase t.hub.state [] ((f.id, fault) :: t.hub.failures)
        rw [hstate, hfailures]
        exact .stranded f.id fault
      · change Phase _ [] t.hub.failures
        rw [hfailures]
        exact .resting (by cases outcome <;> exact nofun)
  · refine h.of_sublist hvacant ?_ hnext ?_
    · simp [numbers, hgoes, hid, hended, hflights]
    · rw [Session.failures, hended, ← Session.failures, hgoes, hleft, hstate, hfailures]
      exact .flying f'

theorem Orderly.cancel (h : t.Orderly) (id : RunId) : (t.after (.cancel id)).Orderly := by
  have hvacant : (t.after (.cancel id)).hub.flight = none := by
    simp only [after, Session.cancel, h.vacant, Option.map_none]
  have hnumbers : (t.after (.cancel id)).numbers = t.numbers := by
    simp [numbers, after, Session.cancel, Session.tell, Function.comp_def]
  exact h.of_sublist hvacant (hnumbers ▸ List.Sublist.refl _) rfl (h.phase.map _)

theorem Orderly.lookup_eq_some_iff (h : t.Orderly) {id : RunId}
    {result : Except DurationFault Report} :
    t.hub.ended.lookup id = some result ↔ (id, result) ∈ t.hub.ended := by
  have hnodup := (List.nodup_append.mp h.nodup).2.1
  constructor
  · intro hlookup
    obtain ⟨before, later, hended, -⟩ := List.lookup_eq_some_iff.mp hlookup
    rw [hended]
    exact List.mem_append_right _ List.mem_cons_self
  · intro hmem
    obtain ⟨before, later, hended⟩ := List.append_of_mem hmem
    refine List.lookup_eq_some_iff.mpr ⟨before, later, hended, fun e he => ?_⟩
    rw [hended, List.map_append, List.map_cons, List.nodup_middle, List.nodup_cons] at hnodup
    rw [bne_iff_ne]
    exact fun hid => hnodup.1 (List.mem_append_left _ (List.mem_map.mpr ⟨e, he, hid.symm⟩))

theorem Orderly.any_eq_false (h : t.Orderly) {id : RunId} {result : Except DurationFault Report}
    (hended : (id, result) ∈ t.hub.ended) : t.flights.any (·.id = id) = false := by
  rw [List.any_eq_false]
  intro f hf
  rw [decide_eq_true_eq]
  exact (List.nodup_append.mp h.nodup).2.2 _ (List.mem_map_of_mem hf) _ (List.mem_map_of_mem hended)

/-- **Who collects a report** finds it once the run is over. The state is written if it is a
failure. -/
theorem Orderly.collect_cases (h : t.Orderly) (id : RunId) :
    ((∀ result, (id, result) ∉ t.hub.ended) ∧ t.after (.collect id) = t) ∨
    (∃ report, (id, .ok report) ∈ t.hub.ended ∧ (t.hub.wait id).1 = .ok report ∧
      t.after (.collect id) =
        { t with hub := { t.hub with ended := t.hub.ended.filter (·.1 ≠ id) } }) ∨
    ∃ fault, (id, .error fault) ∈ t.hub.ended ∧ (t.hub.wait id).1 = .error (.failed fault) ∧
      t.after (.collect id) = { t with
        hub := { t.hub with ended := t.hub.ended.filter (·.1 ≠ id), state := .idle } } := by
  rcases Session.wait_of_vacant h.vacant id with
    ⟨hnone, hwait⟩ | ⟨report, hsome, hwait⟩ | ⟨fault, hsome, hwait⟩
  · refine Or.inl ⟨fun result hmem => ?_, ?_⟩
    · rw [h.lookup_eq_some_iff.mpr hmem] at hnone
      cases hnone
    · rw [after, hwait]
      exact ite_self t
  · have hmem := h.lookup_eq_some_iff.mp hsome
    refine Or.inr (Or.inl ⟨report, hmem, by rw [hwait], ?_⟩)
    rw [after, h.any_eq_false hmem, hwait]
    rfl
  · have hmem := h.lookup_eq_some_iff.mp hsome
    refine Or.inr (Or.inr ⟨fault, hmem, by rw [hwait], ?_⟩)
    rw [after, h.any_eq_false hmem, hwait]
    rfl

theorem Orderly.collect (h : t.Orderly) (id : RunId) : (t.after (.collect id)).Orderly := by
  have hnumbers : (t.flights.map Flight.id ++
      (t.hub.ended.filter (·.1 ≠ id)).map Prod.fst).Sublist t.numbers :=
    (List.Sublist.refl _).append (List.filter_sublist.map _)
  rcases h.collect_cases id with ⟨-, hsame⟩ | ⟨report, hmem, -, hsame⟩ | ⟨fault, hmem, -, hsame⟩
  · rwa [hsame]
  · rw [hsame]
    refine h.of_sublist h.vacant hnumbers rfl ?_
    -- the report that is collected is not that of a run that failed
    have hkept : t.hub.failures.filter (·.1 ≠ id) = t.hub.failures := by
      refine List.filter_eq_self.mpr fun ⟨id', fault⟩ hfailed => decide_eq_true ?_
      rintro rfl
      have hok := h.lookup_eq_some_iff.mpr hmem
      rw [h.lookup_eq_some_iff.mpr (Session.mem_failures.mp hfailed)] at hok
      cases hok
    rw [Session.failures_filter, hkept]
    exact h.phase
  · rw [hsame]
    refine h.of_sublist h.vacant hnumbers rfl ?_
    obtain ⟨-, hflights, hfailures⟩ := h.phase.of_failures (Session.mem_failures.mpr hmem)
    have hgone : t.hub.failures.filter (·.1 ≠ id) = [] := by
      rw [hfailures]
      simp
    have hphase : Phase .idle t.flights (t.hub.failures.filter (·.1 ≠ id)) := by
      rw [hflights, hgone]
      exact .resting nofun
    rwa [← Session.failures_filter] at hphase

/-- **Every event keeps the traffic orderly.** -/
theorem Orderly.after (h : t.Orderly) (e : TrafficEvent) : (t.after e).Orderly := by
  cases e with
  | request p => exact h.request p
  | step id => exact h.step id
  | cancel id => exact h.cancel id
  | collect id => exact h.collect id
  | channel channel => exact ⟨h.vacant, h.nodup, h.below, h.phase⟩
  | clock now => exact ⟨h.vacant, h.nodup, h.below, h.phase⟩

/-- **All traffic is orderly.** -/
theorem Reachable.orderly (ht : t.Reachable) : t.Orderly := by
  induction ht with
  | fresh timing channel => exact ⟨rfl, List.nodup_nil, nofun, .resting nofun⟩
  | after _ e ih => exact ih.after e

end Traffic

end Choreo
