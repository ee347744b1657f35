import Choreo.Program.Basic
import Choreo.Run.Play

/-!
# Sessions

A session runs programs over one channel, one at a time. Starting a run takes a copy of the program;
the run takes its first step when time passes or someone waits for it. A cancelled run goes on to
its next checkpoint, and the session reports it as running until it gets there. A run that fails
leaves the session running until someone waits for that run.
-/

namespace Choreo

/-- What a session reports of its runs. -/
inductive RunState where
  | idle
  | running
  /-- The last run was cancelled. -/
  | cancelled
deriving DecidableEq, Repr

/-- Why a run cannot be started, or has no report. -/
inductive RunError where
  | notConnected
  | alreadyRunning
  /-- There is no such run. -/
  | noRun
  | failed (fault : DurationFault)
deriving DecidableEq, Repr

def RunError.message : RunError → String
  | .notConnected => "command channel is not connected"
  | .alreadyRunning => "interpreter is already running"
  | .noRun => "no such run"
  | .failed fault => s!"run task failed: task panicked with message {quoted fault.message}"

/-- A run that is not over. -/
structure Flight where
  id : RunId
  /-- When it goes on. -/
  wake : Nat
  rest : Unit → LazyList Step
  cancelled : Bool := false
  tally : Tally := {}

/-- The runs over one channel. -/
structure Session where
  timing : Timing := {}
  channel : Channel := {}
  state : RunState := .idle
  now : Nat := 0
  flight : Option Flight := none
  /-- How the runs ended that are over, by number, until someone waits for them. -/
  ended : List (RunId × Except DurationFault Report) := []
  /-- The number of the next run. -/
  next : RunId := 0
  /-- What was told, with the times. -/
  events : Array (Nat × RunEvent) := #[]

namespace Session

def tell (s : Session) (e : RunEvent) : Session := { s with events := s.events.push (s.now, e) }

/-- Starts a run of a program. -/
def start (s : Session) (p : Program) : Except RunError (RunId × Session) :=
  if s.state = .running then .error .alreadyRunning
  else if !s.channel.connected then .error .notConnected
  else
    let blocks := p.toBlocks
    let flight : Flight :=
      { id := s.next, wake := s.now, rest := fun _ => s.timing.score blocks }
    .ok (s.next, { s.tell (.started blocks.length p.leafCount p.revision) with
      state := .running, flight, next := s.next + 1 })

/-- The session after a run is over. -/
def finish (s : Session) (id : RunId) (result : Except DurationFault Report) : Session :=
  let s := { s with flight := none, ended := (id, result) :: s.ended }
  match result with
  | .error _ => s
  | .ok report =>
    let state := match report.outcome with
      | .completed => RunState.idle
      | .cancelled => RunState.cancelled
    { s.tell (.finished report) with state }

/-- Lets the run under way take its steps up to the horizon. -/
def runUntil (s : Session) (horizon : Option Nat) : Session :=
  match s.flight with
  | none => s
  | some f =>
    if horizon.all (f.wake ≤ ·) then
      let (p, halt) := play horizon (f.rest ())
        ⟨f.id, f.cancelled, f.tally, f.wake, s.channel, s.events⟩
      let s := { s with channel := p.channel, events := p.events, now := p.now }
      match halt with
      | .ended outcome => s.finish f.id (.ok ⟨outcome, p.tally⟩)
      | .failed fault => s.finish f.id (.error fault)
      | .waiting wake rest =>
        { s with flight := some ⟨f.id, wake, rest, p.cancelled, p.tally⟩ }
    else s

/-- Lets some milliseconds pass; if there are none, nothing happens. -/
def advance (s : Session) (millis : Nat) : Session :=
  let time := s.now + millis
  if millis = 0 then s else { s.runUntil (some time) with now := time }

/-- Asks a run to stop at its next checkpoint. -/
def cancel (s : Session) (id : RunId) : Session :=
  { s.tell .cancelRequested with
    flight := s.flight.map fun f => { f with cancelled := f.cancelled || f.id = id } }

/-- Asks a run to stop once so many commands are recorded. -/
def cancelAfter (s : Session) (id : RunId) (count : Nat) : Session :=
  { s with channel := { s.channel with cancelAfter := some (count, id) } }

/-- Connects the channel or disconnects it. -/
def setConnected (s : Session) (connected : Bool) : Session :=
  { s with channel := { s.channel with connected } }

/-- Lets the channel lose its connection once so many commands are recorded. -/
def disconnectAfter (s : Session) (count : Nat) : Session :=
  { s with channel := { s.channel with disconnectAfter := some count } }

/-- Whether a run is over. -/
def isFinished (s : Session) (id : RunId) : Bool := s.flight.all (·.id ≠ id)

/-- Lets time pass until a run is over and collects its report, which can be collected once. -/
def wait (s : Session) (id : RunId) : Except RunError Report × Session :=
  let s := if s.isFinished id then s else s.runUntil none
  let collected := { s with ended := s.ended.filter (·.1 ≠ id) }
  match s.ended.lookup id with
  | some (.ok report) => (.ok report, collected)
  | some (.error fault) => (.error (.failed fault), { collected with state := .idle })
  | none => (.error .noRun, s)

end Session

end Choreo
