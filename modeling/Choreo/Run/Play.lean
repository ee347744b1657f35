import Choreo.Run.Step

/-!
# Playing a run

A run takes its steps one after the other on a clock of whole milliseconds and sends its commands
over a channel, which records them with their times. A wait lasts its length rounded up. The channel
may be set to cancel a run or to lose its connection at a count of commands; a run goes on without a
connection and counts what it sent in vain.

`play` takes steps up to a horizon in time, so that a run can be left waiting and resumed.
-/

namespace Choreo

/-- The number of a run, by which it can be cancelled. -/
abbrev RunId := Nat

/-- A command as it was sent. -/
structure Published where
  time : Nat
  command : Command

/-- The channel that commands are sent over. -/
structure Channel where
  connected : Bool := true
  published : Array Published := #[]
  /-- Cancels a run once so many commands are recorded. -/
  cancelAfter : Option (Nat × RunId) := none
  /-- Loses the connection once so many commands are recorded. -/
  disconnectAfter : Option Nat := none

namespace Channel

/-- The number of recorded commands. -/
def count (c : Channel) : Nat := c.published.size

/-- The channel after a command. -/
def publish (c : Channel) (time : Nat) (command : Command) : Channel :=
  let published := c.published.push ⟨time, command⟩
  { c with
    published
    connected := c.connected && !c.disconnectAfter.any (· ≤ published.size) }

/-- Whether the count of commands cancels a run. -/
def cancels (c : Channel) (id : RunId) : Bool :=
  c.cancelAfter.any fun (n, target) => n ≤ c.count && target = id

end Channel

/-- How a run ended. -/
inductive Outcome where
  | completed
  | cancelled
deriving DecidableEq, Repr

def Outcome.name : Outcome → String
  | .completed => "completed"
  | .cancelled => "cancelled"

/-- What a run counts. -/
structure Tally where
  commands : Nat := 0
  leaves : Nat := 0
  interlocks : Nat := 0
  /-- Commands sent without a connection. -/
  whileDisconnected : Nat := 0
deriving DecidableEq, Repr

/-- What a run has to say when it is over. -/
structure Report where
  outcome : Outcome
  tally : Tally
deriving DecidableEq, Repr

/-- What a run tells as it goes. -/
inductive RunEvent where
  | started (blocks leaves revision : Nat)
  | noted (note : StepNote)
  /-- A command is about to be sent without a connection. -/
  | unconnected (command : Command)
  | publishing (command : Command)
  | cancelRequested
  | finished (report : Report)

/-- A run under way with what it acts on. -/
structure Performance where
  id : RunId
  cancelled : Bool := false
  tally : Tally := {}
  now : Nat := 0
  channel : Channel := {}
  /-- What was told, with the times. -/
  events : Array (Nat × RunEvent) := #[]

namespace Performance

def tell (p : Performance) (e : RunEvent) : Performance :=
  { p with events := p.events.push (p.now, e) }

/-- The performance after a command. -/
def send (p : Performance) (command : Command) : Performance :=
  let lost := !p.channel.connected
  let p := (if lost then p.tell (.unconnected command) else p).tell (.publishing command)
  let channel := p.channel.publish p.now command
  { p with
    channel
    cancelled := p.cancelled || channel.cancels p.id
    tally := { p.tally with
      commands := p.tally.commands + 1
      whileDisconnected := p.tally.whileDisconnected + lost.toNat } }

def countInterlock (p : Performance) : Performance :=
  { p with tally := { p.tally with interlocks := p.tally.interlocks + 1 } }

def countLeaf (p : Performance) : Performance :=
  { p with tally := { p.tally with leaves := p.tally.leaves + 1 } }

end Performance

/-- Where a run stands once it takes no more steps for now. -/
inductive Halt where
  | ended (outcome : Outcome)
  | failed (fault : DurationFault)
  /-- The run waits until a time and then goes on. -/
  | waiting (wake : Nat) (rest : Unit → LazyList Step)

/-- Takes steps until the run is over or a wait ends after the horizon. -/
def play (horizon : Option Nat) : LazyList Step → Performance → Performance × Halt
  | .nil, p => (p, .ended .completed)
  | .cons step rest, p =>
    match step with
    | .checkpoint =>
      if p.cancelled then (p, .ended .cancelled) else play horizon (rest ()) p
    | .note note => play horizon (rest ()) (p.tell (.noted note))
    | .interlock => play horizon (rest ()) p.countInterlock
    | .publish command => play horizon (rest ()) (p.send command)
    | .done => play horizon (rest ()) p.countLeaf
    | .fail fault => (p, .failed fault)
    | .wait duration =>
      let wake := p.now + duration.millisUp
      if horizon.all (wake ≤ ·) then play horizon (rest ()) { p with now := wake }
      else (p, .waiting wake rest)

/-- A run of `blocks` from beginning to end. -/
def perform (t : Timing) (blocks : List Block) (p : Performance) : Performance × Halt :=
  play none (t.score blocks) p

end Choreo
