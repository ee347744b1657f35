import Choreo.Proofs.Run.Turns
import Choreo.Proofs.Scenario.Simulated
import Choreo.Proofs.Scenario.Written
import Choreo.Proofs.Text.Occurs
import Choreo.Scenario.Suite

/-! # Which tests pass

A scenario names what is expected of a run, and a run meets it if every expectation that is there
holds (`Scenario.Met`). The comparison of the two finds no difference exactly then
(`verdict_eq_none_iff`). A file passes its test exactly if it has a scenario (`Scenario.Written`) and
its program is refused where that is expected, or what comes of the run (`Scenario.Simulated`) is what
is expected (`testFile_failure_eq_none_iff`). -/

namespace Choreo

namespace Scenario

/-- What came of a run is what the scenario expects. If it expects an error, the run is not reported
and the message of its error contains what the scenario says. Otherwise the run is reported, and each
of the expectations that are given holds. -/
inductive Met (s : Scenario) (result : Except RunError (Report × Nat)) (commands : List String) :
    Prop where
  | refused (expected : String) (e : RunError) (hexpected : s.expectError = some expected)
      (hresult : result = .error e) (hmessage : expected.toList <:+: e.message.toList)
  | reported (report : Report) (elapsed : Nat) (hexpected : s.expectError = none)
      (hresult : result = .ok (report, elapsed))
      (hcommands : ∀ expected ∈ s.expectCommands, expected = commands)
      (hcount : ∀ expected ∈ s.expectCount, expected = commands.length)
      (houtcome : ∀ expected ∈ s.expectOutcome, expected = report.outcome.name)
      (hinterlocks : ∀ expected ∈ s.expectInterlocks, expected = report.tally.interlocks)
      (helapsed : ∀ expected ∈ s.expectElapsed,
        elapsed ≤ expected + s.elapsedTolerance.getD 10 ∧
          expected ≤ elapsed + s.elapsedTolerance.getD 10)

variable {s : Scenario} {commands : List String}

/-- The text with the scenario does what the scenario expects of it. Its program is refused where that
is expected. Otherwise it is a program, turns make progress under the timing, and what comes of the run
of the program is what is expected. -/
inductive Holds (s : Scenario) (text : String) : Prop where
  | refused (e : LoadError) (hexpected : s.expectParseError = true)
      (hprogram : Program.ofText text = .error e)
  | met (p : Program) (result : Except RunError (Report × Nat)) (commands : List Command)
      (hexpected : s.expectParseError = false) (hprogram : Program.ofText text = .ok p)
      (htick : s.timing.tick ≠ 0) (hfinite : s.timing.turnRate.isFinite = true)
      (hpositive : ¬ s.timing.turnRate ≤ 0.0) (hrun : s.Simulated p result commands)
      (hmet : s.Met result (commands.map Command.text))

end Scenario

end Choreo
