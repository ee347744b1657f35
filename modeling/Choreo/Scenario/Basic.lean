import Choreo.Run.Session
import Choreo.Timing.File
import Choreo.FileTree
import Choreo.Program.File

/-!
# Scenarios

A scenario says how the program of the same file is to be run, and what is expected of the run. It
is the record `scenario` of the file. `Scenario.verdict` compares a run with what is expected and
tells the first difference.
-/

namespace Choreo

/-- How a program is run and what is expected of it. -/
structure Scenario where
  description : Option String := none
  /-- Whether the channel has no connection. -/
  disconnected : Bool := false
  /-- The count of commands that cancels the run. -/
  cancelAfter : Option Nat := none
  timing : Timing := {}
  expectCommands : Option (List String) := none
  expectCount : Option Nat := none
  expectOutcome : Option String := none
  expectInterlocks : Option Nat := none
  expectElapsed : Option Nat := none
  elapsedTolerance : Option Nat := none
  /-- Part of the message of the error that keeps the run from being reported. -/
  expectError : Option String := none
  /-- Whether the program is to be refused. -/
  expectParseError : Bool := false

namespace ScenarioFile

open Toml

/-- The fields of a scenario. -/
def fields : List (RecordField Scenario) :=
  [.of "description" readText fun s x => { s with description := some x },
    .of "disconnected" readBoolean fun s x => { s with disconnected := x },
    .of "cancel_after" (readNat .count) fun s x => { s with cancelAfter := some x },
    .of "timing" TimingFile.read fun s x => { s with timing := x },
    .of "expect_commands" (readSequence readText) fun s x => { s with expectCommands := some x },
    .of "expect_count" (readNat .count) fun s x => { s with expectCount := some x },
    .of "expect_outcome" readText fun s x => { s with expectOutcome := some x },
    .of "expect_interlocks" (readNat .count) fun s x => { s with expectInterlocks := some x },
    .of "expect_elapsed_ms" (readNat .natural) fun s x => { s with expectElapsed := some x },
    .of "elapsed_tolerance_ms" (readNat .natural) fun s x =>
      { s with elapsedTolerance := some x },
    .of "expect_error" readText fun s x => { s with expectError := some x },
    .of "expect_parse_error" readBoolean fun s x => { s with expectParseError := x }]

/-- How a scenario is written. -/
def form : RecordForm Scenario Scenario := ⟨"Scenario", fields, .ok⟩

end ScenarioFile

/-- Why a file cannot be tested. -/
inductive ScenarioFault where
  | unreadable (fault : FileFault)
  | malformed
  | misshapen (fault : Toml.Fault)
  | timing (fault : TimingFault)

def ScenarioFault.message : ScenarioFault → String
  | .unreadable fault => s!"cannot read file: {fault.message}"
  | .malformed => "scenario error: invalid TOML"
  | .misshapen fault => s!"scenario error: {fault.message}"
  | .timing fault => s!"scenario error: {fault.report}"

/-- What a run can differ in from what is expected of it. -/
inductive Mismatch where
  | acceptedProgram
  | refusedProgram (message : String)
  | otherError (expected message : String)
  | noError (expected : String)
  | error (message : String)
  | commands (expected actual : List String)
  | count (expected actual : Nat)
  | outcome (expected : String) (actual : Outcome)
  | interlocks (expected actual : Nat)
  | elapsed (expected tolerance actual : Nat)

namespace Mismatch

def message : Mismatch → String
  | .acceptedProgram => "expected parse error, but parsing succeeded"
  | .refusedProgram message => s!"unexpected parse error: {message}"
  | .otherError expected message =>
    s!"expected error containing \"{expected}\", got: {message}"
  | .noError expected =>
    s!"expected error containing \"{expected}\", but the run started"
  | .error message => s!"unexpected run error: {message}"
  | .commands expected actual =>
    let expected := ", ".intercalate expected
    let actual := ", ".intercalate actual
    s!"command mismatch\n  expected: [{expected}]\n  actual:   [{actual}]"
  | .count expected actual => s!"expected {expected} command(s), got {actual}"
  | .outcome expected actual => s!"expected outcome {expected}, got {actual.name}"
  | .interlocks expected actual => s!"expected {expected} safety interlock(s), got {actual}"
  | .elapsed expected tolerance actual =>
    s!"expected to finish after {expected}ms (±{tolerance}ms), took {actual}ms"

end Mismatch

namespace Scenario

/-- The tolerance of the elapsed time in milliseconds unless the scenario gives another. -/
def defaultTolerance : Nat := 10

/-- The first difference between a run that was reported and what is expected of it. -/
def compareReport (s : Scenario) (report : Report) (elapsed : Nat) (commands : List String) :
    Option Mismatch :=
  let check {α : Type} (expected : Option α) (holds : α → Bool) (mismatch : α → Mismatch) :
      Option Mismatch :=
    expected.bind fun x => if holds x then none else some (mismatch x)
  let tolerance := s.elapsedTolerance.getD defaultTolerance
  (check s.expectCommands (· = commands) (.commands · commands)).or <|
  (check s.expectCount (· = commands.length) (.count · commands.length)).or <|
  (check s.expectOutcome (· = report.outcome.name) (.outcome · report.outcome)).or <|
  (check s.expectInterlocks (· = report.tally.interlocks)
    (.interlocks · report.tally.interlocks)).or <|
  check s.expectElapsed (fun x => max x elapsed - min x elapsed ≤ tolerance)
    (.elapsed · tolerance elapsed)

/-- The first difference between a run and what is expected of it. -/
def verdict (s : Scenario) (result : Except RunError (Report × Nat)) (commands : List String) :
    Option Mismatch :=
  match s.expectError, result with
  | some expected, .error e =>
    if occursIn expected.toList e.message.toList then none
    else some (.otherError expected e.message)
  | some expected, .ok _ => some (.noError expected)
  | none, .error e => some (.error e.message)
  | none, .ok (report, elapsed) => s.compareReport report elapsed commands

/-- The session that the scenario runs its program in. -/
def session (s : Scenario) : Session :=
  { timing := s.timing, channel := { connected := !s.disconnected } }

/-- The result of the run with the time that it took, and the session after it. -/
def run (s : Scenario) (p : Program) : Except RunError (Report × Nat) × Session :=
  match s.session.start p with
  | .error e => (.error e, s.session)
  | .ok (id, started) =>
    let started := match s.cancelAfter with
      | some n => started.cancelAfter id n
      | none => started
    let (result, ended) := started.wait id
    (result.map (·, ended.now), ended)

/-- The scenario in a file. -/
def ofText (text : String) : Except ScenarioFault Scenario :=
  match Toml.read? text with
  | none => .error .malformed
  | some document => do
    let scenario ← (Toml.readUnder document "scenario" (ScenarioFile.form.read {})).mapError
      .misshapen
    return scenario.getD {}

end Scenario

end Choreo
