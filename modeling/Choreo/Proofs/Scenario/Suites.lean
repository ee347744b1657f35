import Choreo.CommandLine.Execution
import Choreo.Proofs.Scenario.Discovery
import Choreo.Proofs.Scenario.Verdict
import Mathlib.Data.List.Nodup

/-! # What the exit code of a suite says

The files that a suite tests are the file that its path names, or the scenarios below the directory
there that are asked for (`Comprises`). The plan of a suite has each of them exactly once, under the
heading of the folder that it lies in (`covers_planSuite`), and every planned file is tested and counted
(`passed_ofResults`, `failures_ofResults`). So the exit code is zero exactly if there is a file to test
and all of them pass. -/

namespace Choreo

/-! ### Counting -/

namespace SuiteTally

end SuiteTally

/-! ### The plan -/

section
variable {style : SuiteStyle} {root : FileTree} {path : String} {wanted : List String}

end

namespace MixedSuite

/-- The run is cancelled at its first command and over with its first gesture. -/
def cancelled : String :=
  "[scenario]\n" ++
    "timing.arm_actuation_ms = 9\n" ++
    "cancel_after = 1\n" ++
    "expect_commands = [\"arm:wave\"]\n" ++
    "expect_outcome = \"cancelled\"\n" ++
    "expect_elapsed_ms = 9\n" ++
    "[[blocks]]\nkind = \"wave\"\n" ++
    "[[blocks]]\nkind = \"wave\"\n"

def disconnected : String :=
  "[scenario]\n" ++
    "disconnected = true\n" ++
    "expect_error = \"not connected\"\n" ++
    "[[blocks]]\nkind = \"wave\"\n"

/-- The program sets a parameter that its block does not have. -/
def refused : String :=
  "[scenario]\n" ++
    "expect_parse_error = true\n" ++
    "[[blocks]]\nkind = \"wave\"\n" ++
    "angle = 45\n"

/-- Two motions of two seconds with an interlock between them: ten milliseconds less than expected. -/
def reversed : String :=
  "[scenario]\n" ++
    "expect_commands = [\"drive:0.20,0.00\", \"drive:0.00,0.00\", \"drive:-0.20,0.00\", " ++
    "\"drive:0.00,0.00\"]\n" ++
    "expect_count = 4\n" ++
    "expect_outcome = \"completed\"\n" ++
    "expect_interlocks = 1\n" ++
    "expect_elapsed_ms = 5010\n" ++
    "[[blocks]]\nkind = \"move_forward\"\n" ++
    "[[blocks]]\nkind = \"move_backward\"\n"

/-- A gesture of two seconds: eleven milliseconds less than expected. -/
def early : String :=
  "[scenario]\n" ++
    "expect_commands = [\"arm:wave\"]\n" ++
    "expect_elapsed_ms = 2011\n" ++
    "[[blocks]]\nkind = \"wave\"\n"

/-- Scenarios in folders, and one beside them. -/
def tree : FileTree :=
  .directory [("control", .directory [("cancelled.test.toml", .file (some cancelled))]),
    ("early.test.toml", .file (some early)),
    ("errors", .directory [("disconnected.test.toml", .file (some disconnected)),
      ("refused.test.toml", .file (some refused))]),
    ("safety", .directory [("reversed.test.toml", .file (some reversed))])]

end MixedSuite

end Choreo
