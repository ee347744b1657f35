import Choreo.Number.Format
import Choreo.Number.Literal
import Choreo.Text.Blank
import Choreo.Text.Quoted
import Choreo.Text.Width
import Choreo.Block.Basic
import Choreo.Path
import Choreo.Program.Edit
import Choreo.Toml.Document
import Choreo.Toml.Typed
import Choreo.Program.File
import Choreo.Duration
import Choreo.Command
import Choreo.Interlock
import Choreo.Drag
import Choreo.Timing
import Choreo.Run.Step
import Choreo.Run.Session
import Choreo.Timing.File
import Choreo.Diagnostic
import Choreo.Toml.Excerpt
import Choreo.Log
import Choreo.FileTree
import Choreo.Scenario.Basic
import Choreo.Scenario.Suite
import Choreo.CommandLine.Execution
import Choreo.Main
import Choreo.Proofs.Program.Tree
import Choreo.Proofs.Program.Layout
import Choreo.Proofs.Program.Forest
import Choreo.Proofs.Program.Position
import Choreo.Proofs.Block.Domain
import Choreo.Proofs.Block.Valid
import Choreo.Proofs.Program.Links
import Choreo.Proofs.Program.Refinement
import Choreo.Proofs.Program.Valid
import Choreo.Proofs.Program.WellFormed
import Choreo.Proofs.Program.Identity
import Choreo.Proofs.Run.Checkpoints
import Choreo.Proofs.Run.Outcomes
import Choreo.Proofs.Run.Standstill
import Choreo.Proofs.Run.Turns
import Choreo.Proofs.Run.Stints
import Choreo.Proofs.Run.Elapsed
import Choreo.Proofs.Run.Remainder
import Choreo.Proofs.Program.RoundTrip
import Choreo.Proofs.CommandLine.Editing
import Choreo.Proofs.Program.Walk
import Choreo.Proofs.Program.Undo
import Choreo.Proofs.Run.Stranded
import Choreo.Proofs.Program.Dragging
import Choreo.Proofs.Run.Directions
import Choreo.Proofs.Run.Executable
import Choreo.Proofs.Program.Answers
import Choreo.Proofs.Program.Ancestors
import Choreo.Proofs.Program.Reordering
import Choreo.Proofs.Program.Commuting
import Choreo.Proofs.Run.Sweeps
import Choreo.Proofs.Block.Faults
import Choreo.Proofs.Text.Cut
import Choreo.Proofs.Path
import Choreo.Proofs.Drag
import Choreo.Proofs.Run.Record
import Choreo.Proofs.Scenario.Selection
import Choreo.Proofs.Text.Occurs
import Choreo.Proofs.Toml.Reading
import Choreo.Proofs.Scenario.Written
import Choreo.Proofs.Scenario.Simulated
import Choreo.Proofs.Scenario.Verdict
import Choreo.Proofs.Scenario.Discovery
import Choreo.Proofs.Scenario.Suites
import Choreo.Proofs.CommandLine.TreeLine
import Choreo.Proofs.CommandLine.Listing
import Choreo.Proofs.Program.Misshapen
import Choreo.Proofs.Program.Wording
import Choreo.Proofs.Program.Hint
import Choreo.Proofs.Number.Monotone
import Choreo.Proofs.Run.LargerTurns
import Choreo.Proofs.Program.Rebuilt
