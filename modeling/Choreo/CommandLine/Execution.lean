import Choreo.CommandLine.Invocation
import Choreo.Diagnostic
import Choreo.Scenario.Suite
import Choreo.Toml.Excerpt

/-!
# Executing commands

What a command does, given the files that it works on: what it prints, its exit code, and the files
afterwards. Only an edit changes a file, and only if it succeeds.
-/

namespace Choreo

/-- What came of a command. -/
structure Execution where
  code : Nat
  output : Output
  /-- The path and the text of the file that was written. -/
  written : Option (String × String) := none
  /-- Whether the output takes its time. -/
  realTime : Bool := false

/-- The files after a command. -/
def Execution.filesAfter (e : Execution) (files : FileTree) : FileTree :=
  match e.written with
  | some (path, text) => (files.write path text).toOption.getD files
  | none => files

namespace Execution

/-- What a step of a command leaves to go on with, or the messages that end the command. -/
abbrev Outcome (α : Type) := Except (List OutputLine) α

/-- The message of an error. -/
def errorLine (text : String) : OutputLine := .message s!"error: {text}"

/-- The text of a file that a command needs. -/
def readNamed (files : FileTree) (file : String) : Outcome String :=
  (files.read file).mapError fun fault =>
    [errorLine s!"cannot read '{file}': {fault.message}"]

/-- The diagnostic of a text that is no program file. -/
def diagnosticOf (e : LoadError) : Diagnostic :=
  ⟨e.trimmedMessage, e.span?, e.notes⟩

/-- The program in a file that a command needs. -/
def loadProgram (files : FileTree) (file : String) : Outcome Program := do
  let source ← readNamed files file
  (Program.ofText source).mapError fun e => [.message ((diagnosticOf e).text file source)]

/-- The message about a timing file that cannot be used. -/
def timingMessage (source : String) : TimingLoadError → String
  | .malformed => "cannot parse timing config: invalid TOML"
  | .misshapen fault => s!"cannot parse timing config: {fault.excerpt source}"
  | .invalid fault => fault.report

/-- The timing in a file that a command needs. -/
def loadTiming (files : FileTree) (file : String) : Outcome Timing := do
  let source ← readNamed files file
  (Timing.ofText source).mapError fun e => [errorLine s!"{file}: {timingMessage source e}"]

/-- The line that tells that a program was read. -/
def loadedLines (verbosity : Nat) (p : Program) : List OutputLine :=
  Output.logged verbosity [.ofFile p.rootCount]

/-! ### Running -/

/-- The output of what a run tells at a time. A command is a result unless results are not
wanted. -/
def eventLines (verbosity : Nat) (quiet : Bool) (e : RunEvent) : List OutputLine :=
  Output.logged verbosity [e.entry] ++
    match e with
    | .publishing command => if quiet then [] else [.result command.line]
    | _ => []

/-- The last messages of a run. -/
def reportLines : Except RunError Report → List OutputLine
  | .error e => [errorLine e.message]
  | .ok r =>
    let t := r.tally
    .message (s!"{r.outcome.name}: {t.commands} commands, {t.leaves} leaves, " ++
        s!"{t.interlocks} safety interlocks") ::
      if t.whileDisconnected = 0 then [] else
        [.message (s!"warning: {t.whileDisconnected} commands were published after the " ++
          "channel disconnected")]

/-- Runs a program: whether the run was reported, and what is told. -/
def runProgram (verbosity : Nat) (quiet : Bool) (s : Session) (p : Program) : Bool × Output :=
  let (result, ended) := match s.start p with
    | .error e => (Except.error e, s)
    | .ok (id, started) => started.wait id
  let told := ended.events.toList.flatMap fun (time, e) =>
    (eventLines verbosity quiet e).map (time, ·)
  (result.isOk, told ++ (reportLines result).map (ended.now, ·))

/-! ### Listing -/

/-- The line of a node in the listing of a program, indented by its depth. -/
def treeLine (path : Path) (n : Node) : String :=
  let indent := String.ofList (List.replicate (2 * (path.depth - 1)) ' ')
  let line := s!"{indent}{path} {n.kind.name}"
  if n.settings.isEmpty then line else s!"{line} {n.settings.text}"

/-- The listing of a program. -/
def treeLines (p : Program) : List String :=
  if p.isEmpty then ["(empty program)"]
  else p.walk.filterMap fun (path, id) => (p.node? id).map (treeLine path)

/-! ### Editing -/

/-- The program after an edit that is asked for. -/
def applyRequest (p : Program) (request : EditRequest) : Except EditError (Edit × Program) := do
  let edit ← request.toEdit.mapError .block
  return (edit, ← p.apply edit)

/-- Edits a program and writes it to a file. The messages come with the text of the file. -/
def editProgram (verbosity : Nat) (files : FileTree) (target : String) (p : Program)
    (request : EditRequest) : Outcome (List OutputLine × String) :=
  match applyRequest p request with
  | .error e => .error [errorLine e.message]
  | .ok (edit, edited) =>
    let told := Output.logged verbosity [.ofEdit edit]
    match files.write target edited.text with
    | .error fault => .error (told ++ [errorLine s!"cannot write '{target}': {fault.message}"])
    | .ok _ =>
      .ok (told ++ [.message s!"ok: wrote {target} ({edited.nodeCount} blocks)"], edited.text)

/-! ### Commands -/

/-- A command that ends at once with some lines. -/
def atOnce (code : Nat) (lines : List OutputLine) : Execution :=
  { code, output := .now lines }

/-- Executes a command that needs a program file. -/
def withProgram (verbosity : Nat) (files : FileTree) (file : String)
    (go : Program → Execution) : Execution :=
  match loadProgram files file with
  | .error lines => atOnce 1 lines
  | .ok p =>
    let e := go p
    { e with output := .now (loadedLines verbosity p) ++ e.output }

/-- Executes a command. -/
def ofInvocation (files : FileTree) (i : Invocation) : Execution :=
  match i.task with
  | .check file => withProgram i.verbosity files file fun p =>
    atOnce 0 [.message (s!"ok: {file} parsed successfully ({p.nodeCount} blocks, " ++
      s!"{p.leafCount} leaves)")]
  | .tree file => withProgram i.verbosity files file fun p =>
    atOnce 0 ((treeLines p).map .result)
  | .edit file output request => withProgram i.verbosity files file fun p =>
    let target := output.getD file
    match editProgram i.verbosity files target p request with
    | .error lines => atOnce 1 lines
    | .ok (lines, text) => { atOnce 0 lines with written := some (target, text) }
  | .run file config disconnected simulate quiet => withProgram i.verbosity files file fun p =>
    match config.elim (.ok {}) (loadTiming files) with
    | .error lines => atOnce 1 lines
    | .ok timing =>
      let session : Session := { timing, channel := { connected := !disconnected } }
      let (reported, output) := runProgram i.verbosity quiet session p
      { code := if reported then 0 else 1, output, realTime := !simulate }
  | .test path categories listOnly =>
    if listOnly then atOnce 0 (listSuite files path)
    else
      let (passed, lines) := runSuite ⟨!i.noColor, i.verbosity⟩ files path categories
      atOnce (if passed then 0 else 1) lines

/-- What comes of a line that gives no command to execute. -/
def ofStop : ParseStop → Execution
  | .fault fault => atOnce 2 [errorLine fault.message]
  | .empty about => atOnce 2 [.message about]
  | .help about => atOnce 0 [.result about]
  | .version => atOnce 0 [.result s!"botblocks {Invocation.version}"]

/-- Executes a command line. -/
def ofWords (files : FileTree) (words : List String) : Execution :=
  match Invocation.ofWords words with
  | .ok i => ofInvocation files i
  | .error stop => ofStop stop

end Execution

end Choreo
