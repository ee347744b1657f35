import Choreo.Program.Edit
import Choreo.Run.Session

/-!
# Log lines

What the parts of the program tell about their work, for whoever asks for more words. An entry has a
level, the name of the part that speaks, and a message with named values.
-/

namespace Choreo

/-- How much an entry matters. -/
inductive LogLevel where
  | debug
  | info
  | warn
deriving DecidableEq, Repr

namespace LogLevel

/-- The level as a word of five characters. -/
def word : LogLevel → String
  | .debug => "DEBUG"
  | .info => " INFO"
  | .warn => " WARN"

/-- Whether entries of the level are wanted when more words were asked for `verbosity` times. -/
def isWanted (verbosity : Nat) : LogLevel → Bool
  | .warn => true
  | .info => 1 ≤ verbosity
  | .debug => 2 ≤ verbosity

end LogLevel

/-- An entry of the log. -/
structure LogEntry where
  level : LogLevel
  /-- The part of the program that speaks. -/
  part : String
  message : String

/-- The entry without the time that stands before it. -/
def LogEntry.text (e : LogEntry) : String := s!"{e.level.word} {e.part}: {e.message}"

/-- A number as it stands in a log line. -/
def logNumber (x : Float) : String := NumberFormat.logged.write x

/-- The entry of a program file that was read. -/
def LogEntry.ofFile (blocks : Nat) : LogEntry :=
  ⟨.debug, "botblocks::parser", s!"parsed program file blocks={blocks}"⟩

/-- The message about an edit that was made. A value is logged as it was stored. -/
def Edit.message : Edit → String
  | .insert parent index block =>
    s!"inserted block parent={parent} index={index} kind={block.kind.name}"
  | .remove parent index => s!"removed block parent={parent} index={index}"
  | .move source dest index => s!"moved block from={source} dest_parent={dest} dest_index={index}"
  | .reorder parent source target =>
    s!"reordered block parent={parent} from={source} to={target}"
  | .set path param value =>
    let stored := (param.clamp? value).getD value
    s!"set parameter path={path} param={param.name} value={logNumber stored}"
  | .replace blocks => s!"replaced blocks blocks={blocks.length}"

/-- The entry of an edit that was made. -/
def LogEntry.ofEdit (e : Edit) : LogEntry := ⟨.debug, "botblocks::program::edit", e.message⟩

def Outcome.title : Outcome → String
  | .completed => "Completed"
  | .cancelled => "Cancelled"

/-- The kind of the leaf before, if there was one. -/
def previousTitle : Option Kind → String
  | some kind => s!"Some({kind.title})"
  | none => "None"

def StepNote.entry (n : StepNote) : LogEntry :=
  let part := "interpreter::executor"
  match n with
  | .iteration number total =>
    ⟨.debug, part, s!"repeat iteration iteration={number} times={total}"⟩
  | .interlock prev next =>
    ⟨.info, part, "risky transition, waiting for safety interlock" ++
      s!" previous={previousTitle prev} current={next.name}"⟩
  | .turning angle duration ticks =>
    ⟨.debug, part,
      s!"turning angle={logNumber angle} duration={duration.text} ticks={ticks}"⟩
  | .driving velocity seconds =>
    ⟨.debug, part, s!"driving velocity={logNumber velocity} seconds={logNumber seconds}"⟩
  | .pausing seconds => ⟨.debug, part, s!"pausing seconds={logNumber seconds}"⟩

def RunEvent.entry : RunEvent → LogEntry
  | .started blocks leaves revision =>
    ⟨.info, "interpreter::control",
      s!"starting run blocks={blocks} leaves={leaves} revision={revision}"⟩
  | .noted note => note.entry
  | .unconnected command =>
    ⟨.warn, "interpreter::executor",
      s!"publishing to a disconnected channel target={command.target.name} command={command.text}"⟩
  | .publishing command =>
    ⟨.debug, "interpreter::executor",
      s!"publish target={command.target.name} command={command.text}"⟩
  | .cancelRequested => ⟨.info, "interpreter::control", "cancellation requested"⟩
  | .finished report =>
    ⟨.info, "interpreter::control",
      s!"run finished outcome={report.outcome.title} commands={report.tally.commands} " ++
      s!"interlocks={report.tally.interlocks}"⟩

end Choreo
