import Choreo.Log

/-!
# Output

What a command prints: lines of results, lines of messages, and log entries among the messages, each
with the time at which it is due. Log entries get a time stamp when they are printed.
-/

namespace Choreo

/-- A piece of output, printed with a line end. -/
inductive OutputLine where
  /-- A result. -/
  | result (text : String)
  /-- A message to the user. -/
  | message (text : String)
  /-- A log entry, which stands among the messages. -/
  | log (entry : LogEntry)

/-- What a command prints, each piece with the millisecond at which it is due. -/
abbrev Output := List (Nat × OutputLine)

namespace Output

/-- Pieces that are due at once. -/
def now (lines : List OutputLine) : Output := lines.map (0, ·)

/-- The entries that are wanted at a verbosity. -/
def logged (verbosity : Nat) (entries : List LogEntry) : List OutputLine :=
  (entries.filter fun e => e.level.isWanted verbosity).map .log

/-- The results as one text. -/
def results (o : Output) : String :=
  "".intercalate (o.filterMap fun
    | (_, .result text) => some (text ++ "\n")
    | _ => none)

/-- The messages as one text; `stamp` stands in front of a log entry. -/
def messages (stamp : String) (o : Output) : String :=
  "".intercalate (o.filterMap fun
    | (_, .message text) => some (text ++ "\n")
    | (_, .log entry) => some (stamp ++ " " ++ entry.text ++ "\n")
    | _ => none)

end Output

end Choreo
