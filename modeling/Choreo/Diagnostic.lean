import Choreo.Text.Blank
import Choreo.Text.Lines
import Choreo.Toml.Value

/-!
# Diagnostics

An error shown with the part of the text that it is about: the message, the place, the lines of the
text with a frame of line numbers, a mark under or around the part, and notes. Of a part that goes
over many lines the middle is left out.
-/

namespace Choreo

/-- An error about a part of a text. -/
structure Diagnostic where
  message : String
  span : Option Toml.Span
  notes : List String

namespace Diagnostic

/-- The frame left of a line without a number. -/
def gutter (width : Nat) : List Char := List.replicate (width + 1) ' '

/-- The frame left of a line with a number. -/
def numbered (width number : Nat) : List Char :=
  let digits := (toString number).toList
  List.replicate (width - digits.length) ' ' ++ digits ++ [' ']

/-- The characters of a line that are shown: those before the blanks that end a line. -/
def visible (line : TextLine) : List Char :=
  let ends (c : Char) := c = '\n' || c = '\r' || c = '\x00'
  (line.chars.reverse.dropWhile ends).reverse

/-- A line as it is shown. -/
def shown (line : TextLine) : List Char := (cells (visible line)).flatMap Cell.shown

/-- The columns that the characters of a line take that start before a byte of it. -/
def columnsBefore (byte : Nat) (line : TextLine) : Nat :=
  ((cells (visible line)).takeWhile (·.byte < byte)).foldl (fun n c => n + c.width) 0

/-- The marks under the part of a line from one byte of it to another. -/
def marks (start stop : Nat) (line : TextLine) : List Char :=
  let chars := visible line
  let one (byte size width : Nat) : List Char :=
    if byte < stop && start < byte + size then List.replicate width '^'
    else if byte < stop then List.replicate width ' '
    else []
  (cells chars).flatMap (fun c => one c.byte c.char.utf8Size c.width) ++ one (byteCount chars) 1 1

/-- The lines shown for a part of one line. -/
def single (width : Nat) (line : TextLine) (span : Toml.Span) : List (List Char) :=
  let start := span.start - line.start
  let stop := max (span.stop - line.start) (start + 1)
  [gutter width ++ ['│'], numbered width (line.index + 1) ++ ['│', ' '] ++ shown line,
    gutter width ++ ['│', ' '] ++ marks start stop line]

/-- How many lines are shown after the first line of a part and before its last. -/
def linesAfterStart : Nat := 3

def linesBeforeEnd : Nat := 1

/-- The lines shown for the first line of a part that goes on. The mark starts beside the line if
only blanks come before the part, and under it otherwise. -/
def opening (width : Nat) (line : TextLine) (span : Toml.Span) : List (List Char) :=
  let start := span.start - line.start
  let blanks := byteCount ((visible line).takeWhile isBlank)
  let source (mark : List Char) := numbered width (line.index + 1) ++ '│' :: mark ++ shown line
  if start ≤ blanks then [source [' ', '╭', ' ']]
  else [source [' ', ' ', ' '],
    gutter width ++ ['│', ' ', '╭'] ++ List.replicate (columnsBefore (start + 1) line) '─' ++ ['^']]

/-- A line shown inside a part. -/
def inner (width : Nat) (line : TextLine) : List Char :=
  numbered width (line.index + 1) ++ ['│', ' ', '│', ' '] ++ shown line

/-- The lines shown for the last line of a part. -/
def closing (width : Nat) (line : TextLine) (span : Toml.Span) : List (List Char) :=
  [inner width line,
    gutter width ++ ['│', ' ', '╰'] ++
      List.replicate (columnsBefore (span.stop - line.start) line) '─' ++ ['^']]

/-- The lines shown for a part that goes from one line to another, with the lines between. A gap of
one line is not worth leaving out. -/
def several (width : Nat) (first last : TextLine) (between : List TextLine) (span : Toml.Span) :
    List (List Char) :=
  let kept := linesAfterStart + linesBeforeEnd
  let middle :=
    if between.length ≤ kept + 1 then between.map (inner width)
    else (between.take linesAfterStart).map (inner width) ++
      [gutter width ++ ['·', ' ', '│']] ++
      (between.drop (between.length - linesBeforeEnd)).map (inner width)
  [gutter width ++ ['│', ' ', ' ']] ++ opening width first span ++ middle ++ closing width last span

/-- The lines of a note. -/
def noteLines (width : Nat) (note : String) : List (List Char) :=
  match plainLines note.toList with
  | [] => []
  | first :: rest =>
    (gutter width ++ ['=', ' '] ++ first) :: rest.map (gutter width ++ [' ', ' '] ++ ·)

/-- The lines of a diagnostic about the text `source` of the file `name`. -/
def lines (d : Diagnostic) (name source : String) : List (List Char) :=
  let all := textLines source.toList
  let notes (width : Nat) := d.notes.flatMap (noteLines width)
  let header := s!"error: {d.message}".toList
  match d.span with
  | none => header :: notes 0 ++ [[]]
  | some span =>
    let first := lineAt all span.start
    let last := lineAt all span.stop
    let width := (toString (last.index + 1)).length
    let column := first.column span.start + 1
    let place := gutter width ++ s!"┌─ {name}:{first.index + 1}:{column}".toList
    let isMulti := first.index ≠ last.index
    let snippet :=
      if isMulti then
        let between := all.filter fun l => first.index < l.index && l.index < last.index
        several width first last between span
      else single width first span
    let border := if d.notes.isEmpty then [] else
      [gutter width ++ if isMulti then ['│', ' ', ' '] else ['│']]
    header :: place :: snippet ++ border ++ notes width ++ [[]]

/-- The text of a diagnostic about the text `source` of the file `name`. -/
def text (d : Diagnostic) (name source : String) : String :=
  String.ofList (['\n'].intercalate (d.lines name source))

end Diagnostic

end Choreo
