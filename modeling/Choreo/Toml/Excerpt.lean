import Choreo.Text.Lines
import Choreo.Toml.Fault

/-!
# Faults with an excerpt

A fault as text together with the line that it starts on and marks under the part of that line that
is at fault.
-/

namespace Choreo.Toml

/-- A character written so many times. -/
def repeated (c : Char) (n : Nat) : String := String.ofList (List.replicate n c)

/-- The fault with the line of the document `source` that it starts on. -/
def Fault.excerpt (f : Fault) (source : String) : String :=
  let line := lineAt (textLines source.toList) f.span.start
  let shown := String.ofList line.chars
  let column := line.column f.span.start
  let number := toString (line.index + 1)
  let gutter := repeated ' ' (number.length + 1)
  let room := byteCount line.chars - column
  let marks := repeated '^' (max 1 (min (f.span.stop - f.span.start) room))
  let blanks := repeated ' ' (column + 1)
  s!"TOML parse error at line {number}, column {column + 1}\n" ++
    s!"{gutter}|\n{number} | {shown}\n{gutter}|{blanks}{marks}\n{f.message}\n"

end Choreo.Toml
