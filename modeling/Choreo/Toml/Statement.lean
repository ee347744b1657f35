import Choreo.Toml.Table
import Choreo.Toml.Text
import Choreo.Toml.Word
import Choreo.Text.Lines

/-!
# The lines of a document

A document is a sequence of statements: headers, which open a table, and assignments. Places are
counted in bytes from the start of the document; a reader finds the place of what is left from the
size of the whole document. Brackets may be nested to a limit, and so may a key be long.
-/

namespace Choreo.Toml

/-- The stretch of a document of `size` bytes from where `text` is left to where `rest` is. -/
def spanBetween (size : Nat) (text rest : List Char) : Span :=
  ⟨size - byteCount text, size - byteCount rest⟩

/-! ### Keys -/

/-- Whether `c` may stand in a key without quotes. -/
def isKeyChar (c : Char) : Bool := c.isAlphanum || c = '_' || c = '-'

/-- The name that the text starts with. -/
def readName (text : List Char) : Option (String × List Char) :=
  match text.takeWhile isKeyChar with
  | [] => do
    let (form, _) ← readOpening text
    if form.multiline then none else readString text
  | name => some (String.ofList name, text.dropWhile isKeyChar)

/-- One part of a key with the spaces around it. -/
def readKey (size : Nat) (text : List Char) : Option (Key × List Char) := do
  let text := skipSpaces text
  let (name, rest) ← readName text
  some (⟨name, spanBetween size text rest⟩, skipSpaces rest)

/-- The parts of a dotted key, `fuel` at most. -/
def readKeyPath (size : Nat) : (fuel : Nat) → List Char → Option (List Key × List Char)
  | 0, _ => none
  | fuel + 1, text => do
    let (key, rest) ← readKey size text
    match rest with
    | '.' :: rest =>
      let (path, rest) ← readKeyPath size fuel rest
      some (key :: path, rest)
    | _ => some ([key], rest)

/-- The greatest number of parts of a key and of brackets within each other. -/
def depthLimit : Nat := 79

/-- A dotted key as the parts before the last one and the last one. -/
def readDotted (size : Nat) (text : List Char) : Option ((List Key × Key) × List Char) := do
  let (path, rest) ← readKeyPath size depthLimit text
  let last ← path.getLast?
  some ((path.dropLast, last), rest)

/-! ### Values -/

/-- The elements of an array after its opening bracket or a comma. -/
def readItems (readValue : List Char → Option (Value × List Char)) :
    (fuel : Nat) → List Char → Option (List Value × List Char)
  | 0, _ => none
  | fuel + 1, text =>
    match skipLines text with
    | ']' :: rest => some ([], rest)
    | text => do
      let (item, rest) ← readValue text
      match skipLines rest with
      | ',' :: rest =>
        let (items, rest) ← readItems readValue fuel rest
        some (item :: items, rest)
      | ']' :: rest => some ([item], rest)
      | _ => none

/-- A key, an equals sign and a value. -/
def readAssignment (size : Nat) (readValue : List Char → Option (Value × List Char))
    (text : List Char) : Option ((List Key × Key × Value) × List Char) := do
  let ((path, key), rest) ← readDotted size text
  let rest ← readMark '=' rest
  let (value, rest) ← readValue (skipSpaces rest)
  some ((path, key, value), rest)

/-- The entries of a table between braces after the opening one or a comma, added to `table`. -/
def readEntries (size : Nat) (readValue : List Char → Option (Value × List Char)) :
    (fuel : Nat) → Table Value → List Char → Option (Table Value × List Char)
  | 0, _, _ => none
  | fuel + 1, table, text => do
    let ((path, key, value), rest) ← readAssignment size readValue text
    let table ← table.assign path key value
    match skipSpaces rest with
    | ',' :: rest => readEntries size readValue fuel table rest
    | '\x7d' :: rest => some (table, rest)
    | _ => none

/-- A value without brackets. -/
def readScalar (size : Nat) (text : List Char) : Option (Value × List Char) := do
  let (value, rest) ← match readString text with
    | some (s, rest) => some (.text s, rest)
    | none => readWord text
  some (.scalar (spanBetween size text rest) value, rest)

/-- A value with brackets nested at most `depth` deep. -/
def readValue (size : Nat) : (depth : Nat) → List Char → Option (Value × List Char)
  | 0, text => readScalar size text
  | depth + 1, text =>
    match text with
    | '[' :: rest => do
      let (items, rest) ← readItems (readValue size depth) text.length rest
      some (.array (spanBetween size text rest) items, rest)
    | '\x7b' :: rest => do
      let empty : Table Value := .unplaced .inline
      let (table, rest) ← match skipSpaces rest with
        | '\x7d' :: rest => some (empty, rest)
        | _ => readEntries size (readValue size depth) text.length empty rest
      some (.table { table with span := spanBetween size text rest }, rest)
    | _ => readScalar size text

/-! ### Statements -/

/-- One line of a document that says something; values may go over several. -/
inductive Statement where
  /-- A header in single or double brackets. -/
  | header (double : Bool) (path : List Key) (key : Key) (span : Span)
  | assignment (path : List Key) (key : Key) (value : Value)

/-- The statement that the text starts with. -/
def readStatement (size : Nat) (text : List Char) : Option (Statement × List Char) :=
  match text with
  | '[' :: '[' :: rest => do
    let ((path, key), rest) ← readDotted size rest
    let rest ← readMark ']' (← readMark ']' rest)
    some (.header true path key (spanBetween size text rest), rest)
  | '[' :: rest => do
    let ((path, key), rest) ← readDotted size rest
    let rest ← readMark ']' rest
    some (.header false path key (spanBetween size text rest), rest)
  | _ => do
    let ((path, key, value), rest) ← readAssignment size (readValue size depthLimit) text
    some (.assignment path key value, rest)

/-- The statements of a text, each on a line of its own; `fuel` bounds them. -/
def readStatements (size : Nat) : (fuel : Nat) → List Char → Option (List Statement)
  | 0, _ => none
  | fuel + 1, text =>
    match skipLines text with
    | [] => some []
    | text => do
      let (statement, rest) ← readStatement size text
      let rest ← endLine? rest
      let more ← readStatements size fuel rest
      some (statement :: more)

end Choreo.Toml
