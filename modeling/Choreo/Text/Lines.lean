import Choreo.Text.Width

/-!
# Lines

Cutting a text at a mark, the lines of a text with the bytes that they start at, and the columns
that the characters of a line take. A tab takes the columns up to the next stop.
-/

namespace Choreo

/-- The pieces of a text between the places where `mark` stands. -/
def pieces (mark : Char) : List Char → List (List Char)
  | [] => [[]]
  | c :: rest =>
    if c = mark then [] :: pieces mark rest
    else match pieces mark rest with
      | [] => [[c]]
      | piece :: more => (c :: piece) :: more

/-- Whether `piece` occurs in `text`. -/
def occursIn (piece : List Char) : List Char → Bool
  | [] => piece.isEmpty
  | c :: rest => piece.isPrefixOf (c :: rest) || occursIn piece rest

/-- The lines of a text without their ends, each a line feed with perhaps a carriage return before
it; after the last line feed no line begins unless there is more text. -/
def plainLines (text : List Char) : List (List Char) :=
  go (pieces '\n' text)
where
  /-- The lines of which all but the last had an end. -/
  go : List (List Char) → List (List Char)
    | [] | [[]] => []
    | [last] => [last]
    | line :: rest =>
      (if line.getLast? = some '\r' then line.dropLast else line) :: go rest

/-- The number of bytes of a text. -/
def byteCount (text : List Char) : Nat := text.foldl (fun n c => n + c.utf8Size) 0

@[simp] theorem byteCount_nil : byteCount [] = 0 := rfl

theorem foldl_utf8Size (text : List Char) (n : Nat) :
    text.foldl (fun n c => n + c.utf8Size) n = n + byteCount text := by
  induction text generalizing n with
  | nil => rfl
  | cons c rest ih =>
    rw [byteCount, List.foldl_cons, List.foldl_cons, ih, ih (0 + c.utf8Size)]
    omega

@[simp] theorem byteCount_cons (c : Char) (rest : List Char) :
    byteCount (c :: rest) = c.utf8Size + byteCount rest := by
  rw [byteCount, List.foldl_cons, foldl_utf8Size, Nat.zero_add]

/-- A line of a text. -/
structure TextLine where
  /-- The place of the line in the text, counted from zero. -/
  index : Nat
  /-- The byte that it starts at. -/
  start : Nat
  /-- Its characters without the line feed. -/
  chars : List Char

/-- The lines of a text, each ended by a line feed but the last. -/
def textLines (text : List Char) : List TextLine := go 0 0 (pieces '\n' text)
where
  /-- The lines from the one with the given index and start on. -/
  go (index start : Nat) : List (List Char) → List TextLine
    | [] => []
    | chars :: rest => ⟨index, start, chars⟩ :: go (index + 1) (start + byteCount chars + 1) rest

/-- The line that a byte lies in. -/
def lineAt (lines : List TextLine) (byte : Nat) : TextLine :=
  (lines.takeWhile (·.start ≤ byte)).getLastD ⟨0, 0, []⟩

/-- The characters of a text that end at a byte or before. -/
def charsBefore (byte : Nat) : List Char → List Char
  | [] => []
  | c :: rest => if c.utf8Size ≤ byte then c :: charsBefore (byte - c.utf8Size) rest else []

/-- The number of characters of a line before a byte of the text. -/
def TextLine.column (line : TextLine) (byte : Nat) : Nat :=
  (charsBefore (byte - line.start) line.chars).length

/-- The distance of two tab stops. -/
def tabWidth : Nat := 4

/-- A character with the byte that it starts at and the columns that it takes. -/
structure Cell where
  byte : Nat
  width : Nat
  char : Char

/-- The characters of a line in their columns, from a byte and a column on. -/
def cellsFrom (byte column : Nat) : List Char → List Cell
  | [] => []
  | c :: rest =>
    let width := if c = '\t' then tabWidth - column % tabWidth else displayWidth c
    ⟨byte, width, c⟩ :: cellsFrom (byte + c.utf8Size) (column + width) rest

/-- The characters of a line in their columns. -/
def cells (line : List Char) : List Cell := cellsFrom 0 0 line

/-- The character as it is shown, a tab as spaces. -/
def Cell.shown (c : Cell) : List Char :=
  if c.char = '\t' then List.replicate c.width ' ' else [c.char]

end Choreo
