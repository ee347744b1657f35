import Choreo.Number.Literal

/-!
# Lines and strings of TOML

What may stand between the values of a document, and the four forms of a string. Each reader gets
the text from where it stands and gives what it read with the text after it, or nothing if the text
is not of its form. Readers of strings start after the opening quotes.
-/

namespace Choreo.Toml

/-- Whether `c` separates words of one line. -/
def isSpace (c : Char) : Bool := c = ' ' || c = '\t'

def skipSpaces (text : List Char) : List Char := text.dropWhile isSpace

/-- The text after a line end, if it starts with one. -/
def newline? : List Char → Option (List Char)
  | '\n' :: rest | '\r' :: '\n' :: rest => some rest
  | _ => none

/-- Whether `c` may stand in a comment, and unescaped in a string unless it ends it there. -/
def isPlain (c : Char) : Bool := c = '\t' || (0x20 ≤ c.toNat && c.toNat ≠ 0x7F)

/-- The text after a comment, if it starts with one. -/
def skipComment : List Char → List Char
  | '#' :: rest => rest.dropWhile isPlain
  | text => text

/-- The text of the next line, if nothing but spaces and a comment is left of this one. -/
def endLine? (text : List Char) : Option (List Char) :=
  match skipComment (skipSpaces text) with
  | [] => some []
  | rest => newline? rest

/-- The text after spaces, comments and line ends; `fuel` bounds the lines. -/
def skipLinesWithin : (fuel : Nat) → List Char → List Char
  | 0, text => text
  | fuel + 1, text =>
    let rest := skipComment (skipSpaces text)
    match newline? rest with
    | some rest => skipLinesWithin fuel rest
    | none => rest

/-- The text after spaces, comments and line ends. -/
def skipLines (text : List Char) : List Char := skipLinesWithin (text.length + 1) text

/-- The text after blanks and line ends. -/
def skipBlankLines : List Char → List Char
  | '\r' :: '\n' :: rest => skipBlankLines rest
  | '\n' :: rest | ' ' :: rest | '\t' :: rest => skipBlankLines rest
  | text => text

/-! ### Escapes -/

/-- Whether `c` is a digit in base sixteen. -/
def isHexDigit (c : Char) : Bool := isDigit c || ('a' ≤ c && c ≤ 'f') || ('A' ≤ c && c ≤ 'F')

/-- The character that `count` digits in base sixteen name. -/
def readCodePoint (count : Nat) (text : List Char) : Option (Char × List Char) :=
  let digits := text.take count
  if digits.length = count ∧ digits.all isHexDigit then
    let n := digitsValue 16 digits
    if n.isValidChar then some (Char.ofNat n, text.drop count) else none
  else none

/-- The character that an escape stands for, after its backslash. -/
def readEscape : List Char → Option (Char × List Char)
  | 'b' :: rest => some ('\x08', rest)
  | 't' :: rest => some ('\t', rest)
  | 'n' :: rest => some ('\n', rest)
  | 'f' :: rest => some ('\x0C', rest)
  | 'r' :: rest => some ('\r', rest)
  | '"' :: rest => some ('"', rest)
  | '\\' :: rest => some ('\\', rest)
  | 'u' :: rest => readCodePoint 4 rest
  | 'U' :: rest => readCodePoint 8 rest
  | _ => none

/-- The text after a backslash that ends a line and the blank that follows. -/
def skipFold? (text : List Char) : Option (List Char) :=
  (newline? (skipSpaces text)).map skipBlankLines

/-! ### Strings -/

/-- The four forms of a string. -/
structure StringForm where
  quote : Char
  /-- Whether a backslash starts an escape. -/
  escapes : Bool
  /-- Whether line ends may stand in the string, between threefold quotes. -/
  multiline : Bool

/-- The form of the string that the text starts with, and the text after its opening quotes and the
line end that may follow threefold ones. -/
def readOpening : List Char → Option (StringForm × List Char)
  | '"' :: '"' :: '"' :: rest => some (⟨'"', true, true⟩, (newline? rest).getD rest)
  | '\'' :: '\'' :: '\'' :: rest => some (⟨'\'', false, true⟩, (newline? rest).getD rest)
  | '"' :: rest => some (⟨'"', true, false⟩, rest)
  | '\'' :: rest => some (⟨'\'', false, false⟩, rest)
  | _ => none

/-- The rest of a string up to its closing quotes. Of three to five quotes in a row the last three
close a string between threefold ones, fewer belong to it. -/
def readBody (form : StringForm) : (fuel : Nat) → List Char → Option (List Char × List Char)
  | 0, _ => none
  | fuel + 1, text =>
    let continued (piece : List Char) (rest : List Char) :=
      (readBody form fuel rest).map fun (s, rest) => (piece ++ s, rest)
    match text with
    | [] => none
    | c :: rest =>
      if c = form.quote then
        if form.multiline then
          let count := (text.takeWhile (· = c)).length
          let rest := text.dropWhile (· = c)
          if count < 3 then continued (List.replicate count c) rest
          else if count ≤ 5 then some (List.replicate (count - 3) c, rest)
          else none
        else some ([], rest)
      else if c = '\\' && form.escapes then
        match readEscape rest with
        | some (e, rest) => continued [e] rest
        | none => if form.multiline then (skipFold? rest).bind (continued []) else none
      else if isPlain c then continued [c] rest
      else if form.multiline then (newline? text).bind (continued ['\n'])
      else none

/-- A string in any of the four forms. -/
def readString (text : List Char) : Option (String × List Char) := do
  let (form, rest) ← readOpening text
  let (body, rest) ← readBody form (rest.length + 1) rest
  some (String.ofList body, rest)

end Choreo.Toml
