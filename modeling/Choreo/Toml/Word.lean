import Choreo.Toml.Value
import Choreo.Number.Literal

/-!
# Values of one word

Numbers, truth values, dates and times. Such a value ends at the next space, line end, comment mark,
comma or closing bracket; only between a date and a time of day may a space stand.
-/

namespace Choreo.Toml

/-! ### Digits -/

/-- The digits of a text in which single underscores may stand between digits. -/
def readDigits (isDigit : Char → Bool) : List Char → Option (List Char)
  | [] => none
  | [c] => if isDigit c then some [c] else none
  | c :: '_' :: rest => if isDigit c then (readDigits isDigit rest).map (c :: ·) else none
  | c :: rest => if isDigit c then (readDigits isDigit rest).map (c :: ·) else none

/-- The sign of a text, if it starts with one, and what follows it. -/
def splitSign : List Char → Bool × List Char
  | '-' :: rest => (true, rest)
  | '+' :: rest => (false, rest)
  | text => (false, text)

/-- The digits before the point of a number: no zero stands before another digit. -/
def readWhole (text : List Char) : Option (List Char) :=
  match readDigits isDigit text with
  | some ('0' :: _ :: _) => none
  | digits => digits

/-! ### Numbers -/

/-- The integer if it has 64 bits. -/
def Scalar.ofInt? (n : Int) : Option Scalar :=
  if -2 ^ 63 ≤ n ∧ n < 2 ^ 63 then some (.integer n) else none

/-- An integer in the given base, of which `isDigit` tells the digits. -/
def readBased (base : Nat) (isDigit : Char → Bool) (text : List Char) : Option Scalar :=
  (readDigits isDigit text).bind fun digits => Scalar.ofInt? (digitsValue base digits)

/-- An integer. Base sixteen, eight and two are marked in front and take no sign. -/
def readInteger : List Char → Option Scalar
  | '0' :: 'x' :: rest =>
    readBased 16 (fun c => isDigit c || ('a' ≤ c && c ≤ 'f') || ('A' ≤ c && c ≤ 'F')) rest
  | '0' :: 'o' :: rest => readBased 8 (fun c => '0' ≤ c && c ≤ '7') rest
  | '0' :: 'b' :: rest => readBased 2 (fun c => c = '0' || c = '1') rest
  | text => do
    let (negative, rest) := splitSign text
    let n : Int := digitsValue 10 (← readWhole rest)
    Scalar.ofInt? (if negative then -n else n)

/-- The exponent after its mark. -/
def readTenPower (text : List Char) : Option Int := do
  let (negative, rest) := splitSign text
  let n : Int := digitsValue 10 (← readDigits isDigit rest)
  some (if negative then -n else n)

/-- A number with a fraction, an exponent part or both. -/
def readDecimalWord (text : List Char) : Option Decimal := do
  let isMark (c : Char) := c = 'e' || c = 'E'
  let mantissa := text.takeWhile fun c => !isMark c
  let exponent ← match text.dropWhile fun c => !isMark c with
    | [] => some 0
    | _ :: rest => readTenPower rest
  let whole ← readWhole (mantissa.takeWhile (· ≠ '.'))
  match mantissa.dropWhile (· ≠ '.') with
  | [] => if mantissa.length = text.length then none else some (.ofDigits whole [] exponent)
  | _ :: fraction => some (.ofDigits whole (← readDigits isDigit fraction) exponent)

/-- A number that is no integer. One that is too large to be finite is refused unless it is
negative. -/
def readFloat (text : List Char) : Option Scalar :=
  let (negative, rest) := splitSign text
  if rest = ['i', 'n', 'f'] then
    some (.float (Double.ofCode negative BinaryFormat.double.infinity))
  else if rest = ['n', 'a', 'n'] then some (.float (0.0 / 0.0))
  else do
    let x := (← readDecimalWord rest).toDouble negative
    if x.isFinite || negative then some (.float x) else none

/-! ### Dates and times -/

/-- A number of just `count` digits from `low` to `high`, and the text after it. -/
def readField (count low high : Nat) (text : List Char) : Option (Nat × List Char) :=
  let digits := text.take count
  let n := digitsValue 10 digits
  if digits.length = count ∧ digits.all isDigit ∧ low ≤ n ∧ n ≤ high then
    some (n, text.drop count)
  else none

/-- The text after `c`. -/
def readMark (c : Char) : List Char → Option (List Char)
  | d :: rest => if c = d then some rest else none
  | [] => none

/-- The number of days of a month. -/
def daysOfMonth (year month : Nat) : Nat :=
  if month = 2 then
    if year % 4 = 0 ∧ (year % 100 ≠ 0 ∨ year % 400 = 0) then 29 else 28
  else if month = 4 ∨ month = 6 ∨ month = 9 ∨ month = 11 then 30
  else 31

/-- The text after a date. -/
def readDate (text : List Char) : Option (List Char) := do
  let (year, rest) ← readField 4 0 9999 text
  let (month, rest) ← readField 2 1 12 (← readMark '-' rest)
  let (_, rest) ← readField 2 1 (daysOfMonth year month) (← readMark '-' rest)
  some rest

/-- The text after a time of day. -/
def readTime (text : List Char) : Option (List Char) := do
  let (_, rest) ← readField 2 0 23 text
  let (_, rest) ← readField 2 0 59 (← readMark ':' rest)
  let (_, rest) ← readField 2 0 60 (← readMark ':' rest)
  match rest with
  | '.' :: fraction =>
    if (fraction.takeWhile isDigit).isEmpty then none else some (fraction.dropWhile isDigit)
  | _ => some rest

/-- The text after the distance of a time from the one of the prime meridian. -/
def readOffset : List Char → Option (List Char)
  | c :: rest =>
    if c = 'Z' || c = 'z' then some rest
    else if c = '+' || c = '-' then do
      let (_, rest) ← readField 2 0 23 rest
      let (_, rest) ← readField 2 0 59 (← readMark ':' rest)
      some rest
    else none
  | [] => none

/-- Whether the text is a time of day with its offset or without. -/
def isTimeOfDate (text : List Char) : Bool :=
  match readTime text with
  | some [] => true
  | some rest => readOffset rest = some []
  | none => false

/-- Whether `c` may stand between a date and a time. -/
def isDateMark (c : Char) : Bool := c = 'T' || c = 't' || c = ' '

/-- Whether the text is a date, a time of day or both. -/
def isMoment (text : List Char) : Bool :=
  match readDate text with
  | some [] => true
  | some (c :: time) => isDateMark c && isTimeOfDate time
  | none => readTime text = some []

/-! ### Words -/

/-- The value that a word stands for. -/
def Scalar.ofWord? (word : List Char) : Option Scalar :=
  if word = ['t', 'r', 'u', 'e'] then some (.boolean true)
  else if word = ['f', 'a', 'l', 's', 'e'] then some (.boolean false)
  else if isMoment word then some .moment
  else (readInteger word).or (readFloat word)

/-- Whether a word ends before `c`. -/
def endsWord (c : Char) : Bool :=
  c = ' ' || c = '\t' || c = '\n' || c = '\r' || c = '#' || c = ',' || c = ']' || c = '\x7d'

/-- The first word of the text, which is a date with the time after it if a digit follows the space
after the date, and the text after the word. -/
def splitWord (text : List Char) : List Char × List Char :=
  let word := text.takeWhile fun c => !endsWord c
  match text.dropWhile fun c => !endsWord c with
  | ' ' :: c :: rest =>
    if isDigit c && readDate word = some [] then
      (word ++ ' ' :: (c :: rest).takeWhile fun c => !endsWord c,
        (c :: rest).dropWhile fun c => !endsWord c)
    else (word, ' ' :: c :: rest)
  | rest => (word, rest)

/-- The value of one word that the text starts with. -/
def readWord (text : List Char) : Option (Scalar × List Char) :=
  let (word, rest) := splitWord text
  (Scalar.ofWord? word).map (·, rest)

end Choreo.Toml
