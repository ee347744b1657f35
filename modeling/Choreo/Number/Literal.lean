import Choreo.Number.Decimal

/-!
# Numbers written as text

The parts of a number text that several grammars share: runs of digits, a digit string read as a
number, and whole number texts as the command line takes them.
-/

namespace Choreo

/-- Whether `c` is one of the ten ASCII digits. -/
def isDigit (c : Char) : Bool := '0' ≤ c && c ≤ '9'

/-- The number that a digit stands for, in bases up to sixteen. -/
def digitValue (c : Char) : Nat :=
  if isDigit c then c.toNat - '0'.toNat
  else if 'a' ≤ c && c ≤ 'f' then c.toNat - 'a'.toNat + 10
  else c.toNat - 'A'.toNat + 10

/-- The number that a string of digits stands for. -/
def digitsValue (base : Nat) (digits : List Char) : Nat :=
  digits.foldl (fun n c => base * n + digitValue c) 0

/-- Why a text is no natural number of 64 bits. -/
inductive NaturalFault where
  | empty
  | invalidDigit
  | tooLarge
deriving DecidableEq, Repr

namespace NaturalFault

def message : NaturalFault → String
  | .empty => "cannot parse integer from empty string"
  | .invalidDigit => "invalid digit found in string"
  | .tooLarge => "number too large to fit in target type"

end NaturalFault

/-- Reads a natural number of 64 bits: ASCII digits after at most one plus sign. -/
def readNatural (text : List Char) : Except NaturalFault Nat :=
  let digits := match text with
    | '+' :: rest => rest
    | _ => text
  match text, digits with
  | [], _ => .error .empty
  | _, [] => .error .invalidDigit
  | _, _ =>
    if digits.all isDigit then
      let n := digitsValue 10 digits
      if n < 2 ^ 64 then .ok n else .error .tooLarge
    else .error .invalidDigit

/-- The decimal with the given digits before and after the point. -/
def Decimal.ofDigits (whole fraction : List Char) (exponent : Int) : Decimal :=
  ⟨digitsValue 10 (whole ++ fraction), exponent - fraction.length⟩

/-- Reads an exponent after its mark: a sign or none, then digits only. -/
def readExponent (text : List Char) : Option Int :=
  let (negative, digits) := match text with
    | '+' :: rest => (false, rest)
    | '-' :: rest => (true, rest)
    | _ => (false, text)
  if digits.isEmpty || !digits.all isDigit then none
  else
    let n : Int := digitsValue 10 digits
    some (if negative then -n else n)

/-- Reads an unsigned decimal: digits with at most one point among or around them, then perhaps an
exponent part. -/
def readDecimal (text : List Char) : Option Decimal :=
  let whole := text.takeWhile isDigit
  let rest := text.dropWhile isDigit
  let (fraction, rest) := match rest with
    | '.' :: more => (more.takeWhile isDigit, more.dropWhile isDigit)
    | _ => ([], rest)
  if whole.isEmpty && fraction.isEmpty then none
  else match rest with
    | [] => some (.ofDigits whole fraction 0)
    | c :: more =>
      if c = 'e' || c = 'E' then (readExponent more).map (.ofDigits whole fraction ·)
      else none

/-- Why a text is no number. -/
inductive NumberFault where
  | empty
  | invalid
deriving DecidableEq, Repr

namespace NumberFault

def message : NumberFault → String
  | .empty => "cannot parse float from empty string"
  | .invalid => "invalid float literal"

end NumberFault

/-- Reads a signed number, which may also be infinite or no number, as a double. -/
def readNumber (text : List Char) : Except NumberFault Float :=
  let (negative, body) := match text with
    | '+' :: rest => (false, rest)
    | '-' :: rest => (true, rest)
    | _ => (false, text)
  let word := String.ofList (body.map Char.toLower)
  if text.isEmpty then .error .empty
  else if word = "inf" || word = "infinity" then
    .ok (Double.ofCode negative BinaryFormat.double.infinity)
  else if word = "nan" then .ok (0.0 / 0.0)
  else match readDecimal body with
    | some d => .ok (d.toDouble negative)
    | none => .error .invalid

end Choreo
