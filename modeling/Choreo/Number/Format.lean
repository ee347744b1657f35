import Choreo.Number.Decimal

/-!
# The text of a number

Which digits a number has is decided in `Decimal.shortest`; this module lays them out. A
`NumberFormat` records every decision of one text format, and `NumberFormat.write` applies it.
`writeFixed` writes a number with a set count of places, the digits of the exact value rounded
once.
-/

namespace Choreo

/-- The decisions of one text format for binary numbers. -/
structure NumberFormat where
  /-- Which of two equally near shortest decimals is written. -/
  tie : Tie
  /-- What follows the digits of a number without a fraction. -/
  wholeMark : List Char
  /-- The exponents of the first digit that are written without an exponent part. -/
  positional : Int → Bool
  /-- What stands before a positive exponent. -/
  plus : List Char
  /-- The text of what is no number. -/
  nan : List Char

namespace NumberFormat

/-- Digits with the point at its place, never with an exponent part. -/
def writePositional (wholeMark : List Char) (d : Decimal) : List Char :=
  let digits := decimalDigits d.digits
  if 0 ≤ d.exponent then digits ++ List.replicate d.exponent.toNat '0' ++ wholeMark
  else
    let places := (-d.exponent).toNat
    let padded := List.replicate (places + 1 - digits.length) '0' ++ digits
    padded.take (padded.length - places) ++ '.' :: padded.drop (padded.length - places)

/-- One digit, the rest as a fraction, and the exponent of the first digit. -/
def writeScientific (plus : List Char) (d : Decimal) : List Char :=
  let exponent := d.leadingExponent
  let tail := if exponent < 0 then '-' :: decimalDigits exponent.natAbs
    else plus ++ decimalDigits exponent.natAbs
  match decimalDigits d.digits with
  | [] => []
  | [c] => c :: 'e' :: tail
  | c :: rest => c :: '.' :: rest ++ 'e' :: tail

/-- The text of the magnitude with the given code. -/
def writeMagnitude (style : NumberFormat) (fmt : BinaryFormat) (code : Nat) : List Char :=
  if code = fmt.infinity then "inf".toList
  else
    let d := Decimal.shortest fmt style.tie code
    if d.digits = 0 || style.positional d.leadingExponent then writePositional style.wholeMark d
    else writeScientific style.plus d

/-- The text of a double, as characters. -/
def writeChars (style : NumberFormat) (x : Float) : List Char :=
  if x.isNaN then style.nan
  else
    let text := style.writeMagnitude .double (Double.code x)
    if Double.isNegative x then '-' :: text else text

/-- The text of a double. -/
def write (style : NumberFormat) (x : Float) : String := String.ofList (style.writeChars x)

/-- The text of a single. -/
def writeSingle (style : NumberFormat) (x : Float32) : String :=
  if x.isNaN then String.ofList style.nan
  else
    let text := style.writeMagnitude .single (Single.code x)
    String.ofList (if Single.isNegative x then '-' :: text else text)

/-- Numbers as they stand in messages and listings: never an exponent part, nothing after a whole
number, an exact tie between shortest decimals going up. -/
def plain : NumberFormat := ⟨.up, [], fun _ => true, [], "NaN".toList⟩

/-- Numbers as they stand in log lines: whole numbers keep a fraction, very large and very small
ones get an exponent part. -/
def logged : NumberFormat :=
  ⟨.up, ".0".toList, fun e => -4 ≤ e && e < 16, [], "NaN".toList⟩

/-- Numbers as they stand in program files: never an exponent part, whole numbers keep a
fraction. -/
def filed : NumberFormat := ⟨.up, ".0".toList, fun _ => true, [], "nan".toList⟩

/-- Numbers as they stand in JSON. -/
def json : NumberFormat :=
  ⟨.toEven, ".0".toList, fun e => -5 ≤ e && e < 16, ['+'], "null".toList⟩

end NumberFormat

/-- A number with a set count of places, the exact value rounded to the nearest and ties to even. -/
def writeFixed (places : Nat) (x : Float) : String :=
  if x.isNaN then "NaN"
  else
    let m := Double.magnitude x
    let text :=
      if x.isFinite then
        let d : Decimal := ⟨roundDiv .toEven (m.num * 10 ^ places) m.den, -(places : Int)⟩
        NumberFormat.writePositional [] d
      else "inf".toList
    String.ofList (if Double.isNegative x then '-' :: text else text)

end Choreo
