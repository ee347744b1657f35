import Choreo.Toml.Value
import Choreo.Number.Format
import Choreo.Text.Quoted

/-!
# Faults of values

A value of a document that is not what a reader of the document asks for: the fault, the place it is
reported at, and its wording.
-/

namespace Choreo.Toml

/-- What a reader can ask for. -/
inductive Wanted where
  | number
  /-- A natural number of 64 bits: a time. -/
  | natural
  /-- A natural number of 64 bits: a count of things. -/
  | count
  | text
  | boolean
  | sequence
  /-- A value with named fields. -/
  | record (name : String)
deriving DecidableEq, Repr

def Wanted.phrase : Wanted → String
  | .number => "f64"
  | .natural => "u64"
  | .count => "usize"
  | .text => "a string"
  | .boolean => "a boolean"
  | .sequence => "a sequence"
  | .record name => s!"struct {name}"

/-- What a value is, as far as a fault tells. -/
inductive Found where
  | scalar (value : Scalar)
  | sequence
  | map

/-- What is wrong with a value. -/
inductive Cause where
  | wrongType (found : Found) (wanted : Wanted)
  | negative (value : Int) (wanted : Wanted)
  /-- A record written as an array ends before a field that it needs. -/
  | tooShort (length : Nat) (record : String) (fields : Nat)
  | unknownField (name : String) (fields : List String)
  | missingField (name : String)
  | unknownVariant (name : String) (variants : List String)
  /-- Only a string and a table can name a variant. -/
  | noVariant
  | emptyVariant
  | manyVariants
  /-- What a table gives under the name of a variant has no parts. -/
  | variantParts (isTables : Bool)
  | variantScalar (value : Scalar)

/-- A fault with its place. -/
structure Fault where
  cause : Cause
  span : Span

/-! ### Wording -/

/-- The type of a value as one word. -/
def Scalar.typeName : Scalar → String
  | .text _ => "string"
  | .integer _ => "integer"
  | .float _ => "float"
  | .boolean _ => "boolean"
  | .moment => "datetime"

/-- A number as it stands in the wording of a fault: whole numbers keep a fraction. -/
def faultNumber (x : Float) : String :=
  let text := NumberFormat.plain.write x
  if x.isFinite && !text.toList.contains '.' then text ++ ".0" else text

def Found.text : Found → String
  | .scalar (.text s) => s!"string {quoted s}"
  | .scalar (.integer n) => s!"integer `{n}`"
  | .scalar (.float x) => s!"floating point `{faultNumber x}`"
  | .scalar (.boolean b) => s!"boolean `{b}`"
  | .scalar .moment | .map => "map"
  | .sequence => "sequence"

/-- Names between backquotes, separated by commas. -/
def nameList (names : List String) : String :=
  ", ".intercalate (names.map fun name => s!"`{name}`")

def Cause.message : Cause → String
  | .wrongType found wanted => s!"invalid type: {found.text}, expected {wanted.phrase}"
  | .negative value wanted => s!"invalid value: integer `{value}`, expected {wanted.phrase}"
  | .tooShort length record fields =>
    s!"invalid length {length}, expected struct {record} with {fields} elements"
  | .unknownField name fields => s!"unknown field `{name}`, expected one of {nameList fields}"
  | .missingField name => s!"missing field `{name}`"
  | .unknownVariant name variants =>
    s!"unknown variant `{name}`, expected one of {nameList variants}"
  | .noVariant => "wanted string or table"
  | .emptyVariant => "wanted exactly 1 element, found 0 elements"
  | .manyVariants => "wanted exactly 1 element, more than 1 element"
  | .variantParts false => "expected empty table"
  | .variantParts true => "expected empty array"
  | .variantScalar value => s!"expected table, found {value.typeName}"

def Fault.message (f : Fault) : String := f.cause.message

end Choreo.Toml
