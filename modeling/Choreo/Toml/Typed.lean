import Choreo.Toml.Fault

/-!
# Reading values as what is asked for

Readers for numbers, strings, sequences, variants and records. Every reader gets the place that a
fault is reported at should the value have none of its own: the place of its key. A record is a
table whose entries are read in document order, or an array of its fields in the order of
declaration; the first fault counts, and a field that is missing is noticed last.
-/

namespace Choreo.Toml

/-- A reader of values of type `α`. -/
abbrev Reader (α : Type) := (keySpan : Span) → Value → Except Fault α

namespace Value

/-- The place of a value or, should it have none, of its key. -/
def place (keySpan : Span) (v : Value) : Span := v.span?.getD keySpan

/-- What the value is. -/
def found : Value → Found
  | .scalar _ value => .scalar value
  | .array .. | .tables _ => .sequence
  | .table _ => .map

/-- The fault that the value is not what is asked for. -/
def mismatch (wanted : Wanted) (keySpan : Span) (v : Value) : Except Fault α :=
  .error ⟨.wrongType v.found wanted, v.place keySpan⟩

/-- The elements of an array. -/
def items? : Value → Option (List Value)
  | .array _ items => some items
  | .tables items => some (items.map .table)
  | _ => none

mutual

/-- The number of levels of the value. -/
def height : Value → Nat
  | .scalar .. => 1
  | .array _ items => heights items + 1
  | .table t => tableHeight t + 1
  | .tables items => tableHeights items + 2

/-- The greatest number of levels in a list of values. -/
def heights : List Value → Nat
  | [] => 0
  | v :: rest => max v.height (heights rest)

/-- The greatest number of levels among the values of a table. -/
def tableHeight : Table Value → Nat
  | ⟨_, _, entries⟩ => entryHeights entries

/-- The greatest number of levels in a list of tables. -/
def tableHeights : List (Table Value) → Nat
  | [] => 0
  | t :: rest => max (tableHeight t) (tableHeights rest)

/-- The greatest number of levels in a list of entries. -/
def entryHeights : List (Key × Value) → Nat
  | [] => 0
  | (_, v) :: rest => max v.height (entryHeights rest)

end

end Value

/-! ### Values without parts -/

def readFloatValue : Reader Float := fun keySpan v =>
  match v with
  | .scalar _ (.float x) => .ok x
  | .scalar _ (.integer k) => .ok (Double.ofInt k)
  | _ => v.mismatch .number keySpan

/-- A natural number, which `wanted` tells the use of. -/
def readNat (wanted : Wanted) : Reader Nat := fun keySpan v =>
  match v with
  | .scalar _ (.integer (.ofNat k)) => .ok k
  | .scalar span (.integer k) => .error ⟨.negative k wanted, span⟩
  | _ => v.mismatch wanted keySpan

def readText : Reader String := fun keySpan v =>
  match v with
  | .scalar _ (.text s) => .ok s
  | _ => v.mismatch .text keySpan

def readBoolean : Reader Bool := fun keySpan v =>
  match v with
  | .scalar _ (.boolean b) => .ok b
  | _ => v.mismatch .boolean keySpan

/-! ### Variants -/

/-- Nothing: what may stand under the name of a variant without parts. -/
def readUnit : Reader Unit := fun keySpan v =>
  match v with
  | .scalar _ value => .error ⟨.variantScalar value, v.place keySpan⟩
  | .table ⟨_, _, []⟩ | .array _ [] | .tables [] => .ok ()
  | .table _ | .array .. => .error ⟨.variantParts false, v.place keySpan⟩
  | .tables _ => .error ⟨.variantParts true, v.place keySpan⟩

/-- One of several named variants without parts: its name as a string, or a table with that name as
its one key and nothing below it. -/
def readVariant (ofName? : String → Option α) (names : List String) : Reader α := fun keySpan v =>
  let named (name : String) (span : Span) : Except Fault α :=
    match ofName? name with
    | some a => .ok a
    | none => .error ⟨.unknownVariant name names, span⟩
  match v with
  | .scalar span (.text name) => named name span
  | .table ⟨_, _, []⟩ => .error ⟨.emptyVariant, v.place keySpan⟩
  | .table ⟨_, _, [(key, value)]⟩ => do
    let a ← named key.name key.span
    readUnit (v.place keySpan) value
    return a
  | .table _ => .error ⟨.manyVariants, v.place keySpan⟩
  | _ => .error ⟨.noVariant, v.place keySpan⟩

/-! ### Values with parts -/

def readSequence (read : Reader α) : Reader (List α) := fun keySpan v =>
  match v.items? with
  | some items => items.mapM (read (v.place keySpan))
  | none => v.mismatch .sequence keySpan

/-- A field of records of type `α`. -/
structure RecordField (α : Type) where
  name : String
  /-- Reads the value of the field into a record. -/
  read : α → Reader α

/-- The field whose values are read by `read` and put into a record by `put`. -/
def RecordField.of (name : String) (read : Reader β) (put : α → β → α) : RecordField α :=
  ⟨name, fun a keySpan v => (read keySpan v).map (put a)⟩

/-- How records of type `β` are written, which are read field by field into an `α`. -/
structure RecordForm (α β : Type) where
  name : String
  fields : List (RecordField α)
  /-- The record, or the name of a field that it needs and lacks. -/
  finish : α → Except String β

namespace RecordForm

def fieldNames (form : RecordForm α β) : List String := form.fields.map (·.name)

/-- The one field of a date when it is taken for a record. -/
def momentField : String := "$__toml_private_datetime"

/-- Reads the entries of a table into a record. -/
def readEntries (form : RecordForm α β) (start : α) (entries : List (Key × Value)) :
    Except Fault α :=
  entries.foldlM (fun record (key, value) =>
    match form.fields.find? (·.name = key.name) with
    | some field => field.read record key.span value
    | none => .error ⟨.unknownField key.name form.fieldNames, key.span⟩) start

/-- Reads the elements of an array into a record; those after the last field do not count. -/
def readItems (form : RecordForm α β) (start : α) (span : Span) (items : List Value) :
    Except Fault α :=
  (form.fields.zip items).foldlM (fun record (field, value) => field.read record span value) start

/-- Reads a record, of which `start` gives the values of the fields that are not written. -/
def read (form : RecordForm α β) (start : α) : Reader β := fun keySpan v =>
  let span := v.place keySpan
  match v with
  | .table t => do
    match form.finish (← form.readEntries start t.entries) with
    | .ok record => .ok record
    | .error name => .error ⟨.missingField name, span⟩
  | .scalar _ .moment => .error ⟨.unknownField momentField form.fieldNames, span⟩
  | _ =>
    match v.items? with
    | none => v.mismatch (.record form.name) keySpan
    | some items => do
      match form.finish (← form.readItems start span items) with
      | .ok record => .ok record
      | .error _ => .error ⟨.tooShort items.length form.name form.fields.length, span⟩

end RecordForm

/-- The value of a document under a name, read by `read`. -/
def readUnder (document : Table Value) (name : String) (read : Reader α) :
    Except Fault (Option α) :=
  match document.entries.find? fun e => e.1.name = name with
  | some (key, v) => (read key.span v).map some
  | none => .ok none

end Choreo.Toml
