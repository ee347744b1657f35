/-!
# TOML values

The values of a TOML document with the places of the text that they stand at. Tables keep their
entries in document order and remember how they came about, since that decides which later lines may
add to them. A table that no line opens by itself has no place of its own; its key has one.
-/

namespace Choreo.Toml

/-- A stretch of the text, in bytes: the first one and the one after the last. -/
structure Span where
  start : Nat
  stop : Nat
deriving DecidableEq, Repr

/-- The name of an entry and where it stands. -/
structure Key where
  name : String
  span : Span
deriving DecidableEq, Repr

/-- A value without parts. -/
inductive Scalar where
  | text (value : String)
  | integer (value : Int)
  | float (value : Float)
  | boolean (value : Bool)
  /-- A date, a time of day or both. -/
  | moment

/-- How a table came about. -/
inductive Origin where
  /-- Written between braces. -/
  | inline
  /-- Opened by a header of its own; the document itself counts as such a table. -/
  | header
  /-- Named on the way in a longer header. -/
  | implied
  /-- Named on the way in a dotted key. -/
  | dotted
deriving DecidableEq, Repr

/-- A table whose values are of type `α`. -/
structure Table (α : Type) where
  origin : Origin
  span : Option Span
  entries : List (Key × α)

/-- A value of a document. -/
inductive Value where
  | scalar (span : Span) (value : Scalar)
  | array (span : Span) (items : List Value)
  | table (table : Table Value)
  /-- The tables that headers in double brackets open under one name. -/
  | tables (items : List (Table Value))

namespace Table

/-- A table that no line opens by itself. -/
def unplaced (origin : Origin) : Table α := ⟨origin, none, []⟩

/-- Whether a longer header or a dotted key alone brought the table about. -/
def isImplicit (t : Table α) : Bool := t.origin = .implied || t.origin = .dotted

/-- The value under a name. -/
def get? (t : Table α) (name : String) : Option α :=
  (t.entries.find? fun e => e.1.name = name).map (·.2)

/-- The table with one more entry at the end. -/
def append (t : Table α) (key : Key) (value : α) : Table α :=
  { t with entries := t.entries ++ [(key, value)] }

/-- The table with another value under a name that it has. -/
def replace (t : Table α) (name : String) (value : α) : Table α :=
  { t with entries := t.entries.map fun (k, v) => if k.name = name then (k, value) else (k, v) }

/-- The table without the entry of the given name. -/
def erase (t : Table α) (name : String) : Table α :=
  { t with entries := t.entries.filter fun e => e.1.name ≠ name }

end Table

namespace Value

/-- The stretch from the first of some tables to the last. -/
def spanOfTables : List (Table Value) → Option Span
  | [] => none
  | t :: rest => do
    let first ← t.span
    let last ← (rest.getLastD t).span
    some ⟨first.start, last.stop⟩

/-- The place of a value, if it has one of its own. -/
def span? : Value → Option Span
  | .scalar span _ | .array span _ => some span
  | .table t => t.span
  | .tables items => spanOfTables items

end Value

end Choreo.Toml
