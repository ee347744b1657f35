import Choreo.Toml.Value

/-!
# Adding to tables

Which additions to a table are allowed. A name is given once. A dotted key may enter a table only if
no line opened it, and may add an entry only to a table that dotted keys brought about; a header may
enter any table that is not written between braces, and of several tables under one name it enters
the last. Where an addition is not allowed the answer is `none`.
-/

namespace Choreo.Toml.Table

/-- Changes the table that `path` leads to by `f`, bringing about the tables of origin `origin` that
are missing on the way. -/
def alter (origin : Origin) (f : Table Value → Option (Table Value)) :
    List Key → Table Value → Option (Table Value)
  | [], t => f t
  | key :: path, t =>
    match t.get? key.name with
    | none => do
      let child ← alter origin f path (unplaced origin)
      some (t.append key (.table child))
    | some (.table child) =>
      if child.origin = .inline || (origin = .dotted && !child.isImplicit) then none
      else do
        let child ← alter origin f path child
        some (t.replace key.name (.table child))
    | some (.tables items) => do
      let last ← items.getLast?
      let last ← alter origin f path last
      some (t.replace key.name (.tables (items.dropLast ++ [last])))
    | some _ => none

/-- Adds an entry of a new name. -/
def add (key : Key) (value : Value) (t : Table Value) : Option (Table Value) :=
  match t.get? key.name with
  | none => some (t.append key value)
  | some _ => none

/-- Adds the entry that a key, dotted if `path` is not empty, assigns. -/
def assign (path : List Key) (key : Key) (value : Value) (t : Table Value) : Option (Table Value) :=
  alter .dotted (fun t => if !path.isEmpty && t.origin ≠ .dotted then none else t.add key value)
    path t

/-- Puts the table that a header in single brackets opens under `key`. It takes the place of one
that longer headers implied before, and moves to the end of the entries. -/
def put (key : Key) (item : Table Value) (t : Table Value) : Option (Table Value) :=
  match t.get? key.name with
  | none => some (t.append key (.table item))
  | some (.table child) =>
    if child.origin = .implied then some ((t.erase key.name).append key (.table item)) else none
  | some _ => none

/-- Adds one more table to those that headers in double brackets open under `key`. -/
def push (key : Key) (item : Table Value) (t : Table Value) : Option (Table Value) :=
  match t.get? key.name with
  | none => some (t.append key (.tables [item]))
  | some (.tables items) => some (t.replace key.name (.tables (items ++ [item])))
  | some _ => none

/-- The table that `path` leads to. -/
def find? : List Key → Table Value → Option (Table Value)
  | [], t => some t
  | key :: path, t =>
    match t.get? key.name with
    | some (.table child) => find? path child
    | some (.tables items) => items.getLast?.bind (find? path)
    | _ => none

end Choreo.Toml.Table
