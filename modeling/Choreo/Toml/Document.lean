import Choreo.Toml.Statement

/-!
# Documents

The table that the statements of a text build up. Assignments go to the table of the last header, at
first to the document itself. The place of a table reaches from its header to the end of the last
value assigned to it.
-/

namespace Choreo.Toml

/-- The table that assignments go to and where it belongs: the document itself, or under a key of
the table that a path leads to. -/
inductive Place where
  | document
  | under (double : Bool) (path : List Key) (key : Key)

/-- A document in the making. -/
structure Draft where
  /-- What is built already; nothing as long as the document itself is current. -/
  root : Table Value
  /-- The table that assignments go to, not yet part of `root`. -/
  current : Table Value
  place : Place

namespace Draft

/-- The draft of a document without statements. -/
def empty : Draft := ⟨⟨.header, none, []⟩, ⟨.header, none, []⟩, .document⟩

/-- The document with the current table put in its place. -/
def finish (d : Draft) : Option (Table Value) :=
  match d.place with
  | .document => some d.current
  | .under double path key =>
    Table.alter .implied (if double then Table.push key d.current else Table.put key d.current)
      path d.root

/-- The table with its place drawn out to the end of a value assigned to it. -/
def stretch (value : Value) (t : Table Value) : Table Value :=
  { t with span := do
      let span ← t.span
      let last ← value.span?
      some ⟨span.start, last.stop⟩ }

/-- The entries that longer headers gave before to the table that a header in single brackets
opens. -/
def implied (root : Table Value) (path : List Key) (key : Key) : List (Key × Value) :=
  match (root.find? path).bind (·.get? key.name) with
  | some (.table t) => t.entries
  | _ => []

/-- The draft after one more statement. -/
def apply (d : Draft) : Statement → Option Draft
  | .assignment path key value => do
    let current ← d.current.assign path key value
    some { d with current := stretch value current }
  | .header double path key span => do
    let root ← d.finish
    let entries := if double then [] else implied root path key
    some ⟨root, ⟨.header, some span, entries⟩, .under double path key⟩

end Draft

/-- The text of a document without the byte order mark at its start. -/
def dropMark : List Char → List Char
  | '\uFEFF' :: text => text
  | text => text

/-- The table that a text describes, or nothing if it is no document. -/
def read? (text : String) : Option (Table Value) := do
  let chars := text.toList
  let statements ← readStatements (byteCount chars) (chars.length + 1) (dropMark chars)
  let draft ← statements.foldlM Draft.apply .empty
  draft.finish

end Choreo.Toml
