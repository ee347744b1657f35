import Choreo.Block.Checked
import Choreo.Program.Edit
import Choreo.Toml.Document
import Choreo.Toml.Typed

/-!
# Program files

A program file is a TOML document with a list `blocks`; what else it holds is of no concern here. A
block is a record of its kind, its parameters and its children. Every root block is first read with
all blocks below it and then checked, before the next one is looked at.

`Program.ofText` reads a file, `Program.text` writes one: each block a table under a header of its
own, children after their parent with a longer header.
-/

namespace Choreo

/-- Why a text is no program file. -/
inductive LoadError where
  /-- The text is no TOML document. -/
  | malformed
  /-- A value is not what its place asks for. -/
  | misshapen (fault : Toml.Fault)
  /-- A block does not pass the check; the place is that of the whole list. -/
  | block (error : BlockError) (span : Toml.Span)

namespace LoadError

def message : LoadError → String
  | .malformed => "invalid TOML"
  | .misshapen fault => fault.message
  | .block error _ => error.message

/-- The message without blanks at its ends. -/
def trimmedMessage (e : LoadError) : String := String.ofList (trimBlank e.message.toList)

/-- Where the fault lies. -/
def span? : LoadError → Option Toml.Span
  | .malformed => none
  | .misshapen fault => some fault.span
  | .block _ span => some span

/-- Hints for the reader of the message: the kinds of blocks where it speaks of variants. -/
def notes (e : LoadError) : List String :=
  if occursIn "unknown variant".toList e.trimmedMessage.toList then
    ["block kinds: " ++ ", ".intercalate (Kind.all.map (·.name))]
  else []

end LoadError

/-! ### Reading -/

namespace BlockFile

open Toml

/-- A block of which perhaps not all fields are read yet. -/
structure Draft where
  kind? : Option Kind := none
  settings : Settings := .empty
  children : List Block := []

/-- The fields of a block. -/
def fields (readChild : Reader Block) : List (RecordField Draft) :=
  .of "kind" (readVariant Kind.ofName? (Kind.all.map (·.name)))
      (fun d kind => { d with kind? := some kind }) ::
    Param.all.map (fun p => .of p.name readFloatValue
      fun d x => { d with settings := d.settings.insert p x }) ++
    [.of "children" (readSequence readChild) fun d children => { d with children }]

/-- The block that was read, which needs a kind. -/
def Draft.finish (d : Draft) : Except String Block :=
  match d.kind? with
  | some kind => .ok ⟨kind, d.settings, d.children⟩
  | none => .error "kind"

/-- How a block is written. -/
def form (readChild : Reader Block) : RecordForm Draft Block :=
  ⟨"BlockDef", fields readChild, Draft.finish⟩

/-- Reads a block, unchecked, with the blocks below it down to `depth` levels. -/
def readWithin : (depth : Nat) → Reader Block
  | 0 => fun keySpan v => v.mismatch (.record "BlockDef") keySpan
  | depth + 1 => (form (readWithin depth)).read {}

/-- Reads a block, unchecked. It has no more levels than the value. -/
def read : Reader Block := fun keySpan v => readWithin v.height keySpan v

/-- Reads the list of root blocks. -/
def readAll (keySpan : Span) (v : Value) : Except LoadError (List Block) :=
  let span := v.place keySpan
  match v.items? with
  | none => (v.mismatch .sequence keySpan).mapError .misshapen
  | some items => items.mapM fun item => do
    let b ← (read span item).mapError .misshapen
    b.checked.mapError (.block · span)

/-- The root blocks of a document. -/
def blocksOf (document : Table Value) : Except LoadError (List Block) :=
  match document.entries.find? fun e => e.1.name = "blocks" with
  | some (key, v) => readAll key.span v
  | none => .ok []

end BlockFile

/-- The program in a file. -/
def Program.ofText (text : String) : Except LoadError Program :=
  match Toml.read? text with
  | none => .error .malformed
  | some document => (BlockFile.blocksOf document).map .ofBlocks

/-! ### Writing -/

namespace BlockFile

/-- The line that sets a parameter. -/
def settingLine (p : Param) (x : Float) : List Char :=
  p.name.toList ++ " = ".toList ++ NumberFormat.filed.writeChars x ++ ['\n']

mutual

/-- The lines of a block and of the blocks below it, under headers that start with `path`. -/
def lines (path : List Char) : Block → List Char
  | ⟨kind, settings, children⟩ =>
    "[[".toList ++ path ++ "]]\nkind = \"".toList ++ kind.name.toList ++ "\"\n".toList ++
      settings.toList.flatMap (fun (p, x) => settingLine p x) ++
      childLines (path ++ ".children".toList) children

/-- The lines of the blocks below a block, each block after an empty line. -/
def childLines (path : List Char) : List Block → List Char
  | [] => []
  | b :: rest => '\n' :: lines path b ++ childLines path rest

end

/-- The text of a program file. -/
def chars : List Block → List Char
  | [] => "blocks = []\n".toList
  | b :: rest => lines "blocks".toList b ++ childLines "blocks".toList rest

end BlockFile

/-- The file of a program. -/
def Program.text (p : Program) : String := String.ofList (BlockFile.chars p.toBlocks)

end Choreo
