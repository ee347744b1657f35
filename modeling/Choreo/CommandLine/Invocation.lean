import Choreo.CommandLine.Grammar
import Choreo.Program.Edit

/-!
# Invocations

The commands of the program and their arguments: running, checking and listing a program file, one
edit of a program file, and running scenarios. `Invocation.ofWords` reads a command line.
-/

namespace Choreo

/-- An edit as a command line gives it; of an inserted block only the kind and the parameters. -/
inductive EditRequest where
  | insert (parent : Path) (index : Nat) (kind : Kind) (params : List (Param × Float))
  | remove (parent : Path) (index : Nat)
  | move (source dest : Path) (index : Nat)
  | reorder (parent : Path) (source target : Nat)
  | set (path : Path) (param : Param) (value : Float)

/-- The edit that is asked for. -/
def EditRequest.toEdit : EditRequest → Except BlockError Edit
  | .insert parent index kind params => do
    let b ← params.foldlM (fun b (param, value) => b.set param value) (Block.ofKind kind)
    return .insert parent index b
  | .remove parent index => .ok (.remove parent index)
  | .move source dest index => .ok (.move source dest index)
  | .reorder parent source target => .ok (.reorder parent source target)
  | .set path param value => .ok (.set path param value)

/-- What the program is asked to do. -/
inductive Task where
  | run (file : String) (config : Option String) (disconnected simulate quiet : Bool)
  | check (file : String)
  | tree (file : String)
  | edit (file : String) (output : Option String) (request : EditRequest)
  | test (path : String) (categories : List String) (listOnly : Bool)

/-- A command line that was understood. -/
structure Invocation where
  noColor : Bool
  /-- How many times more words were asked for. -/
  verbosity : Nat
  task : Task

namespace Invocation

/-! ### The grammar -/

/-- The arguments that every command takes. -/
def sharedArgs : List NamedArg :=
  [{ long := "no-color" }, { long := "verbose", short := some 'v', repeatable := true }]

def fileArg : PositionalArg := ⟨"FILE", .text⟩

def parentArg : PositionalArg := ⟨"PARENT", .path⟩

def indexArg : PositionalArg := ⟨"INDEX", .index⟩

/-- The commands below the one for edits. -/
def editForms : List CommandForm :=
  [.mk "insert" "Insert a new block under PARENT at INDEX"
      ({ long := "param", short := some 'p', value := some ("PARAMS", .assignment),
         repeatable := true } :: sharedArgs)
      [parentArg, indexArg, ⟨"KIND", .kind⟩] [],
    .mk "remove" "Remove the block at INDEX under PARENT" sharedArgs [parentArg, indexArg] [],
    .mk "move" "Move the block at FROM to DEST_INDEX under DEST_PARENT" sharedArgs
      [⟨"FROM", .path⟩, ⟨"DEST_PARENT", .path⟩, ⟨"DEST_INDEX", .index⟩] [],
    .mk "reorder" "Move a block within one sibling list" sharedArgs
      [parentArg, ⟨"FROM", .index⟩, ⟨"TO", .index⟩] [],
    .mk "set" "Set a parameter on the block at PATH" sharedArgs
      [⟨"PATH", .path⟩, ⟨"PARAM", .param⟩, ⟨"VALUE", .number⟩] []]

/-- The grammar of the command line. -/
def form : CommandForm :=
  .mk "botblocks" "Block program editor and interpreter" sharedArgs []
    [.mk "run" "Run a block program, printing each command as JSON"
        ([{ long := "config", short := some 'c', value := some ("CONFIG", .text) },
          { long := "disconnected" }, { long := "simulate" },
          { long := "quiet", short := some 'q' }] ++ sharedArgs) [fileArg] [],
      .mk "check" "Parse and validate a program file" sharedArgs [fileArg] [],
      .mk "tree" "Print the program tree with paths" sharedArgs [fileArg] [],
      .mk "edit" "Apply one structural edit to a program file"
        ({ long := "output", short := some 'o', value := some ("OUTPUT", .text) } :: sharedArgs)
        [fileArg] editForms,
      .mk "test" "Run .test.toml scenario files"
        ([{ long := "category", short := some 'c', value := some ("CATEGORY", .text),
            repeatable := true },
          { long := "list-categories" }] ++ sharedArgs) [⟨"PATH", .text⟩] []]

/-- The version of the program. -/
def version : String := "0.1.0"

/-! ### From arguments to tasks -/

/-- The texts given for an argument. -/
def textsOf (g : GivenArgs) (name : String) : List String :=
  (g.valuesOf name).filterMap fun
    | .text s => some s
    | _ => none

/-- The edit that the arguments of a command below the one for edits ask for. -/
def editRequest? (command : String) (g : GivenArgs) : Option EditRequest :=
  let positional : List ArgValue := (g.values.filter fun v => v.1 ≠ "param").map (·.2)
  match command, positional with
  | "insert", [.path parent, .index index, .kind kind] =>
    some (.insert parent index kind ((g.valuesOf "param").filterMap fun
      | .assignment p x => some (p, x)
      | _ => none))
  | "remove", [.path parent, .index index] => some (.remove parent index)
  | "move", [.path source, .path dest, .index index] => some (.move source dest index)
  | "reorder", [.path parent, .index source, .index target] =>
    some (.reorder parent source target)
  | "set", [.path path, .param param, .number value] => some (.set path param value)
  | _, _ => none

/-- The task of a parsed line. -/
def task? : ParsedLine → Option Task
  | [_, ("run", g)] => do
    let file ← (textsOf g "FILE").head?
    some (.run file (textsOf g "config").head? (g.count "disconnected" ≠ 0)
      (g.count "simulate" ≠ 0) (g.count "quiet" ≠ 0))
  | [_, ("check", g)] => (textsOf g "FILE").head?.map .check
  | [_, ("tree", g)] => (textsOf g "FILE").head?.map .tree
  | [_, ("edit", g), (command, h)] => do
    let file ← (textsOf g "FILE").head?
    some (.edit file (textsOf g "output").head? (← editRequest? command h))
  | [_, ("test", g)] => do
    let path ← (textsOf g "PATH").head?
    some (.test path (textsOf g "category") (g.count "list-categories" ≠ 0))
  | _ => none

/-- How many more words a line asks for: as often as the innermost command that asks for them. -/
def verbosityOf (line : ParsedLine) : Nat :=
  ((line.map fun (_, g) => g.count "verbose").filter (· ≠ 0)).getLastD 0

/-- The invocation that a command line stands for. -/
def ofWords (words : List String) : Except ParseStop Invocation := do
  let line ← form.parse words
  match task? line with
  | some task =>
    return ⟨line.any fun (_, g) => g.count "no-color" ≠ 0, verbosityOf line, task⟩
  | none => throw (.fault .missingArguments)

end Invocation

end Choreo
