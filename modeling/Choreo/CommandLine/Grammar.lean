import Choreo.Block.Basic
import Choreo.Path
import Choreo.Text.Similarity

/-!
# Command line grammars

A command takes named arguments, each with a value or as a mere flag, positional arguments in order,
and perhaps one of several subcommands, which read the rest of the line. `CommandForm.parse` reads a
line by such a grammar. A word that names a subcommand starts it wherever it stands, unless it is
the value of a named argument or comes after `--`.

Values are read when the next argument begins, so that a word which is no argument at all is refused
before the value in front of it.
-/

namespace Choreo

/-- What the value of an argument stands for. -/
inductive ValueForm where
  | text
  | path
  | index
  | kind
  | param
  | number
  /-- A parameter and its value, with an equals sign between. -/
  | assignment

/-- The value of an argument. -/
inductive ArgValue where
  | text (s : String)
  | path (p : Path)
  | index (n : Nat)
  | kind (k : Kind)
  | param (p : Param)
  | number (x : Float)
  | assignment (p : Param) (x : Float)

namespace ArgValue

/-- Reads a parameter, an equals sign and a number, with blanks around each; otherwise tells what is
wrong. -/
def readAssignment (word : String) : Except String ArgValue :=
  let chars := word.toList
  match chars.dropWhile (· ≠ '=') with
  | [] => .error s!"expected NAME=VALUE, got '{word}'"
  | _ :: value => do
    let name := String.ofList (trimBlank (chars.takeWhile (· ≠ '=')))
    let p ← (Param.ofName name).mapError (·.message)
    let x ← (readNumber (trimBlank value)).mapError fun fault =>
      s!"invalid value for {p.name}: {fault.message}"
    return .assignment p x

/-- Reads a value of the given form, or tells what is wrong with the word. -/
def read (form : ValueForm) (word : String) : Except String ArgValue :=
  match form with
  | .text => .ok (.text word)
  | .path => ((Path.ofText word).map .path).mapError (·.message)
  | .index => ((readNatural word.toList).map .index).mapError (·.message)
  | .kind => ((Kind.ofName word).map .kind).mapError (·.message)
  | .param => ((Param.ofName word).map .param).mapError (·.message)
  | .number => ((readNumber word.toList).map .number).mapError (·.message)
  | .assignment => readAssignment word

end ArgValue

/-! ### Grammars -/

/-- A named argument. -/
structure NamedArg where
  long : String
  short : Option Char := none
  /-- The name and the form of its value, unless it is a flag. -/
  value : Option (String × ValueForm) := none
  /-- Whether it may be given more than once. -/
  repeatable : Bool := false

/-- The argument as messages name it. -/
def NamedArg.label (a : NamedArg) : String :=
  match a.value with
  | some (name, _) => s!"--{a.long} <{name}>"
  | none => if a.repeatable then s!"--{a.long}..." else s!"--{a.long}"

/-- A positional argument. -/
structure PositionalArg where
  name : String
  form : ValueForm

/-- The argument as messages name it. -/
def PositionalArg.label (a : PositionalArg) : String := s!"<{a.name}>"

/-- A command and what it takes. -/
inductive CommandForm where
  | mk (name about : String) (named : List NamedArg) (positional : List PositionalArg)
    (commands : List CommandForm)

namespace CommandForm

def name : CommandForm → String
  | mk name .. => name

def about : CommandForm → String
  | mk _ about .. => about

def named : CommandForm → List NamedArg
  | mk _ _ named .. => named

def positional : CommandForm → List PositionalArg
  | mk _ _ _ positional _ => positional

def commands : CommandForm → List CommandForm
  | mk _ _ _ _ commands => commands

end CommandForm

/-! ### What comes of a line -/

/-- Why a line is refused. -/
inductive UsageFault where
  | unexpectedArgument (word : String)
  | unknownCommand (word : String)
  | unexpectedValue (value label : String)
  | missingValue (label : String)
  | invalidValue (value label reason : String)
  | repeatedArgument (label : String)
  | missingCommand (command : String)
  | missingArguments

def UsageFault.message : UsageFault → String
  | .unexpectedArgument word => s!"unexpected argument '{word}' found"
  | .unknownCommand word => s!"unrecognized subcommand '{word}'"
  | .unexpectedValue value label =>
    s!"unexpected value '{value}' for '{label}' found; no more were expected"
  | .missingValue label => s!"a value is required for '{label}' but none was supplied"
  | .invalidValue value label reason => s!"invalid value '{value}' for '{label}': {reason}"
  | .repeatedArgument label => s!"the argument '{label}' cannot be used multiple times"
  | .missingCommand command =>
    s!"'{command}' requires a subcommand but one was not provided"
  | .missingArguments => "the following required arguments were not provided:"

/-- Why a line gives no arguments to go on with. -/
inductive ParseStop where
  | fault (fault : UsageFault)
  /-- Nothing was given: the command explains itself. -/
  | empty (about : String)
  /-- The line asks for help. -/
  | help (about : String)
  /-- The line asks for the version. -/
  | version

/-- The arguments given to a command. -/
structure GivenArgs where
  /-- The values of the arguments, by their names, in order. -/
  values : List (String × ArgValue) := []
  /-- The flags, each as often as it was given. -/
  flags : List String := []

namespace GivenArgs

/-- The values of an argument. -/
def valuesOf (g : GivenArgs) (name : String) : List ArgValue :=
  (g.values.filter (·.1 = name)).map (·.2)

/-- How often a flag was given. -/
def count (g : GivenArgs) (name : String) : Nat := g.flags.count name

end GivenArgs

/-- The arguments of a command and of the subcommands on the way, outermost first. -/
abbrev ParsedLine := List (String × GivenArgs)

/-! ### Reading -/

/-- An argument whose value is not read yet. -/
inductive PendingArg where
  | named (arg : NamedArg) (valueName : String) (form : ValueForm) (word : Option String)
  | positional (arg : PositionalArg) (word : String)

/-- The arguments of one command while the line is read. -/
structure ArgState where
  given : GivenArgs := {}
  pending : Option PendingArg := none
  /-- The positional arguments that are still to come. -/
  expected : List PositionalArg
  /-- Whether `--` was read. -/
  literal : Bool := false

namespace ArgState

/-- The word of a pending argument read as its value. -/
def take (s : ArgState) (name label : String) (form : ValueForm) (word : String) :
    Except UsageFault ArgState :=
  match ArgValue.read form word with
  | .error reason => .error (.invalidValue word label reason)
  | .ok value =>
    .ok { s with pending := none, given.values := s.given.values ++ [(name, value)] }

/-- Reads the pending argument, if there is one. -/
def settle (s : ArgState) : Except UsageFault ArgState :=
  match s.pending with
  | none => .ok s
  | some (.positional arg word) => s.take arg.name arg.label arg.form word
  | some (.named arg _ _ none) => .error (.missingValue arg.label)
  | some (.named arg _ form (some word)) =>
    if !arg.repeatable && !(s.given.valuesOf arg.long).isEmpty then
      .error (.repeatedArgument arg.label)
    else s.take arg.long arg.label form word

/-- Whether the next word is the value of a named argument. -/
def awaitsValue (s : ArgState) : Bool :=
  match s.pending with
  | some (.named _ _ _ none) => true
  | _ => false

/-- The state with a flag given. -/
def addFlag (s : ArgState) (arg : NamedArg) : Except UsageFault ArgState := do
  let s ← s.settle
  if !arg.repeatable && s.given.flags.contains arg.long then
    throw (.repeatedArgument arg.label)
  return { s with given.flags := s.given.flags ++ [arg.long] }

/-- The state with a named argument begun, its value attached to it or in the next word. -/
def addNamed (s : ArgState) (arg : NamedArg) (valueName : String) (form : ValueForm)
    (attached : Option String) : Except UsageFault ArgState := do
  let s ← s.settle
  let s := { s with pending := some (.named arg valueName form attached) }
  if attached.isSome then s.settle else return s

end ArgState

/-- The help that every command offers. -/
def helpArg : NamedArg := { long := "help", short := some 'h' }

/-- The version that the outermost command offers. -/
def versionArg : NamedArg := { long := "version", short := some 'V' }

namespace CommandForm

/-- Whether anything says what the command is to do. -/
def hasCommands (c : CommandForm) : Bool := !c.commands.isEmpty

/-- The named arguments with those that every command has. -/
def allNamed (c : CommandForm) (outermost : Bool) : List NamedArg :=
  c.named ++ helpArg :: if outermost then [versionArg] else []

/-- The state after a named argument of the command, or why reading stops there. -/
def addArg (c : CommandForm) (s : ArgState) (arg : NamedArg) (attached : Option String) :
    Except ParseStop ArgState :=
  match arg.value, attached with
  | some (name, form), _ => (s.addNamed arg name form attached).mapError .fault
  | none, some value => .error (.fault (.unexpectedValue value arg.label))
  | none, none => do
    if arg.long = helpArg.long then
      let _ ← s.settle.mapError .fault
      throw (.help c.about)
    else if arg.long = versionArg.long then
      let _ ← s.settle.mapError .fault
      throw .version
    else (s.addFlag arg).mapError .fault

/-- The state after a word that starts with two dashes, of which `word` is the rest. -/
def addLong (c : CommandForm) (outermost : Bool) (s : ArgState) (word : List Char) :
    Except ParseStop ArgState :=
  let name := String.ofList (word.takeWhile (· ≠ '='))
  let attached := match word.dropWhile (· ≠ '=') with
    | _ :: value => some (String.ofList value)
    | [] => none
  match (c.allNamed outermost).find? (·.long = name) with
  | some arg => c.addArg s arg attached
  | none => .error (.fault (.unexpectedArgument s!"--{name}"))

/-- The state after the letters of a word that starts with one dash. The rest of the word after a
letter that takes a value is the value, perhaps after an equals sign. -/
def addShort (c : CommandForm) (outermost : Bool) (s : ArgState) :
    List Char → Except ParseStop ArgState
  | [] => .ok s
  | letter :: rest =>
    match (c.allNamed outermost).find? (·.short = some letter) with
    | none => .error (.fault (.unexpectedArgument s!"-{letter}"))
    | some arg =>
      if arg.value.isSome then
        c.addArg s arg (match rest with
          | [] => none
          | '=' :: value => some (String.ofList value)
          | value => some (String.ofList value))
      else do
        let s ← c.addArg s arg none
        c.addShort outermost s rest

/-- How alike two words must be for one to be taken for a slip of the other. -/
def slipThreshold : Float := 0.7

/-- Why a word that no positional argument is left for is refused. -/
def refuse (c : CommandForm) (literal : Bool) (word : String) : UsageFault :=
  let names := "help" :: c.commands.map (·.name)
  if literal && c.hasCommands && names.contains word then .unexpectedArgument word
  else if c.hasCommands && (c.positional.isEmpty ||
      names.any fun name => slipThreshold < similarity word name) then .unknownCommand word
  else .unexpectedArgument word

/-- The state after a positional word. -/
def addPositional (c : CommandForm) (s : ArgState) (word : String) :
    Except ParseStop ArgState :=
  match s.expected with
  | [] => .error (.fault (c.refuse s.literal word))
  | arg :: expected => do
    let s ← s.settle.mapError .fault
    return { s with pending := some (.positional arg word), expected }

/-- The state after a word that starts no subcommand. -/
def addWord (c : CommandForm) (outermost : Bool) (s : ArgState) (word : String) :
    Except ParseStop ArgState :=
  if s.literal then c.addPositional s word
  else match word.toList with
    | ['-', '-'] => .ok { s with literal := true }
    | '-' :: '-' :: rest => c.addLong outermost s rest
    | '-' :: c' :: rest => c.addShort outermost s (c' :: rest)
    | _ =>
      match s.pending with
      | some (.named arg name form none) =>
        .ok { s with pending := some (.named arg name form (some word)) }
      | _ => c.addPositional s word

/-- The arguments of a command once its part of the line is read. -/
def close (c : CommandForm) (title : String) (s : ArgState) (hasCommand : Bool) :
    Except ParseStop GivenArgs := do
  let s ← s.settle.mapError .fault
  if c.hasCommands && !hasCommand then
    if s.given.values.isEmpty && s.given.flags.isEmpty then throw (.empty c.about)
    else throw (.fault (.missingCommand title))
  if !s.expected.isEmpty then throw (.fault .missingArguments)
  return s.given

/-- What comes of a request for help about the subcommand that some words lead to. -/
def helpAbout : List String → CommandForm → ParseStop
  | [], c => .help c.about
  | word :: rest, c =>
    match c.commands.find? (·.name = word) with
    | some sub => helpAbout rest sub
    | none =>
      if c.hasCommands && word = "help" then .help c.about else .fault (.unknownCommand word)

/-- Reads the words of a line for the command, which is called `title` with those outside it. -/
def parseFrom : List String → (c : CommandForm) → (title : String) → (outermost : Bool) →
    ArgState → Except ParseStop ParsedLine
  | [], c, title, _, s => do return [(c.name, ← c.close title s false)]
  | word :: rest, c, title, outermost, s =>
    let isCommand := !s.literal && !s.awaitsValue
    match if isCommand then c.commands.find? (·.name = word) else none with
    | some sub => do
      let inner ← parseFrom rest sub s!"{title} {word}" false { expected := sub.positional }
      return (c.name, ← c.close title s true) :: inner
    | none => do
      if isCommand && c.hasCommands && word = "help" then throw (helpAbout rest c)
      let s ← c.addWord outermost s word
      parseFrom rest c title outermost s

/-- Reads the words of a line. -/
def parse (c : CommandForm) (words : List String) : Except ParseStop ParsedLine :=
  parseFrom words c c.name true { expected := c.positional }

end CommandForm

end Choreo
