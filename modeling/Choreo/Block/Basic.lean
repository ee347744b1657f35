import Choreo.Block.Kind
import Choreo.Number.Format

/-!
# Blocks

A block is a kind, the parameters set on it and, for a repeat, its children. `Block.Valid` says what
every block of a program satisfies: it and all blocks below it carry only parameters that their kind
takes, with values of the parameter's domain, and only repeats have children. The operations check
the same conditions and say which one fails.
-/

namespace Choreo

/-- A command to the robot, or a repeat of the blocks below it. -/
structure Block where
  kind : Kind
  settings : Settings
  children : List Block

/-- Why a block cannot be built. -/
inductive BlockError where
  | paramNotApplicable (kind : Kind) (param : Param)
  | nonFiniteParam (param : Param) (value : Float)
  | leafWithChildren (kind : Kind)
  | unknownKind (name : String)
  | unknownParam (name : String)
deriving DecidableEq

namespace BlockError

def message : BlockError → String
  | .paramNotApplicable kind param => s!"block '{kind.name}' has no parameter '{param.name}'"
  | .nonFiniteParam param value =>
    s!"parameter '{param.name}' must be a finite number, got {NumberFormat.plain.write value}"
  | .leafWithChildren kind =>
    s!"block '{kind.name}' is not a container and cannot have children"
  | .unknownKind name => s!"unknown block kind '{name}'"
  | .unknownParam name => s!"unknown parameter '{name}'"

end BlockError

/-- The kind with the given name, or the error that there is none. -/
def Kind.ofName (name : String) : Except BlockError Kind :=
  match Kind.ofName? name with
  | some k => .ok k
  | none => .error (.unknownKind name)

/-- The parameter with the given name, or the error that there is none. -/
def Param.ofName (name : String) : Except BlockError Param :=
  match Param.ofName? name with
  | some p => .ok p
  | none => .error (.unknownParam name)

namespace Settings

/-- The settings of a block of kind `kind` with one value set, which is clamped. A parameter that
the kind does not take is refused before the value is looked at. -/
def set (s : Settings) (kind : Kind) (param : Param) (value : Float) :
    Except BlockError Settings :=
  if kind.accepts param then
    match param.clamp? value with
    | some x => .ok (s.insert param x)
    | none => .error (.nonFiniteParam param value)
  else .error (.paramNotApplicable kind param)

/-- The value of a parameter, which is its default where it is not set. -/
def value (s : Settings) (param : Param) : Float := (s.get? param).getD param.defaultValue

/-- The set parameters as one text, `name=value` for each. -/
def text (s : Settings) : String :=
  " ".intercalate (s.toList.map fun (p, x) => s!"{p.name}={NumberFormat.plain.write x}")

end Settings

namespace Block

/-- A block of the given kind with nothing set. -/
def ofKind (kind : Kind) : Block := ⟨kind, .empty, []⟩

/-- One block of each kind, in vocabulary order. -/
def palette : List Block := Kind.all.map ofKind

def category (b : Block) : Category := b.kind.category

def isContainer (b : Block) : Bool := b.kind.isContainer

/-- The value of a parameter, which is its default where it is not set. -/
def value (b : Block) (param : Param) : Float := b.settings.value param

/-- The block with one parameter set. -/
def set (b : Block) (param : Param) (value : Float) : Except BlockError Block := do
  let settings ← b.settings.set b.kind param value
  return { b with settings }

/-- The block with one more child at the end. -/
def push (b : Block) (child : Block) : Except BlockError Block :=
  if b.isContainer then .ok { b with children := b.children ++ [child] }
  else .error (.leafWithChildren b.kind)

/-- A repeat of the given children. -/
def ofLoop (times : Float) (children : List Block) : Except BlockError Block := do
  let b ← (ofKind .loop).set .times times
  children.foldlM push b

mutual

/-- The number of blocks, the block itself and those below it. -/
def size : Block → Nat
  | ⟨_, _, children⟩ => sizes children + 1

/-- The number of blocks in a list and below it. -/
def sizes : List Block → Nat
  | [] => 0
  | b :: rest => b.size + sizes rest

end

mutual

/-- Equality of blocks is decided block by block. -/
def decEq : (a b : Block) → Decidable (a = b)
  | ⟨k, s, cs⟩, ⟨k', s', cs'⟩ =>
    match decEqList cs cs' with
    | .isTrue hc =>
      if h : k = k' ∧ s = s' then .isTrue (by rw [h.1, h.2, hc])
      else .isFalse fun e => h (by injection e; exact ⟨by assumption, by assumption⟩)
    | .isFalse hc => .isFalse fun e => hc (by injection e)

/-- Equality of lists of blocks is decided block by block. -/
def decEqList : (as bs : List Block) → Decidable (as = bs)
  | [], [] => .isTrue rfl
  | [], _ :: _ => .isFalse nofun
  | _ :: _, [] => .isFalse nofun
  | a :: as, b :: bs =>
    match decEq a b, decEqList as bs with
    | .isTrue h, .isTrue hs => .isTrue (by rw [h, hs])
    | .isFalse h, _ => .isFalse fun e => h (by injection e)
    | _, .isFalse hs => .isFalse fun e => hs (by injection e)

end

instance : DecidableEq Block := decEq

mutual

/-- A block that can stand in a program. -/
def Valid : Block → Prop
  | ⟨kind, settings, children⟩ =>
    (∀ p x, settings.get? p = some x → kind.accepts p ∧ p.Admits x) ∧
    (kind.isContainer = false → children = []) ∧ AllValid children

/-- Every block of the list can stand in a program. -/
def AllValid : List Block → Prop
  | [] => True
  | b :: rest => b.Valid ∧ AllValid rest

end

end Block

end Choreo
