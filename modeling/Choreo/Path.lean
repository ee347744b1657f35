import Choreo.Number.Literal
import Choreo.Text.Blank
import Choreo.Text.Lines

/-!
# Paths

A path names a place in a program by sibling indices from the root list downward: `/2/0` is the
first child of the third root block, and the empty path `/` is the root list itself. The text of a
path is read leniently: blanks around it and slashes at its ends do not count.
-/

namespace Choreo

/-- A place in a program, by sibling indices from the root list downward. -/
structure Path where
  indices : List Nat
deriving DecidableEq, Repr

namespace Path

/-- The path of the root list. -/
def root : Path := ⟨[]⟩

def isRoot (p : Path) : Bool := p.indices.isEmpty

def depth (p : Path) : Nat := p.indices.length

/-- The path extended by one sibling index. -/
def child (p : Path) (index : Nat) : Path := ⟨p.indices ++ [index]⟩

/-- The path of the sibling list and the index in it, for a path that is not the root. -/
def split? (p : Path) : Option (Path × Nat) :=
  p.indices.getLast?.map (⟨p.indices.dropLast⟩, ·)

/-- Whether `p` is `q` or lies below it. -/
def startsWith (p q : Path) : Bool := q.indices.isPrefixOf p.indices

/-- Document order: a place comes before those below it, siblings in order. -/
def order (p q : Path) : Ordering := compareLex p.indices q.indices
where
  /-- The order of index lists, first difference first. -/
  compareLex : List Nat → List Nat → Ordering
    | [], [] => .eq
    | [], _ :: _ => .lt
    | _ :: _, [] => .gt
    | i :: is, j :: js => (compare i j).then (compareLex is js)

/-- The characters of the path. -/
def chars (p : Path) : List Char :=
  if p.isRoot then ['/'] else p.indices.flatMap fun i => '/' :: decimalDigits i

/-- The text of the path. -/
def text (p : Path) : String := String.ofList p.chars

instance : ToString Path := ⟨text⟩

/-- The path that a text names, or none if a part of it is no index. -/
def ofChars? (text : List Char) : Option Path :=
  match trimBoth (· = '/') (trimBlank text) with
  | [] => some root
  | trimmed => ((pieces '/' trimmed).mapM fun part => (readNatural part).toOption).map Path.mk

/-- A text that names no path. -/
structure SyntaxError where
  text : String
deriving DecidableEq, Repr

def SyntaxError.message (e : SyntaxError) : String :=
  s!"invalid path '{e.text}': expected slash-separated indices like /2/0"

/-- The path that a text names. -/
def ofText (text : String) : Except SyntaxError Path :=
  match ofChars? text.toList with
  | some p => .ok p
  | none => .error ⟨text⟩

end Path

end Choreo
