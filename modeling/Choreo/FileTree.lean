import Choreo.Text.Lines

/-!
# Trees of files

The files that a command works on: texts, files that are no text, and directories. A path leads from
the working directory downward by names separated by slashes; dots stand for the directory itself
and for the one above. What a read or a write cannot do it says the way an operating system does.
-/

namespace Choreo

/-- A file, perhaps one that is no text, or a directory of named entries. -/
inductive FileTree where
  | file (text : Option String)
  | directory (entries : List (String × FileTree))

/-- Why a file cannot be read or written. -/
inductive FileFault where
  | notFound
  | notDirectory
  | isDirectory
  | noText
deriving DecidableEq, Repr

def FileFault.message : FileFault → String
  | .notFound => "No such file or directory (os error 2)"
  | .notDirectory => "Not a directory (os error 20)"
  | .isDirectory => "Is a directory (os error 21)"
  | .noText => "stream did not contain valid UTF-8"

namespace FileTree

/-- The names of a path. A slash at the start is a name of its own, that of the topmost
directory. -/
def names (path : String) : List String :=
  match path.toList with
  | '/' :: rest => "/" :: (pieces '/' rest).map String.ofList
  | chars => (pieces '/' chars).map String.ofList

/-- The entry of a directory with the given name. -/
def child? (entries : List (String × FileTree)) (name : String) : Option FileTree :=
  entries.lookup name

/-- The names of a path without those that only lead back or stay. -/
def wayOf (path : String) : List String :=
  ((names path).foldl (fun way name =>
    if name = "" || name = "." then way
    else if name = ".." && !way.isEmpty then way.tail
    else name :: way) []).reverse

/-- The names of the way from the working directory after going down `rest` from the directory that
is reached by `way`, last name first. -/
def resolveFrom (root : FileTree) : (way : List (String × FileTree)) → (rest : List String) →
    Except FileFault (List (String × FileTree))
  | way, [] => .ok way
  | way, name :: rest =>
    match ((way.head?.map (·.2)).getD root : FileTree) with
    | .file _ => .error .notDirectory
    | .directory entries =>
      if name = "" || name = "." then resolveFrom root way rest
      else if name = ".." && !way.isEmpty then resolveFrom root way.tail rest
      else match child? entries name with
        | some t => resolveFrom root ((name, t) :: way) rest
        | none =>
          if name = "/" then resolveFrom root ((name, .directory []) :: way) rest
          else .error .notFound

/-- The way from the working directory to what a path names, last name first. -/
def resolve (root : FileTree) (path : String) : Except FileFault (List (String × FileTree)) :=
  if path = "" then .error .notFound else resolveFrom root [] (names path)

/-- What a path names. -/
def find (root : FileTree) (path : String) : Except FileFault FileTree := do
  let way ← root.resolve path
  return (way.head?.map (·.2)).getD root

/-- The text of the file that a path names. -/
def read (root : FileTree) (path : String) : Except FileFault String := do
  match ← root.find path with
  | .file (some text) => return text
  | .file none => throw .noText
  | .directory _ => throw .isDirectory

/-- Whether a path names a file. -/
def isFile (root : FileTree) (path : String) : Bool :=
  match root.find path with
  | .ok (.file _) => true
  | _ => false

/-- The tree with another one put at the end of a way of directories, first name first. -/
def graft (scion : FileTree) : List String → FileTree → FileTree
  | [], _ => scion
  | name :: rest, t =>
    let entries := match t with
      | .directory entries => entries
      | .file _ => []
    let changed := graft scion rest ((child? entries name).getD (.directory []))
    if (child? entries name).isSome then
      .directory (entries.map fun (n, t) => if n = name then (n, changed) else (n, t))
    else .directory (entries ++ [(name, changed)])

/-- The tree after a text is written to the file that a path names, which need not be there yet. -/
def write (root : FileTree) (path text : String) : Except FileFault FileTree := do
  if path = "" then throw .notFound
  let all := names path
  let used := (all.reverse.dropWhile (· = "")).reverse
  let way ← resolveFrom root [] used.dropLast
  let last := used.getLastD ""
  match ((way.head?.map (·.2)).getD root : FileTree) with
  | .file _ => throw .notDirectory
  | .directory entries =>
    if used.length < all.length || last = "." || last = ".." || last = "/" then throw .isDirectory
    else match child? entries last with
      | some (.directory _) => throw .isDirectory
      | _ => return graft (.file (some text)) ((way.reverse.map (·.1)) ++ [last]) root

mutual

/-- All files with their names from the top on, joined by slashes. -/
def files (above : String) : FileTree → List (String × Option String)
  | .file text => [(above, text)]
  | .directory entries => entryFiles above entries

/-- All files of some entries. -/
def entryFiles (above : String) : List (String × FileTree) → List (String × Option String)
  | [] => []
  | (name, t) :: rest =>
    files (if above = "" then name else above ++ "/" ++ name) t ++ entryFiles above rest

end

end FileTree

end Choreo
