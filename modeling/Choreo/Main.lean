import Choreo.CommandLine.Execution
import Choreo.Text.Stamp
import Std.Time.DateTime.Timestamp

/-!
# The program

Takes a picture of the files that a command line names, executes the command line on the picture,
and carries out what comes of it.
-/

namespace Choreo

/-- The paths that a command reads or writes. -/
def Task.paths : Task → List String
  | .run file config .. => file :: config.toList
  | .check file | .tree file => [file]
  | .edit file output _ => file :: output.toList
  | .test path .. => [path]

/-- What there is at a path below a directory: all of it, or of a directory only that it is one. -/
partial def pictureOf (deep : Bool) (path : String) : IO (Option FileTree) := do
  let place := (← IO.currentDir) / path
  if ← place.isDir then
    let entries ← if deep then place.readDir else pure #[]
    let trees ← entries.toList.filterMapM fun e => do
      return (← pictureOf deep e.path.toString).map (e.fileName, ·)
    return some (.directory trees)
  else if ← place.pathExists then
    return some (.file (String.fromUTF8? (← IO.FS.readBinFile place)))
  else return none

/-- The picture with what there is on the way along a path. -/
def addPath (deep : Bool) (files : FileTree) (path : String) : IO FileTree := do
  let way := FileTree.wayOf path
  let mut files := files
  for n in List.range way.length do
    let names := way.take (n + 1)
    if (files.resolveFrom [] names).toOption.isNone then
      if let some found ← pictureOf false ("/".intercalate names) then
        files := found.graft names files
  if deep then
    if let some found ← pictureOf true path then
      files := found.graft way files
  return files

/-- The picture of the files that a command line names. -/
def pictureFor (words : List String) : IO FileTree := do
  let mut files := FileTree.directory []
  if let .ok i := Invocation.ofWords words then
    let deep := match i.task with
      | .test .. => true
      | _ => false
    for path in i.task.paths do
      files ← addPath deep files path
  return files

/-- The time stamp of a log entry that is printed now. -/
def stampNow : IO String := do
  let moment ← Std.Time.Timestamp.now
  return timeStamp (moment.toNanosecondsSinceUnixEpoch.val.toNat / 1000)

/-- Prints a piece of output. -/
def printLine : OutputLine → IO Unit
  | .result text => IO.println text
  | .message text => IO.eprintln text
  | .log entry => do
    let stamp ← stampNow
    IO.eprintln s!"{stamp} {entry.text}"

/-- Prints output, each piece when it is due if it takes its time. -/
def printOutput (realTime : Bool) (output : Output) : IO Unit := do
  let mut passed := 0
  for (time, line) in output do
    if realTime && passed < time then
      IO.sleep (UInt32.ofNat (time - passed))
      passed := time
    printLine line

end Choreo

open Choreo in
/-- Executes the command line. -/
def main (words : List String) : IO UInt32 := do
  let e := Execution.ofWords (← pictureFor words) words
  if let some (path, text) := e.written then
    IO.FS.writeFile path text
  printOutput e.realTime e.output
  return UInt32.ofNat e.code
