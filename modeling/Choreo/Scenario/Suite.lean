import Choreo.Output
import Choreo.Scenario.Basic

/-!
# Suites of scenarios

A suite is a file with a scenario, or a directory of such files, known by the end of their names.
The directory that a file lies in is its category. A suite is run category by category in the order
of the names, files in the order of their paths; then every failure is told, and how many there
were.
-/

namespace Choreo

/-- The end of the name of a file with a scenario. -/
def scenarioSuffix : String := ".test.toml"

/-- The name of a file with a scenario without its end. -/
def scenarioName? (name : String) : Option String :=
  let chars := name.toList
  let suffix := scenarioSuffix.toList
  if suffix.isSuffixOf chars then some (String.ofList (chars.take (chars.length - suffix.length)))
  else none

/-- A file of a suite, by the names that lead to it from what the path of the suite names: none if
that is the file itself. -/
structure SuiteFile where
  names : List String
  text : Option String

/-- The files of one directory of a suite. -/
structure SuiteCategory where
  name : String
  files : List SuiteFile

namespace SuiteFile

/-- The category that the file belongs to: the way to its directory. -/
def category (f : SuiteFile) : String :=
  ("/".intercalate f.names.dropLast).map fun c => if c = '\\' then '/' else c

/-- The path of the file as it is told, under the path of the suite. -/
def path (f : SuiteFile) (root : String) : String :=
  let inside := "/".intercalate f.names
  if f.names.isEmpty then root
  else if root.toList.getLast? = some '/' then root ++ inside
  else root ++ "/" ++ inside

end SuiteFile

/-! ### Finding the files -/

mutual

/-- The files of a suite in a tree that is reached by `way`, last name first. -/
def suiteFiles (way : List String) : FileTree → List SuiteFile
  | .file text =>
    match way with
    | name :: _ => if (scenarioName? name).isSome then [⟨way.reverse, text⟩] else []
    | [] => []
  | .directory entries => suiteEntries way entries

/-- The files of a suite in some entries of a directory that is reached by `way`. -/
def suiteEntries (way : List String) : List (String × FileTree) → List SuiteFile
  | [] => []
  | (name, t) :: rest => suiteFiles (name :: way) t ++ suiteEntries way rest

end

/-- Whether one list of names comes before another or is the same. -/
def namesBefore : List String → List String → Bool
  | [], _ => true
  | _ :: _, [] => false
  | a :: as, b :: bs => a < b || (a = b && namesBefore as bs)

/-- The categories of some files in the order of their names. -/
def categoriesOf (files : List SuiteFile) : List SuiteCategory :=
  let names := ((files.map (·.category)).mergeSort fun a b => !(b < a)).eraseDups
  names.map fun name =>
    ⟨name, (files.filter (·.category = name)).mergeSort fun a b => namesBefore a.names b.names⟩

/-- The categories of the suite in a directory; none if there is no such directory. -/
def discover (root : FileTree) (path : String) : List SuiteCategory :=
  match root.find path with
  | .ok (.directory entries) => categoriesOf (suiteEntries [] entries)
  | _ => []

/-! ### Choosing categories -/

/-- The name of a category as it is told. -/
def categoryLabel (name : String) : String := if name = "" then "(root)" else name

/-- A request without the slashes at its ends. -/
def requestName (request : String) : List Char := trimBoth (· = '/') request.toList

/-- Whether a request asks for a category: for it or for one above it. -/
def requests (request : String) (name : String) : Bool :=
  let wanted := requestName request
  name.toList = wanted || (wanted ++ ['/']).isPrefixOf name.toList

/-- The categories with one more among them, in the order of the names. It takes the place of one of
the same name. -/
def SuiteCategory.into (c : SuiteCategory) : List SuiteCategory → List SuiteCategory
  | [] => [c]
  | d :: rest =>
    if c.name < d.name then c :: d :: rest
    else if c.name = d.name then c :: rest
    else d :: c.into rest

/-- What some requests chose. -/
structure Selection where
  /-- The chosen categories, in the order of their names. -/
  chosen : List SuiteCategory := []
  /-- The requests that are told to have found nothing, in their order. -/
  missed : List String := []

/-- The selection after one more request. The categories that it asks for come among those chosen
before; a request that leaves their number as it is counts as one that found nothing. -/
def Selection.add (all : List SuiteCategory) (s : Selection) (request : String) : Selection :=
  let found := all.filter fun c => requests request c.name
  let chosen := found.foldl (fun chosen c => c.into chosen) s.chosen
  let missed := if chosen.length = s.chosen.length then s.missed ++ [request] else s.missed
  ⟨chosen, missed⟩

/-- The categories that are asked for, which are all if there is no request. -/
def selectCategories (all : List SuiteCategory) (wanted : List String) : Selection :=
  if wanted.isEmpty then { chosen := all } else wanted.foldl (.add all) {}

/-! ### Running scenarios -/

/-- What came of a scenario. -/
structure TestResult where
  /-- The path of the file as it is told. -/
  path : String
  description : Option String
  /-- Why the test failed, if it did. -/
  failure : Option String
  log : List LogEntry

/-- The name of a file at the end of a path. -/
def fileName (path : String) : String :=
  let names := (FileTree.names path).filter fun n => n ≠ "" && n ≠ "."
  names.getLastD ""

/-- What a test is called: its description or the name of its file. -/
def TestResult.label (r : TestResult) : String :=
  match r.description with
  | some text => text
  | none => (scenarioName? (fileName r.path)).getD "?"

/-- Runs a scenario with the program of the same text. -/
def testScenario (s : Scenario) (text : String) :
    List LogEntry × Except ScenarioFault (Option Mismatch) :=
  let program := Program.ofText text
  let parsed := match program with
    | .ok p => [LogEntry.ofFile p.rootCount]
    | .error _ => []
  if s.expectParseError then
    (parsed, .ok (match program with
      | .ok _ => some .acceptedProgram
      | .error _ => none))
  else match program with
    | .error e => (parsed, .ok (some (.refusedProgram e.trimmedMessage)))
    | .ok p =>
      match s.timing.validate with
      | .error fault => (parsed, .error (.timing fault))
      | .ok () =>
        let (result, ended) := s.run p
        let commands := ended.channel.published.toList.map fun c => c.command.text
        (parsed ++ ended.events.toList.map (·.2.entry), .ok (s.verdict result commands))

/-- Tests the file that is told as `path`. -/
def testFile (path : String) (content : Except FileFault String) : TestResult :=
  let failed (fault : ScenarioFault) (log : List LogEntry) : TestResult :=
    ⟨path, none, some fault.message, log⟩
  match content with
  | .error fault => failed (.unreadable fault) []
  | .ok text =>
    match Scenario.ofText text with
    | .error fault => failed fault []
    | .ok s =>
      match testScenario s text with
      | (log, .error fault) => failed fault log
      | (log, .ok mismatch) => ⟨path, s.description, mismatch.map (·.message), log⟩

/-- The text of a file of a suite. -/
def SuiteFile.content (f : SuiteFile) : Except FileFault String :=
  match f.text with
  | some text => .ok text
  | none => .error .noText

/-! ### Telling -/

/-- How a suite is told. -/
structure SuiteStyle where
  colored : Bool
  verbosity : Nat

/-- A text in a colour. -/
def SuiteStyle.paint (style : SuiteStyle) (code text : String) : String :=
  if style.colored then s!"\x1b[{code}m{text}\x1b[0m" else text

/-- The lines of one test. -/
def TestResult.lines (style : SuiteStyle) (r : TestResult) : List OutputLine :=
  let word := match r.failure with
    | none => style.paint "32" "PASS"
    | some _ => style.paint "31" "FAIL"
  Output.logged style.verbosity r.log ++ [.message s!"  {word}  {r.label}"]

/-- The lines that tell a failure. -/
def TestResult.failureLines (r : TestResult) : List OutputLine :=
  match r.failure with
  | none => []
  | some reason =>
    .message "" :: .message s!"  --- {r.path} ---" ::
      (plainLines reason.toList).map fun line => .message ("  " ++ String.ofList line)

/-- What the tests of a suite came to. -/
structure SuiteTally where
  /-- How many tests passed. -/
  passed : Nat := 0
  /-- The tests that failed, in their order. -/
  failures : List TestResult := []

namespace SuiteTally

/-- The tally with one more test. -/
def add (t : SuiteTally) (r : TestResult) : SuiteTally :=
  match r.failure with
  | none => { t with passed := t.passed + 1 }
  | some _ => { t with failures := t.failures ++ [r] }

/-- The tally of some tests. -/
def ofResults (results : List TestResult) : SuiteTally := results.foldl add {}

/-- The line that tells how many tests passed and how many failed. -/
def verdict (style : SuiteStyle) (passed failed : Nat) : String :=
  if failed = 0 then
    let word := style.paint "32" "ok"
    s!"test result: {word}. {passed} passed, 0 failed"
  else
    let word := style.paint "31" "FAILED"
    s!"test result: {word}. {passed} passed, {failed} failed (of {passed + failed})"

/-- The lines that tell the failures. -/
def failureLines (t : SuiteTally) : List OutputLine :=
  if t.failures.isEmpty then []
  else .message "" :: .message "failures:" :: t.failures.flatMap TestResult.failureLines

/-- The last lines of a suite. -/
def lines (style : SuiteStyle) (t : SuiteTally) : List OutputLine :=
  t.failureLines ++ [.message "", .message (verdict style t.passed t.failures.length)]

end SuiteTally

/-- Files that are tested together, under a heading unless there is only one file to test. -/
structure SuiteGroup where
  heading : Option String
  files : List SuiteFile

namespace SuiteGroup

/-- The results of the group, each under the path of the suite. -/
def test (root : String) (g : SuiteGroup) : List TestResult :=
  g.files.map fun f => testFile (f.path root) f.content

/-- The lines of the group: its heading, then those of each test. -/
def lines (style : SuiteStyle) (root : String) (g : SuiteGroup) : List OutputLine :=
  let above := match g.heading with
    | some heading => [.message "", .message (style.paint "1" heading)]
    | none => []
  above ++ (g.test root).flatMap (TestResult.lines style)

end SuiteGroup

/-- The message that there is no scenario. -/
def noScenarios (path : String) : OutputLine :=
  .message s!"no {scenarioSuffix} files found in {path}"

/-- The message that a request asks for nothing. -/
def notFoundLine (all : List SuiteCategory) (request : String) : OutputLine :=
  let wanted := String.ofList (requestName request)
  let labels := ", ".intercalate (all.map fun c => categoryLabel c.name)
  .message s!"warning: category '{wanted}' not found (available: {labels})"

/-- What a suite is going to test. -/
structure SuitePlan where
  /-- What is told before the first test, or if there is nothing to test. -/
  told : List OutputLine
  groups : List SuiteGroup

/-- What there is to test at a path: the file there, or the scenarios below the directory there, of
the requested categories only if there are requests. -/
def planSuite (root : FileTree) (path : String) (wanted : List String) : SuitePlan :=
  match root.find path with
  | .ok (.file text) => ⟨[], [⟨none, [⟨[], text⟩]⟩]⟩
  | _ =>
    let all := discover root path
    if all.isEmpty then ⟨[noScenarios path], []⟩
    else
      let selection := selectCategories all wanted
      let warnings := selection.missed.map (notFoundLine all)
      if selection.chosen.isEmpty then
        ⟨warnings ++ [.message "no matching categories found"], []⟩
      else ⟨warnings, selection.chosen.map fun c => ⟨some (categoryLabel c.name), c.files⟩⟩

/-- Runs the scenarios of a suite, or of the requested categories of it: whether all passed, and
what is told. A suite without scenarios does not pass. -/
def runSuite (style : SuiteStyle) (root : FileTree) (path : String) (wanted : List String) :
    Bool × List OutputLine :=
  let plan := planSuite root path wanted
  if plan.groups.isEmpty then (false, plan.told)
  else
    let tally := SuiteTally.ofResults (plan.groups.flatMap (·.test path))
    (tally.failures.isEmpty,
      plan.told ++ plan.groups.flatMap (·.lines style path) ++ tally.lines style)

/-- The categories of a suite with the number of their files. -/
def listSuite (root : FileTree) (path : String) : List OutputLine :=
  if root.isFile path then [.message "(single file, no categories)"]
  else
    let all := discover root path
    if all.isEmpty then [noScenarios path]
    else .message "available categories:" :: all.map fun c =>
      .message s!"  {categoryLabel c.name} ({c.files.length} tests)"

end Choreo
