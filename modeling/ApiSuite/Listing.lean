import ApiSuite.Project.Path
import ApiSuite.Request.Document

/-!
# Listings of tests

A listing names the test files of a project, and for each what can be run of it: the requests
of a suite with the lines they stand on, or the steps of a flow in order of execution, those
of subflows before and after the main steps included. Files that cannot be read are listed
with the reason.
-/

namespace ApiSuite

/-- The kinds of test files. -/
inductive TestKind where
  | request
  | flow
  | case
deriving DecidableEq, Repr

/-- Something that can be run. -/
structure TestEntry where
  id : String
  name : String
  path : Option String
  startLine : Option Int
  endLine : Option Int
deriving DecidableEq, Repr

/-- A test file with what can be run of it. -/
structure TestFile where
  path : String
  kind : TestKind
  tests : List TestEntry
deriving DecidableEq, Repr

/-- A test file that cannot be read. -/
structure TestFileError where
  file : String
  message : String
deriving DecidableEq, Repr

/-- The test files under a base. -/
structure Listing where
  base : String
  files : List TestFile
  errors : Option (List TestFileError)
deriving DecidableEq, Repr

/-- The spelling of a kind. -/
def TestKind.name : TestKind → String
  | .request => "request"
  | .flow => "flow"
  | .case => "case"

/-! ### Entries of documents -/

/-- The entry of a request, with the lines it stands on if they are known. -/
def TestEntry.ofKey (ranges : List (String × Yaml.LineRange)) (key : Value) :
    Except Fault TestEntry := do
  let name ← keyText key
  let range := ranges.lookup name
  pure
    { id := name, name, path := none
      startLine := range.map fun r => (r.first : Int)
      endLine := range.map fun r => (r.last : Int) }

/-- The entry of a step; a step of a subflow has the subflow's identifier before its own. -/
def TestEntry.ofStep (subflow : String) (s : Step) : TestEntry :=
  { id := if subflow == "" then s.id else subflow ++ "-" ++ s.id
    name := s.name, path := some s.path, startLine := none, endLine := none }

/-- The entries of the subflows that run in a phase. -/
def Flow.phaseEntries (p : Phase) (f : Flow) : List TestEntry :=
  (f.subflowList.filter fun s => s.phase == some p).flatMap fun s =>
    s.stepList.map (TestEntry.ofStep s.id)

/-- The entries of a flow. -/
def Flow.testEntries (f : Flow) : List TestEntry :=
  f.phaseEntries .before ++ f.steps.map (TestEntry.ofStep "") ++ f.phaseEntries .after

/-- The test file of a request document. -/
def TestFile.ofRequests (here : List String) (base file contents : String) :
    Except Fault TestFile := do
  let (data, ranges) ← Document.loadYamlWithLines (some file) contents
  match data.content? with
  | none => throw (.document (.bad .request file none))
  | some es =>
    let tests ← es.mapM fun e => TestEntry.ofKey ranges e.1
    pure ⟨← relativeToBase here base file, .request, tests⟩

/-- The test file of a flow document. -/
def TestFile.ofFlow (here : List String) (base file contents : String) :
    Except Fault TestFile := do
  let flow ← Flow.ofDocument file contents []
  pure ⟨← relativeToBase here base file, .flow, flow.testEntries⟩

/-! ### Reading and writing -/

open Schema in
/-- An entry. -/
def TestEntry.read : Check TestEntry :=
  record "TestEntry" fun es =>
    TestEntry.mk <$> required "id" text es <*> required "name" text es <*>
      optional "path" text es <*> optional "start_line" wholeNumber es <*>
      optional "end_line" wholeNumber es

open Schema in
/-- A test file. -/
def TestFile.read : Check TestFile :=
  record "TestFile" fun es =>
    TestFile.mk <$> required "path" text es <*>
      required "type" (literal [("request", .request), ("flow", .flow), ("case", .case)]) es <*>
      defaulted "tests" [] (list TestEntry.read) es

open Schema in
/-- A test file that cannot be read. -/
def TestFileError.read : Check TestFileError :=
  record "TestFileError" fun es =>
    TestFileError.mk <$> required "file" text es <*> required "message" text es

open Schema in
/-- A listing. -/
def Listing.read : Check Listing :=
  record "TestFiles" fun es =>
    Listing.mk <$> required "ply_base" text es <*>
      defaulted "files" [] (list TestFile.read) es <*>
      optional "errors" (list TestFileError.read) es

open Schema in
/-- An entry as a value. -/
def TestEntry.toValue (sparse : Bool) (t : TestEntry) : Value :=
  ofRecord sparse
    [("id", .str t.id), ("name", .str t.name), ("path", Value.ofText? t.path),
      ("start_line", ofOption Value.int t.startLine), ("end_line", ofOption Value.int t.endLine)]

open Schema in
/-- A test file as a value. -/
def TestFile.toValue (sparse : Bool) (t : TestFile) : Value :=
  ofRecord sparse
    [("path", .str t.path), ("type", .str t.kind.name),
      ("tests", .list (t.tests.map (TestEntry.toValue sparse)))]

open Schema in
/-- A test file that cannot be read, as a value. -/
def TestFileError.toValue (sparse : Bool) (e : TestFileError) : Value :=
  ofRecord sparse [("file", .str e.file), ("message", .str e.message)]

open Schema in
/-- A listing as a value. -/
def Listing.toValue (sparse : Bool) (l : Listing) : Value :=
  ofRecord sparse
    [("ply_base", .str l.base), ("files", .list (l.files.map (TestFile.toValue sparse))),
      ("errors", ofOption (fun es => .list (es.map (TestFileError.toValue sparse))) l.errors)]

/-! ### As plain text -/

/-- The lines of an entry, in brackets, if they are known. -/
def TestEntry.lineText (t : TestEntry) : String :=
  match t.startLine with
  | none => ""
  | some first =>
    let last := match t.endLine with
      | some n => toString n
      | none => "None"
    "  [" ++ toString first ++ "-" ++ last ++ "]"

/-- The lines that a test file takes in a plain listing. -/
def TestFile.plainLines (t : TestFile) : List String :=
  (t.path ++ " (" ++ t.kind.name ++ ")") ::
    t.tests.map fun e => "  " ++ e.id ++ ": " ++ e.name ++ e.lineText

/-- A listing as plain text: a line for each file, and an indented one for each entry. -/
def Listing.plainText (l : Listing) : String :=
  let errors := (l.errors.getD []).map fun e => "error: " ++ e.file ++ ": " ++ e.message
  "\n".intercalate (("ply base: " ++ l.base) :: l.files.flatMap TestFile.plainLines ++ errors)

end ApiSuite
