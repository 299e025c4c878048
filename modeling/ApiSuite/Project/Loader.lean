import ApiSuite.Listing
import ApiSuite.Project.Options
import ApiSuite.Project.Tree
import ApiSuite.Results
import ApiSuite.Values.Table

/-!
# Loading a project

The documents of a project are loaded from its directory tree. Where many are loaded, one that
cannot be read is noted in the log and passed over, so that it does not keep the others from
being loaded; where one is asked for, what is wrong with it is the answer. Files that are
missing or empty count as not there.
-/

namespace ApiSuite

/-- How a project is loaded: the place of its configuration, its options and the base of its
tests, where these are given from outside; whether suites keep the text they were read from;
and how values are evaluated. -/
structure LoadOptions where
  config : Option String
  options : Option ProjectOptions
  base : Option String
  keepSource : Bool
  values : ValuesOptions

/-- A project: its files, the directory it lies in, and how it is loaded. -/
structure Project where
  tree : Tree
  here : List String
  options : LoadOptions

/-- A text, unless it is empty. -/
def filled? : Option String → Option String
  | some "" => none
  | s => s

namespace Project

/-- The text of a file, none if it is missing or empty. -/
def contents? (p : Project) (path : String) : Except Fault (Option String) :=
  (p.tree.readText? path).map filled?

/-- The files under a directory and its subdirectories that match some patterns. -/
def files (p : Project) (patterns : List String) (directory : String) :
    Except Fault (List (String × String)) :=
  p.tree.readFiles ⟨true, patterns⟩ directory

/-- The entry for a file that cannot be read. -/
def failedEntry (event path : String) (e : Fault) : Log.Entry :=
  .mk .error event [("path", .str path), ("error", .str e.message)]

/-- What a file gives, nothing if it cannot be read, which is noted in the log. -/
def attempt {α : Type} (event path : String) (x : Traced (List α)) : Traced (List α) :=
  x.handleKnown fun e => do
    Traced.tell (failedEntry event path e)
    pure []

/-- What each of some files gives, put together. -/
def collect {α : Type} (read : String → String → Traced (List α)) :
    List (String × String) → Traced (List α)
  | [] => pure []
  | (path, contents) :: files => do
    let first ← read path contents
    let more ← collect read files
    pure (first ++ more)

/-! ### Options -/

/-- The places of a project's configuration, unless one is given. -/
def defaultConfigs : List String := ["plyconfig.yaml", "plyconfig.json"]

/-- The options that the text of a configuration gives. -/
def parseOptions (path contents : String) : Except Fault ProjectOptions := do
  let v ← Document.loadContent contents (some path)
  let config := if v.isVoid then Value.object [] else v
  if !config.isObject then
    throw (.config ⟨"Ply config must be an object: " ++ path, none, .null⟩)
  match ProjectOptions.read config with
  | .valid o => pure o
  | .crashed c => throw (.crash c)
  | .invalid [] => throw (.config ⟨"Invalid ply config " ++ path, none, .null⟩)
  | .invalid (i :: _) =>
    throw (.config ⟨"Invalid ply config " ++ path ++ ": " ++ i.kind.message, some i.path, i.input⟩)

/-- The options of the first configuration that is there. -/
def firstOptions (p : Project) : List String → Traced ProjectOptions
  | [] => pure .default
  | path :: paths => do
    match ← Traced.ofExcept (p.contents? path) with
    | none => p.firstOptions paths
    | some contents => do
      Traced.tell (.mk .info "ply_config_loading" [("path", .str path)])
      Traced.ofExcept (parseOptions path contents)

/-- The options of a project, from the configuration at `config` if one is named. -/
def loadOptions (p : Project) (config : Option String) : Traced ProjectOptions :=
  match p.options.options with
  | some o => pure o
  | none =>
    match (filled? config).or (filled? p.options.config) with
    | some path => p.firstOptions [path]
    | none => p.firstOptions defaultConfigs

/-- The base of a project's tests. -/
def loadBase (p : Project) : Traced String :=
  match filled? p.options.base with
  | some base => pure base
  | none => do
    let o ← p.loadOptions none
    pure (if o.testsLocation == "" then "." else o.testsLocation)

/-! ### Flows -/

/-- The patterns of flow files. -/
def flowPatterns : List String := ["**/*.ply.flow"]

/-- The flow of a file. -/
def readFlow (p : Project) (base path contents : String) : Except Fault Flow := do
  let name ← relativeToBase p.here base path
  let source := if p.options.keepSource then [("source", Value.str contents)] else []
  Flow.ofDocument path contents ([("name", .str name), ("path", .str path)] ++ source)

/-- The flows under a base. -/
def loadFlows (p : Project) (base : String) : Traced (List Flow) := do
  let files ← Traced.ofExcept (p.files flowPatterns base)
  collect (fun path contents =>
    attempt "flow_load_failed" path
      ((Traced.ofExcept (p.readFlow base path contents)).bind fun f => pure [f])) files

/-- The flow at a path. -/
def loadFlow (p : Project) (base path : String) : Except Fault (Option Flow) := do
  match ← p.contents? path with
  | none => pure none
  | some contents => (p.readFlow base path contents).map some

/-! ### Request suites -/

/-- The patterns of request files. -/
def requestPatterns : List String := ["**/*.ply.yaml", "**/*.ply.yml", "**/*.ply"]

/-- The request suite of a file. -/
def readSuite (p : Project) (base path contents : String) : Except Fault RequestSuite := do
  let name ← relativeToBase p.here base path
  let requests ← Request.ofDocument path contents
  pure ⟨name, path, requests, if p.options.keepSource then some contents else none⟩

/-- The request suites under a base. -/
def loadSuites (p : Project) (base : String) : Traced (List RequestSuite) := do
  let files ← Traced.ofExcept (p.files requestPatterns base)
  collect (fun path contents =>
    attempt "request_suite_load_failed" path
      ((Traced.ofExcept (p.readSuite base path contents)).bind fun s => pure [s])) files

/-- The request suite at a path. -/
def loadSuite (p : Project) (base path : String) : Except Fault (Option RequestSuite) := do
  match ← p.contents? path with
  | none => pure none
  | some contents => (p.readSuite base path contents).map some

/-! ### Listings -/

/-- The patterns of case files. -/
def casePatterns : List String := ["**/*.ply.ts"]

/-- A test file, or the reason why it cannot be read. -/
abbrev Listed := TestFile ⊕ TestFileError

/-- The test file of a document, by the ending of its name; case files are passed over. -/
def listFile (p : Project) (base file contents : String) : Traced (List Listed) :=
  if Document.endsWith ".ply.ts" file then pure []
  else
    let read :=
      if Document.endsWith ".ply.flow" file then TestFile.ofFlow p.here base file contents
      else TestFile.ofRequests p.here base file contents
    ((Traced.ofExcept read).bind fun t => pure [Sum.inl t]).handleKnown fun e => do
      Traced.tell (failedEntry "test_file_load_failed" file e)
      pure [Sum.inr ⟨file, e.message⟩]

/-- The test files among what was listed. -/
def listedFiles (found : List Listed) : List TestFile :=
  found.filterMap fun l => match l with
    | .inl t => some t
    | .inr _ => none

/-- The reasons among what was listed. -/
def listedErrors (found : List Listed) : List TestFileError :=
  found.filterMap fun l => match l with
    | .inl _ => none
    | .inr e => some e

/-- The test files under a base, by path. -/
def loadListing (p : Project) (base : String) : Traced Listing := do
  let files ← Traced.ofExcept (p.files (requestPatterns ++ flowPatterns ++ casePatterns) base)
  let found ← collect (p.listFile base) files
  let errors := listedErrors found
  pure
    { base
      files := (listedFiles found).mergeSort fun a b => decide (a.path ≤ b.path)
      errors := if errors.isEmpty then none else some errors }

/-! ### Values and results -/

/-- The holder of a values document. -/
def valuesHolder (path contents : String) : Except Fault ValuesHolder := do
  match ← Document.loadContent contents (some path) with
  | .object es =>
    let fields ← es.mapM fun (k, v) => do pure ((← keyText k), v)
    let distinct := fields.foldl (fun fs f => Schema.insertField f.1 f.2 fs) []
    pure ⟨.object distinct, some ⟨path, none⟩, none⟩
  | _ => throw (badValues ("Values must be an object: " ++ path) (some path) none none)

/-- The holders of some values files, in their order. -/
def loadValues (p : Project) : List String → Traced (List ValuesHolder)
  | [] => pure []
  | path :: paths => do
    let first ←
      match ← Traced.ofExcept (p.contents? path) with
      | none => do
        Traced.tell (.mk .error "values_file_missing" [("path", .str path)])
        pure []
      | some contents =>
        attempt "values_file_invalid" path
          ((Traced.ofExcept (valuesHolder path contents)).bind fun h => pure [h])
    let more ← p.loadValues paths
    pure (first ++ more)

/-- The expected results under a base. -/
def loadExpected (p : Project) (base : String) : Traced (List ExpectedResult) :=
  if base == "" then pure []
  else do
    let directory := Path.withoutSlash base ++ "/results/expected"
    let files ← Traced.ofExcept (p.files ["**/*.yaml"] directory)
    collect (fun path contents =>
      if contents == "" then pure []
      else attempt "expected_results_load_failed" path (ExpectedResult.ofDocument path contents))
      files

end Project

end ApiSuite
