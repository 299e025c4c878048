import ApiSuite.Schema.Basic

/-!
# Project options

A project says in its configuration where its tests are, which values files are switched on
and how tests are run. In a document every option is spelled in camel case, such as
`testsLocation`; the spelling with underscores is accepted, too. Only some options matter for
loading, but all are kept, those of unknown names included.
-/

namespace ApiSuite

/-- The options of a project. -/
structure ProjectOptions where
  testsLocation : String
  requestFiles : String
  caseFiles : String
  flowFiles : String
  ignore : String
  skip : String
  expectedLocation : Option String
  actualLocation : Option String
  logLocation : Option String
  resultFollowsRelativePath : Bool
  valuesFiles : List (String × Bool)
  outputFile : Option String
  verbose : Bool
  quiet : Bool
  bail : Bool
  parallel : Bool
  batchRows : Int
  batchDelay : Int
  reporter : String
  maxLoops : Int
  responseBodySortedKeys : Bool
  genExcludeResponseHeaders : List String
  binaryMediaTypes : List String
  prettyIndent : Int
  /-- Options of unknown names. -/
  extra : List (String × Value)

namespace ProjectOptions

/-- The response headers that are left out of generated results. -/
def excludedHeaders : List String :=
  ["cache-control", "connection", "content-length", "date", "etag", "server",
    "transfer-encoding", "x-powered-by"]

/-- The media types whose bodies are no text. -/
def binaryTypes : List String :=
  ["application/octet-stream", "image/png", "image/jpeg", "image/gif", "application/pdf"]

/-- A name with the letter after each underscore in upper case and without the underscores. -/
def camelFrom : List Char → List Char
  | '_' :: c :: cs => c.toUpper :: camelFrom cs
  | c :: cs => c :: camelFrom cs
  | [] => []

/-- The spelling of an option in documents. -/
def camelCase (name : String) : String := String.ofList (camelFrom name.toList)

/-- The names of the known options. -/
def names : List String :=
  ["tests_location", "request_files", "case_files", "flow_files", "ignore", "skip",
    "expected_location", "actual_location", "log_location", "result_follows_relative_path",
    "values_files", "output_file", "verbose", "quiet", "bail", "parallel", "batch_rows",
    "batch_delay", "reporter", "max_loops", "response_body_sorted_keys",
    "gen_exclude_response_headers", "binary_media_types", "pretty_indent"]

/-- The key under which a document gives an option, if it does: the spelling in camel case
counts before the other one. -/
def keyOf? (es : List (Value × Value)) (name : String) : Option String :=
  if (Value.lookup (camelCase name) es).isSome then some (camelCase name)
  else if (Value.lookup name es).isSome then some name
  else none

/-- An option, under either spelling. -/
def option {α : Type} (name : String) (default : α) (check : Schema.Check α)
    (es : List (Value × Value)) : Schema.Checked α :=
  Schema.defaulted ((keyOf? es name).getD name) default check es

/-- An option that may be null. -/
def nullable {α : Type} (name : String) (check : Schema.Check α) (es : List (Value × Value)) :
    Schema.Checked (Option α) :=
  option name none (Schema.orNull check) es

/-- The keys of a document that give known options. -/
def usedKeys (es : List (Value × Value)) : List String := names.filterMap (keyOf? es)

/-- The text that a key is, if it is one. -/
def extraKey (k : Value) : Schema.Checked String :=
  match Schema.text k with
  | .valid s => .valid s
  | _ => .invalid [⟨[Schema.keyLocation k], .key, k⟩]

/-- The entries of a document that give no known option. -/
def extraEntries (used : List String) :
    List (Value × Value) → Schema.Checked (List (String × Value))
  | [] => .valid []
  | (k, v) :: es =>
    if used.any fun name => k.isText name then extraEntries used es
    else List.cons <$> ((extraKey k).map fun name => (name, v)) <*> extraEntries used es

/-- Options whose locations of results are derived from the location of the tests where they
are not given. -/
def withLocations (o : ProjectOptions) : ProjectOptions :=
  let expected := o.expectedLocation.getD (o.testsLocation ++ "/results/expected")
  let actual := o.actualLocation.getD (o.testsLocation ++ "/results/actual")
  { o with
    expectedLocation := some expected
    actualLocation := some actual
    logLocation := some (o.logLocation.getD actual) }

open Schema in
/-- The options of a document. -/
def read : Check ProjectOptions :=
  record "PlyOptions" fun es =>
    Checked.map withLocations <|
      ProjectOptions.mk <$> option "tests_location" "." text es <*>
        option "request_files" "**/*.\x7bply,ply.yaml,ply.yml\x7d" text es <*>
        option "case_files" "**/*.ply.ts" text es <*>
        option "flow_files" "**/*.ply.flow" text es <*>
        option "ignore" "**/\x7bnode_modules,bin,dist,out\x7d/**" text es <*>
        option "skip" "**/*.ply" text es <*> nullable "expected_location" text es <*>
        nullable "actual_location" text es <*> nullable "log_location" text es <*>
        option "result_follows_relative_path" true flag es <*>
        option "values_files" [] (object flag) es <*> nullable "output_file" text es <*>
        option "verbose" false flag es <*> option "quiet" false flag es <*>
        option "bail" false flag es <*> option "parallel" false flag es <*>
        option "batch_rows" 1 (atLeast 1) es <*> option "batch_delay" 0 (atLeast 0) es <*>
        option "reporter" "" text es <*> option "max_loops" 10 (atLeast 1) es <*>
        option "response_body_sorted_keys" true flag es <*>
        option "gen_exclude_response_headers" excludedHeaders (list text) es <*>
        option "binary_media_types" binaryTypes (list text) es <*>
        option "pretty_indent" 2 (atLeast 0) es <*> extraEntries (usedKeys es) es

/-- The options of a project that says nothing. -/
def default : ProjectOptions :=
  withLocations
    { testsLocation := "."
      requestFiles := "**/*.\x7bply,ply.yaml,ply.yml\x7d"
      caseFiles := "**/*.ply.ts"
      flowFiles := "**/*.ply.flow"
      ignore := "**/\x7bnode_modules,bin,dist,out\x7d/**"
      skip := "**/*.ply"
      expectedLocation := none
      actualLocation := none
      logLocation := none
      resultFollowsRelativePath := true
      valuesFiles := []
      outputFile := none
      verbose := false
      quiet := false
      bail := false
      parallel := false
      batchRows := 1
      batchDelay := 0
      reporter := ""
      maxLoops := 10
      responseBodySortedKeys := true
      genExcludeResponseHeaders := excludedHeaders
      binaryMediaTypes := binaryTypes
      prettyIndent := 2
      extra := [] }

/-- The values files that are switched on, in the order they are declared. -/
def enabledValuesFiles (o : ProjectOptions) : List String :=
  o.valuesFiles.filterMap fun (path, enabled) => if enabled then some path else none

open Schema in
/-- The known options with their values. -/
def fields (o : ProjectOptions) : List (String × Value) :=
  names.zip
    [.str o.testsLocation, .str o.requestFiles, .str o.caseFiles, .str o.flowFiles,
      .str o.ignore, .str o.skip, Value.ofText? o.expectedLocation,
      Value.ofText? o.actualLocation, Value.ofText? o.logLocation,
      .bool o.resultFollowsRelativePath,
      .ofFields (o.valuesFiles.map fun (path, enabled) => (path, .bool enabled)),
      Value.ofText? o.outputFile, .bool o.verbose, .bool o.quiet, .bool o.bail,
      .bool o.parallel, .int o.batchRows, .int o.batchDelay, .str o.reporter,
      .int o.maxLoops, .bool o.responseBodySortedKeys, ofTexts o.genExcludeResponseHeaders,
      ofTexts o.binaryMediaTypes, .int o.prettyIndent]

/-- Options as a value. -/
def toValue (o : ProjectOptions) : Value :=
  .ofFields (o.extra.foldl (fun fs e => Schema.insertField e.1 e.2 fs) o.fields)

end ProjectOptions

end ApiSuite
