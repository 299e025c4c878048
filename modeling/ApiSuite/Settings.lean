import ApiSuite.Document
import ApiSuite.Log.Output
import ApiSuite.Project.Loader
import ApiSuite.Values.Resolver

/-!
# Settings

How the program works by default is set in a file of the working directory and, with
precedence, in the environment. Every setting has a variable of its own, named in any case;
the log settings also have one that holds a JSON object, and one for each of their fields,
which count before the fields of that object. Mappings from the file and the environment are
merged field by field.
-/

namespace ApiSuite

/-- What a run of the program finds: the files of a project, the directory it lies in, and the
environment. -/
structure Surroundings where
  tree : Tree
  directory : String
  env : Environment

/-- Which entries are logged by default, and in which form. -/
structure LogSettings where
  level : Log.Level
  json : Bool
deriving DecidableEq, Repr

/-- The settings of the program. -/
structure Settings where
  base : Option String
  config : Option String
  keepSource : Bool
  trusted : Bool
  policy : RequiredPolicy
  useEnvironment : Bool
  log : LogSettings
deriving DecidableEq, Repr

/-- The spelling of a policy. -/
def RequiredPolicy.name : RequiredPolicy → String
  | .proceed => "continue"
  | .stop => "stop"

/-! ### Reading and writing -/

open Schema in
/-- Log settings. -/
def LogSettings.read : Check LogSettings :=
  record "LogConfig" fun es =>
    LogSettings.mk <$>
      defaulted "level" .warning
        (literal [("error", .error), ("warning", .warning), ("info", .info), ("debug", .debug)])
        es <*>
      defaulted "json_output" false flag es

open Schema in
/-- The settings that some entries give. -/
def Settings.read (es : List (Value × Value)) : Checked Settings :=
  Settings.mk <$> optional "ply_base" text es <*> optional "ply_config" text es <*>
    defaulted "suite_source" false flag es <*> defaulted "trusted" false flag es <*>
    defaulted "required_policy" .proceed (choice [("continue", .proceed), ("stop", .stop)]) es <*>
    defaulted "use_process_env" true flag es <*>
    defaulted "log" ⟨.warning, false⟩ LogSettings.read es

/-- Log settings as a value. -/
def LogSettings.toValue (l : LogSettings) : Value :=
  .ofFields [("level", .str l.level.name), ("json_output", .bool l.json)]

/-- Settings as a value. -/
def Settings.toValue (s : Settings) : Value :=
  .ofFields
    [("ply_base", Value.ofText? s.base), ("ply_config", Value.ofText? s.config),
      ("suite_source", .bool s.keepSource), ("trusted", .bool s.trusted),
      ("required_policy", .str s.policy.name), ("use_process_env", .bool s.useEnvironment),
      ("log", s.log.toValue)]

namespace Settings

/-! ### The environment -/

/-- The environment with its names in lower case; of names that differ in case only the last
counts. -/
def caseless (env : Environment) : Environment :=
  env.foldl (fun seen v => Schema.insertField (Log.lowerCase v.1) v.2 seen) []

/-- The name of the variable of a setting, in lower case. -/
def variableName (field : String) : String := "plyload_" ++ field

/-- The settings with a variable that is their value. -/
def plainFields : List String :=
  ["ply_base", "ply_config", "suite_source", "trusted", "required_policy", "use_process_env"]

/-- The entries of the settings with a variable that is their value. -/
def plainEntries (env : Environment) : List (Value × Value) :=
  plainFields.filterMap fun field =>
    (env.lookup (variableName field)).map fun s => (.str field, .str s)

/-- The parts of a text between double underscores. -/
def nestedParts : List Char → List (List Char)
  | [] => [[]]
  | '_' :: '_' :: cs => [] :: nestedParts cs
  | c :: cs =>
    match nestedParts cs with
    | [] => [[c]]
    | part :: parts => (c :: part) :: parts

/-- Entries with a text put under keys, one within another. What is no object stays. -/
def putNested (s : String) (es : List (Value × Value)) : List String → List (Value × Value)
  | [] => es
  | [k] => Value.insert (.str k) (.str s) es
  | k :: ks =>
    match Value.lookup k es with
    | none => Value.insert (.str k) (.object (putNested s [] ks)) es
    | some (.object inner) => Value.insert (.str k) (.object (putNested s inner ks)) es
    | some _ => es

/-- The entries of a setting with fields that the environment gives field by field. -/
def nestedEntries (field : String) (env : Environment) : List (Value × Value) :=
  env.foldl (fun es v =>
    match Path.after? (variableName field ++ "__") v.1 with
    | some rest => putNested v.2 es ((nestedParts rest.toList).map String.ofList)
    | none => es) []

/-- A key of the log settings with the case of the field it names. -/
def logKey (k : Value) : Value :=
  match k with
  | .str s =>
    if ["level", "json_output"].contains (Log.lowerCase s) then .str (Log.lowerCase s) else k
  | k => k

/-- The log settings that the environment gives, if it does. -/
def logEntry (env : Environment) : Except Fault (Option Value) :=
  let nested := nestedEntries "log" env
  let named (es : List (Value × Value)) : Option Value :=
    some (.object (es.foldl (fun fs (k, v) => Value.insert (logKey k) v fs) []))
  match env.lookup (variableName "log") with
  | none => .ok (if nested.isEmpty then none else named nested)
  | some s =>
    match Json.read s with
    | .error _ => .error (.crash (.badSetting "log"))
    | .ok .null => .ok none
    | .ok (.object es) => .ok (named (Value.merge es nested))
    | .ok v => .ok (some v)

/-- The entries that the environment gives. -/
def environmentEntries (env : Environment) : Except Fault (List (Value × Value)) := do
  let env := caseless env
  let log ← logEntry env
  pure (plainEntries env ++ log.toList.map fun v => (.str "log", v))

/-! ### The file -/

/-- The name of the settings file, unless another is named. -/
def fileName : String := "plyload.yaml"

/-- The text of a settings file. It is read piece by piece, so that octets which its end cuts
off are reported by themselves. -/
def fileText (octets : List UInt8) : Except Fault String :=
  match Text.decode octets with
  | .ok cs => .ok (String.ofList (Text.normalizeBreaks cs))
  | .error u =>
    if u.fault = .truncated then
      .error (.crash (.encoding u.fault u.octet 0 (u.last - u.first)))
    else .error (.crash u.crash)

/-- Settings that cannot be used. -/
def unusable (message : String) (field : Option String) (value : Value) : Fault :=
  .config ⟨message, field, value⟩

/-- The entries that the text of a settings file gives; `shown` is the path to report. -/
def textEntries (shown contents : String) : Traced (List (Value × Value)) :=
  match Document.readYaml contents with
  | .error (.crash c) => Traced.fail (.crash c)
  | .error _ => Traced.fail (unusable ("Invalid YAML in " ++ shown ++ ": <yaml>") none .null)
  | .ok (_, .null) => do
    Traced.tell (.mk .warning "config_file_empty" [("path", .str shown)])
    pure []
  | .ok (_, .object es) =>
    if es.all fun e => e.1.kind == "str" then pure es else Traced.fail (.crash .keyKind)
  | .ok (_, v) =>
    Traced.fail (unusable ("Config file " ++ shown ++ " must be a mapping") none (.str v.kind))

/-- The entries that a settings file gives, none if it is missing. -/
def fileEntries (t : Tree) (path shown : String) : Traced (List (Value × Value)) :=
  match t.find? path with
  | none => pure []
  | some (.directory _) => Traced.fail (.crash (.directory shown))
  | some (.file octets) => do
    let contents ← Traced.ofExcept (fileText octets)
    textEntries shown contents

/-- The settings of a run, from the file at a path if one is named. -/
def load (s : Surroundings) (file : Option String) : Traced Settings := do
  let fromFile ←
    match file with
    | none => fileEntries s.tree fileName (s.directory ++ "/" ++ fileName)
    | some path => fileEntries s.tree path (Path.tidy path)
  let fromEnvironment ← Traced.ofExcept (environmentEntries s.env)
  match read (Value.merge fromFile fromEnvironment) with
  | .valid settings => pure settings
  | .crashed c => Traced.fail (.crash c)
  | .invalid [] => Traced.fail (unusable "Invalid configuration" none .null)
  | .invalid (i :: _) =>
    Traced.fail
      (unusable ("Invalid configuration: " ++ i.kind.message) (some i.path) i.input)

/-! ### What settings mean -/

/-- How values are evaluated. -/
def valuesOptions (s : Settings) (env : Environment) : ValuesOptions where
  trusted := s.trusted
  refHolder := none
  env := if s.useEnvironment then env else []

/-- Settings with trust and the use of the environment as said otherwise, if they are. -/
def adjusted (s : Settings) (trusted useEnvironment : Option Bool) : Settings :=
  { s with
    trusted := trusted.getD s.trusted
    useEnvironment := useEnvironment.getD s.useEnvironment }

/-- How a project is loaded. -/
def loadOptions (s : Settings) (env : Environment) : LoadOptions where
  config := s.config
  options := none
  base := s.base
  keepSource := s.keepSource
  values := s.valuesOptions env

end Settings

end ApiSuite
