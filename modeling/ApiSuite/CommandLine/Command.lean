import ApiSuite.CommandLine.Arguments
import ApiSuite.Log.Output

/-!
# Commands

A command line has options for all commands first, then the name of a command, and the
command's own options and operands last. Asking for help comes before everything that is
missing or unusable, but not before a misspelled option.
-/

namespace ApiSuite.CommandLine

/-! ### Options for all commands -/

/-- An option for all commands. -/
inductive GeneralOption where
  | config (path : String)
  | verbose
  | quiet
  | version
  | help
deriving DecidableEq, Repr

/-- The options for all commands. -/
def generalOptions : List (Opt GeneralOption) :=
  [⟨["-c", "--config"], .valued .config⟩, ⟨["-v", "--verbose"], .plain .verbose⟩,
    ⟨["-q", "--quiet"], .plain .quiet⟩, ⟨["--version"], .plain .version⟩,
    ⟨["--help"], .plain .help⟩]

/-- What was said for all commands. -/
structure General where
  config : Option String
  verbosity : Nat
  quiet : Bool
deriving DecidableEq, Repr

/-- What some options say for all commands; of settings files the last one counts, and an empty
name is none. -/
def General.ofOptions (given : List GeneralOption) : General where
  config :=
    given.foldl (fun c o => match o with
      | .config "" => none
      | .config path => some path
      | _ => c) none
  verbosity := given.count .verbose
  quiet := given.contains .quiet

/-- The rank from which on entries are logged, unless it is up to the settings. -/
def General.threshold? (g : General) : Option Log.Level :=
  if g.quiet then some .error
  else
    match g.verbosity with
    | 0 => none
    | 1 => some .info
    | _ => some .debug

/-! ### Commands -/

/-- The forms in which tests are listed. -/
inductive ListingForm where
  | json
  | text
deriving DecidableEq, Repr

/-- A command. -/
inductive Command where
  /-- Print a flow in order of execution. -/
  | flow (file : String) (base : Option String)
  /-- List the tests under a directory. -/
  | tests (directory : Option String) (form : ListingForm)
  /-- Print the value of an expression. -/
  | value (expression : String) (files : List String) (trusted useEnvironment : Option Bool)
    (located : Bool)
  /-- List the expressions in a flow or request suite. -/
  | expressions (file : String) (withReferences : Bool)
deriving DecidableEq, Repr

/-- The names of the commands. -/
inductive CommandName where
  | flow
  | tests
  | value
  | expressions
deriving DecidableEq, Repr

/-- The names of the commands as they are spelled. -/
def commandNames : List (String × CommandName) :=
  [("flow", .flow), ("tests", .tests), ("value", .value), ("expressions", .expressions)]

/-- An option of a command. -/
inductive CommandOption where
  | help
  | base (path : String)
  | form (name : String)
  | valuesFile (path : String)
  | trusted (b : Bool)
  | environment (b : Bool)
  | located
  | withReferences
deriving DecidableEq, Repr

/-- The options of a command. -/
def CommandName.options : CommandName → List (Opt CommandOption)
  | .flow => [⟨["-b", "--base"], .valued .base⟩, ⟨["--help"], .plain .help⟩]
  | .tests => [⟨["-f", "--format"], .valued .form⟩, ⟨["--help"], .plain .help⟩]
  | .value =>
    [⟨["-f", "--values-file"], .valued .valuesFile⟩, ⟨["--trusted"], .plain (.trusted true)⟩,
      ⟨["--untrusted"], .plain (.trusted false)⟩, ⟨["--env"], .plain (.environment true)⟩,
      ⟨["--no-env"], .plain (.environment false)⟩, ⟨["--located"], .plain .located⟩,
      ⟨["--help"], .plain .help⟩]
  | .expressions => [⟨["--with-refs"], .plain .withReferences⟩, ⟨["--help"], .plain .help⟩]

/-- The last of some options that says something. -/
def last? {β : Type} (f : CommandOption → Option β) (given : List CommandOption) : Option β :=
  (given.filterMap f).getLast?

/-- The one operand of a command. -/
def soleOperand (name : String) : List String → Except UsageError String
  | [] => .error (.missingOperand name)
  | [operand] => .ok operand
  | _ :: more => .error (.extraOperands more)

/-- The one operand of a command, which names a file and no directory. -/
def fileOperand (isDirectory : String → Bool) (operands : List String) :
    Except UsageError String := do
  let file ← soleOperand "FILE" operands
  if isDirectory file then throw (.directory file) else pure file

/-- The form that some options ask for. -/
def formOf (given : List CommandOption) : Except UsageError ListingForm :=
  match last? (fun o => match o with | .form s => some s | _ => none) given with
  | none | some "text" => .ok .text
  | some "json" => .ok .json
  | some s => .error (.unknownChoice "--format" s ["json", "text"])

/-- The command of a name with some arguments, unless help is asked for. -/
def CommandName.command (isDirectory : String → Bool) (name : CommandName)
    (arguments : List String) : Except UsageError (Option Command) := do
  let a ← readArguments name.options true arguments
  if a.options.contains .help then pure none
  else
    match name with
    | .flow => do
      let file ← fileOperand isDirectory a.operands
      pure (some (.flow file (last? (fun o => match o with
        | .base s => some s
        | _ => none) a.options)))
    | .tests => do
      let form ← formOf a.options
      match a.operands with
      | [] => pure (some (.tests none form))
      | [directory] => pure (some (.tests (some directory) form))
      | _ :: more => throw (.extraOperands more)
    | .value => do
      let expression ← soleOperand "EXPRESSION" a.operands
      pure (some (.value expression
        (a.options.filterMap fun o => match o with | .valuesFile s => some s | _ => none)
        (last? (fun o => match o with | .trusted b => some b | _ => none) a.options)
        (last? (fun o => match o with | .environment b => some b | _ => none) a.options)
        (a.options.contains .located)))
    | .expressions => do
      let file ← fileOperand isDirectory a.operands
      pure (some (.expressions file (a.options.contains .withReferences)))

/-! ### Command lines -/

/-- What a command line asks for. -/
inductive Invocation where
  | version
  | help
  /-- Only options for all commands are given. -/
  | idle (g : General)
  | command (g : General) (name : CommandName) (arguments : List String)

/-- What some options ask for instead of a command, by the first of them that does. -/
def instead? (given : List GeneralOption) : Option Invocation :=
  given.findSome? fun o => match o with
    | .version => some .version
    | .help => some .help
    | _ => none

/-- What some arguments ask for. The arguments of a command are not looked at yet. What stands in
the place of a command may still be an option that asks for help, after two dashes. -/
def Invocation.ofArguments (arguments : List String) : Except UsageError Invocation := do
  let a ← readArguments generalOptions false arguments
  match instead? a.options, a.operands with
  | some i, _ => pure i
  | none, [] => pure (.idle (General.ofOptions a.options))
  | none, word :: rest =>
    match commandNames.lookup word with
    | some name => pure (.command (General.ofOptions a.options) name rest)
    | none => do
      let again ← readArguments generalOptions false a.operands
      match instead? again.options with
      | some i => pure i
      | none => throw (.unknownCommand word)

/-! ### Texts -/

/-- The name of the program. -/
def programName : String := "plyload"

/-- The version of the program. -/
def version : String := "0.1.0"

/-- The text that shows the version. -/
def versionText : String := programName ++ ", version " ++ version ++ "\n"

/-- A help text: a usage line, and a line for each option or command. -/
def helpLines (usage : String) (lines : List String) : String :=
  String.join ((("Usage: " ++ programName ++ " " ++ usage) :: "" :: lines).map (· ++ "\n"))

/-- The help on all commands. -/
def helpText : String :=
  helpLines "[OPTIONS] COMMAND [ARGS]..."
    ["  -c, --config FILE  Settings file (default: ./plyload.yaml).",
      "  -v, --verbose      Log more (-v for information, -vv for details).",
      "  -q, --quiet        Log errors only.",
      "  --version          Show the version and exit.",
      "  --help             Show this message and exit.",
      "",
      "  flow               Print a flow in order of execution.",
      "  tests              List test files with their entries.",
      "  value              Print the value of an expression.",
      "  expressions        List the expressions in a flow or request suite."]

/-- The help on a command. -/
def CommandName.helpText : CommandName → String
  | .flow =>
    helpLines "flow [OPTIONS] FILE"
      ["  -b, --base TEXT  Directory that the name of the flow is relative to.",
        "  --help           Show this message and exit."]
  | .tests =>
    helpLines "tests [OPTIONS] [DIRECTORY]"
      ["  -f, --format [json|text]  Output format.",
        "  --help                    Show this message and exit."]
  | .value =>
    helpLines "value [OPTIONS] EXPRESSION"
      ["  -f, --values-file TEXT   Values file, lowest precedence first.",
        "  --trusted / --untrusted  Allow operators and literals.",
        "  --env / --no-env         Put environment variables into values.",
        "  --located                Show where the value was found, too.",
        "  --help                   Show this message and exit."]
  | .expressions =>
    helpLines "expressions [OPTIONS] FILE"
      ["  --with-refs  List references to results, too.",
        "  --help       Show this message and exit."]

/-- What is shown for a command line that cannot be used. -/
def UsageError.report (e : UsageError) : String :=
  "Usage: " ++ programName ++ " [OPTIONS] COMMAND [ARGS]...\n\nError: " ++ e.message ++ ".\n"

end ApiSuite.CommandLine
