/-!
# Arguments

A command line mixes options and operands. An **option** is spelled with two dashes and a
word, or with one dash and a character; characters may share a dash. An option that takes a
value has it after an equals sign, in what is left of its cluster of characters, or in the
next argument. Two dashes alone end the options. What is left are the **operands**; where
options must come first, the first operand ends them, too.
-/

namespace ApiSuite.CommandLine

/-- What is wrong with a command line. -/
inductive UsageError where
  | unknownOption (spelling : String)
  | missingValue (spelling : String)
  | unwantedValue (spelling : String)
  | unknownChoice (spelling value : String) (choices : List String)
  | missingOperand (name : String)
  | extraOperands (operands : List String)
  | unknownCommand (name : String)
  | directory (path : String)
deriving DecidableEq, Repr

/-- The wording of what is wrong with a command line. -/
def UsageError.message : UsageError → String
  | .unknownOption s => "No such option: " ++ s
  | .missingValue s => "Option " ++ s ++ " requires an argument"
  | .unwantedValue s => "Option " ++ s ++ " does not take a value"
  | .unknownChoice s v choices =>
    "Invalid value for " ++ s ++ ": " ++ v ++ " is not one of " ++ ", ".intercalate choices
  | .missingOperand name => "Missing argument " ++ name
  | .extraOperands operands => "Unexpected extra arguments: " ++ " ".intercalate operands
  | .unknownCommand name => "No such command: " ++ name
  | .directory path => path ++ " is a directory"

/-- What an option means: by itself, or with a value. -/
inductive Meaning (α : Type) where
  | plain (a : α)
  | valued (f : String → α)

/-- An option with its spellings. -/
structure Opt (α : Type) where
  spellings : List String
  meaning : Meaning α

/-- A command line: the options in the order they are given, and the operands. -/
structure Arguments (α : Type) where
  options : List α
  operands : List String

variable {α : Type}

/-- What an argument comes to: the options in it, and the one that takes the next argument as
its value if there is one. -/
abbrev Step (α : Type) := List α × Option (String × (String → α))

/-- The meaning of an option by its spelling. -/
def meaning? (opts : List (Opt α)) (spelling : String) : Option (Meaning α) :=
  (opts.find? fun o => o.spellings.contains spelling).map (·.meaning)

/-- A text split at its first equals sign, if it has one. -/
def splitEquals : List Char → List Char × Option (List Char)
  | [] => ([], none)
  | '=' :: cs => ([], some cs)
  | c :: cs => ((c :: (splitEquals cs).1), (splitEquals cs).2)

/-- An option spelled out as a word. -/
def wordStep (opts : List (Opt α)) (argument : String) : Except UsageError (Step α) :=
  let (word, value) := splitEquals argument.toList
  let spelling := String.ofList word
  match meaning? opts spelling, value with
  | none, _ => .error (.unknownOption spelling)
  | some (.plain a), none => .ok ([a], none)
  | some (.plain _), some _ => .error (.unwantedValue spelling)
  | some (.valued f), some v => .ok ([f (String.ofList v)], none)
  | some (.valued f), none => .ok ([], some (spelling, f))

/-- The options of a cluster of characters. -/
def clusterStep (opts : List (Opt α)) : List Char → Except UsageError (Step α)
  | [] => .ok ([], none)
  | c :: cs =>
    let spelling := String.ofList ['-', c]
    match meaning? opts spelling with
    | none => .error (.unknownOption spelling)
    | some (.plain a) => (clusterStep opts cs).map fun (given, next) => (a :: given, next)
    | some (.valued f) =>
      if cs.isEmpty then .ok ([], some (spelling, f)) else .ok ([f (String.ofList cs)], none)

/-- What an argument that spells options comes to; none for an operand. -/
def optionStep? (opts : List (Opt α)) (argument : String) : Option (Except UsageError (Step α)) :=
  match argument.toList with
  | '-' :: '-' :: _ => some (wordStep opts argument)
  | '-' :: c :: cs => some (clusterStep opts (c :: cs))
  | _ => none

/-- A command line with options before it. -/
def Arguments.after (given : List α) (a : Arguments α) : Arguments α :=
  { a with options := given ++ a.options }

/-- A command line as options and operands. Where these are not `mixed`, the first operand ends
the options. -/
def readArguments (opts : List (Opt α)) (mixed : Bool) :
    List String → Except UsageError (Arguments α)
  | [] => .ok ⟨[], []⟩
  | argument :: rest =>
    if argument == "--" then .ok ⟨[], rest⟩
    else
      match optionStep? opts argument with
      | some (.error e) => .error e
      | some (.ok (given, none)) => (readArguments opts mixed rest).map (·.after given)
      | some (.ok (given, some (spelling, f))) =>
        match rest with
        | [] => .error (.missingValue spelling)
        | value :: rest => (readArguments opts mixed rest).map (·.after (given ++ [f value]))
      | none =>
        if mixed then
          (readArguments opts mixed rest).map fun a =>
            { a with operands := argument :: a.operands }
        else .ok ⟨[], argument :: rest⟩

end ApiSuite.CommandLine
