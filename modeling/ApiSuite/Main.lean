import ApiSuite.CommandLine.Run

/-!
# The program

Reads the surroundings of a run, hands them with the arguments to `ApiSuite.CommandLine.run`,
and writes out what comes of it: the answer to the standard output; errors and log records, as
JSON or as lines, to the standard error.
-/

namespace ApiSuite

/-- The variables in a block of assignments that end in null characters. -/
def environmentOf (block : String) : Environment :=
  (block.splitOn "\x00").filterMap fun assignment =>
    match CommandLine.splitEquals assignment.toList with
    | (name, some value) => some (String.ofList name, String.ofList value)
    | _ => none

/-- The environment of this process. -/
def readEnvironment : IO Environment := do
  let block ← IO.FS.readBinFile "/proc/self/environ"
  pure (environmentOf ((Text.decode block.toList).toOption.elim "" String.ofList))

/-- Some files and directories, with all that is in them. -/
partial def readEntries (found : List IO.FS.DirEntry) : IO (List (String × Entry)) := do
  let entries ← found.mapM fun e => do
    match (← e.path.metadata).type with
    | .dir => do
      let below ← e.path.readDir
      pure (some (e.fileName, Entry.directory (← readEntries below.toList)))
    | .file => do
      let octets ← IO.FS.readBinFile e.path
      pure (some (e.fileName, Entry.file octets.toList))
    | _ => pure none
  pure (entries.filterMap id)

/-- The surroundings of this process. -/
def readSurroundings : IO Surroundings := do
  let directory ← IO.currentDir
  let found ← directory.readDir
  pure
    { tree := ⟨← readEntries found.toList⟩, directory := directory.toString
      env := ← readEnvironment }

/-- A record as one line of a log. -/
def logLine (output : Log.Output) (r : Log.Record) : String :=
  if output.json then (Json.print .compact (.ofFields r.fields)).toOption.getD r.entry.event
  else r.consoleText

/-- Writes the outcome of a run. -/
def writeOutcome (o : CommandLine.Outcome) : IO UInt32 := do
  o.notices.forM fun e => IO.eprintln (Log.Record.consoleText ⟨CommandLine.programName, e⟩)
  o.records.forM fun r => IO.eprintln (logLine o.output r)
  IO.print o.stdout
  IO.eprint o.stderr
  match o.crash with
  | some c => IO.eprintln c.message
  | none => pure ()
  pure o.exitCode.toUInt32

end ApiSuite

/-- Runs the program. -/
def main (arguments : List String) : IO UInt32 := do
  ApiSuite.writeOutcome (ApiSuite.CommandLine.run (← ApiSuite.readSurroundings) arguments)
