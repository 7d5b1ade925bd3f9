import Covenant.CommandLine.Run

/-! # The command line

    Gathers what a run is given, and prints and writes what it answers.  What a
    run does is the function `CommandLine.run`. -/

namespace Covenant.CommandLine

/-- A file that may be missing.  The entry of a directory ends in a slash, so that a run can
    tell it from a file. -/
def gather (path : String) : IO (List (String × String)) := do
  try
    pure [(path, ← IO.FS.readFile path)]
  catch
    | .noFileOrDirectory .. => pure []
    | .inappropriateType .. => pure [(path ++ "/", "")]
    | e => throw e

/-- What the words of a command line give a run. -/
def gatherRequest (words : List String) : IO Request := do
  let settings ← gather ".env"
  let named ← match Arguments.read words with
    | .ok a => gather (tidyPath a.file)
    | .error _ => pure []
  let wanted := variablesOfInterest (settings.lookup ".env")
  let environment ← wanted.filterMapM fun name => do
    pure ((← IO.getEnv name).map (name, ·))
  pure { words, files := named ++ settings, environment }

/-- Writes a file, and the directories on its way. -/
def writeOutput (path : String) (output : Output) : IO Unit := do
  IO.FS.createDirAll (directoryOf path)
  IO.FS.writeFile path (match output with
    | .text t => t
    | .report j => j.pretty 0)

/-- The message for a fault. -/
def Fault.message : Fault → String
  | .unreadableDocument => "the document cannot be read"
  | .isDirectory => "the file is a directory"
  | .nullCharacter => "the source holds a null character"
  | .source _ => "the fields of a class cannot be read"
  | .escape _ => "a condition cannot be compiled"
  | .emission _ => "the wrappers cannot be written"

/-- How the command line is used. -/
def usage : String :=
  "usage: contractweave [-h] [--declarations] [-o OUTPUT_DIR] [--json REPORT] [--stdout] [-v] file"

/-- The status that a run ends with. -/
def Ending.status : Ending → IO UInt32
  | .code n => pure n.toUInt32
  | .refused .help => do
    IO.println usage
    pure 0
  | .refused .misuse => do
    IO.eprintln usage
    pure 2
  | .failed f => do
    IO.eprintln f.message
    pure 1

end Covenant.CommandLine

open Covenant.CommandLine in
/-- Weaves the declarations of a file. -/
def main (words : List String) : IO UInt32 := do
  let outcome := run (← gatherRequest words)
  for (path, output) in outcome.written do
    writeOutput path output
  IO.print outcome.printed
  outcome.ending.status
