import Covenant.CommandLine.Arguments
import Covenant.CommandLine.Settings
import Covenant.Document.Declarations
import Covenant.Report
import Covenant.Source.Reader
import Covenant.Wrapper.Emission

/-! # A run of the command line

    A run reads a program text or a declaration document, weaves it, writes or
    prints the generated module, may write a report, and prints a summary.
    Here it is a function from what it is given to what it prints and writes. -/

namespace Covenant.CommandLine

open Covenant Declaration Document Text Value Weaving Wrapper

/-! ## Paths -/

/-- The parts of a path, without those that stay in place. -/
def pathParts (path : String) : List String :=
  (path.splitOn "/").filter fun p => p != "" && p != "."

/-- A path in its shortest spelling. -/
def tidyPath (path : String) : String :=
  let body := "/".intercalate (pathParts path)
  if "/".isPrefixOf path then "/" ++ body
  else if body.isEmpty then "."
  else body

/-- The last part of a path. -/
def fileName (path : String) : String := ((pathParts path).getLast?).getD ""

/-- A file name cut before its last dot; a dot at its start or end does not count. -/
def cutSuffix (name : String) : String × String :=
  let cs := name.toList
  let suffix := (cs.reverse.takeWhile (· != '.')).reverse
  let stem := cs.take (cs.length - suffix.length - 1)
  if suffix.length < cs.length ∧ ¬ suffix.isEmpty ∧ ¬ stem.isEmpty then
    (String.ofList stem, String.ofList ('.' :: suffix))
  else (name, "")

/-- The name of a file without directory and suffix. -/
def stem (path : String) : String := (cutSuffix (fileName path)).1

/-- The suffix of a file. -/
def suffix (path : String) : String := (cutSuffix (fileName path)).2

/-- The directory of a file. -/
def directoryOf (path : String) : String :=
  let body := "/".intercalate (pathParts path).dropLast
  if "/".isPrefixOf path then "/" ++ body
  else if body.isEmpty then "."
  else body

/-- A file in a directory. -/
def joinPath (directory file : String) : String :=
  if directory.endsWith "/" then directory ++ file else directory ++ "/" ++ file

/-! ## Inputs and outcomes -/

/-- What a run is given. -/
structure Request where
  words : List String
  /-- The files that can be read, by tidy paths. -/
  files : List (String × String)
  environment : Variables

/-- A fault for which no message is printed. -/
inductive Fault where
  | unreadableDocument
  | isDirectory
  | nullCharacter
  | source (fault : Source.FieldFault)
  | escape (fault : Escape)
  | emission (fault : EmissionFault)
  deriving DecidableEq

/-- How a run ends. -/
inductive Ending where
  | code (n : Nat)
  | refused (r : Refusal)
  | failed (f : Fault)
  deriving DecidableEq

/-- A file that is written. -/
inductive Output where
  | text (t : String)
  | report (j : Json)

/-- What a run prints and writes, and how it ends. -/
structure Outcome where
  ending : Ending
  printed : String := ""
  written : List (String × Output) := []

/-! ## Tables -/

/-- Why no table was read. -/
inductive TableFault where
  /-- The file does not say what it should; a message is printed. -/
  | rejected
  | fault (f : Fault)
  deriving DecidableEq

/-- The table of a file. -/
def loadTable (a : Arguments) (path text : String) : Except TableFault (Table Datum) :=
  if a.declarations || suffix path == ".json" then
    match Json.parse? text with
    | none => .error (.fault .unreadableDocument)
    | some j => (readTable [] j).mapError fun _ => .rejected
  else
    (Source.readTable (some (stem path)) text).mapError fun
      | .nullCharacter => .fault .nullCharacter
      | .unreadable => .rejected
      | .fields f => .fault (.source f)

/-! ## The summary -/

/-- A line of one character. -/
def rule (c : Char) : String := String.ofList (List.replicate 80 c)

/-- The lines of the summary. -/
def summaryLines (file : String) (r : Result Datum) (output : Option String) : List String :=
  ["", rule '=', "WEAVE SUMMARY: " ++ file, rule '=']
    ++ if r.descriptors.isEmpty && r.errors.isEmpty then ["⚠️  No contract declarations found"]
      else
        ["", s!"✅ Wrappers generated: {r.descriptors.length}",
          s!"❌ Declarations rejected: {r.errors.length}"]
        ++ r.descriptors.map (fun d => "   " ++ d.qualname ++ "  <-  " ++ d.internalName)
        ++ (if r.errors.isEmpty then []
          else ["", rule '-', "ERRORS", rule '-'] ++ r.errors.flatMap fun e => ["", e.text])
        ++ (match output with
          | some o => ["", "📄 Generated: " ++ o]
          | none => [])
        ++ ["", rule '=']

/-- Lines as they are printed. -/
def printLines (lines : List String) : String := String.join (lines.map (· ++ "\n"))

/-! ## The run -/

/-- Weaves a table that was read from a file with this text. -/
def finish (a : Arguments) (outputDir text : String) (t : Table Datum) : Outcome :=
  match weave t with
  | .error e => { ending := .failed (.escape e) }
  | .ok r =>
    let base := stem a.file
    match renderModule r.descriptors (some base) with
    | .error f => { ending := .failed (.emission f) }
    | .ok source =>
      let output := if a.stdout then none else some (joinPath outputDir (generatedName base))
      let printedSource := if a.stdout then source ++ "\n" else ""
      let generated := match output with
        | some o => [(tidyPath o, Output.text source)]
        | none => []
      let artifact : Option Report.Artifact := output.map fun o =>
        ⟨o, some (Digest.ofText (String.ofList (unifyNewlines source.toList)))⟩
      let reports := match present a.report with
        | some file =>
          [(tidyPath file, Output.report (Report.make (tidyPath a.file) (some text) artifact r))]
        | none => []
      { ending := .code (if r.ok then 0 else 1)
        printed := printedSource ++ printLines (summaryLines a.file r output)
        written := generated ++ reports }

/-- Carries out what the arguments ask for. -/
def carryOut (a : Arguments) (q : Request) : Outcome :=
  let path := tidyPath a.file
  let settings := allVariables q.environment (q.files.lookup ".env")
  let fallback := presentOr (valueOf settings outputDirVariable) defaultOutputDir
  let outputDir := presentOr a.outputDir fallback
  match q.files.lookup path with
  | none =>
    if path == "." || q.files.any (fun f => (path ++ "/").isPrefixOf f.1) then
      { ending := .failed .isDirectory }
    else
      { ending := .code 2, printed := "❌ Error: File not found: " ++ a.file ++ "\n" }
  | some raw =>
    let text := String.ofList (unifyNewlines raw.toList)
    match loadTable a path text with
    | .error .rejected =>
      { ending := .code 1
        printed := "❌ Error: could not read declarations from " ++ a.file ++ ": *" }
    | .error (.fault f) => { ending := .failed f }
    | .ok t => finish a outputDir text t

/-- A run of the command line. -/
def run (q : Request) : Outcome :=
  match Arguments.read q.words with
  | .error r => { ending := .refused r }
  | .ok a => carryOut a q

end Covenant.CommandLine
