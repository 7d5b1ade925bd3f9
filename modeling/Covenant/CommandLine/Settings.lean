import Covenant.Text.Blank

/-! # Settings — variables of the environment and of a settings file

    A settings file has lines of a name, an equals sign and a value; the value
    may be quoted, `#` starts a comment, and `$` with a name in curly brackets
    stands for another variable.  What the environment sets is not replaced. -/

namespace Covenant.CommandLine

open Text

/-- Variables with their values; of two with one name the later one counts. -/
abbrev Variables := List (String × String)

/-- The value of a variable. -/
def valueOf (vs : Variables) (name : String) : Option String := vs.reverse.lookup name

/-- Whether a character ends a line. -/
def endsLine (c : Char) : Bool := c = '\n' || c = '\r'

/-- Whether a character is a blank within a line. -/
def isGap (c : Char) : Bool := isBlank c && !endsLine c

/-- The inside of a quoted value up to its quote, with what follows. -/
def quotedValue (quote : Char) : List Char → Option (List Char × List Char)
  | [] => none
  | '\\' :: c :: rest =>
    if c = quote then (quotedValue quote rest).map fun r => ('\\' :: c :: r.1, r.2)
    else (quotedValue quote (c :: rest)).map fun r => ('\\' :: r.1, r.2)
  | c :: rest =>
    if c = quote then some ([], rest)
    else (quotedValue quote rest).map fun r => (c :: r.1, r.2)

/-- The character that an escape in double quotes stands for. -/
def escapedChar : Char → Option Char
  | '\\' => some '\\'
  | '\'' => some '\''
  | '"' => some '"'
  | 'a' => some '\x07'
  | 'b' => some '\x08'
  | 'f' => some '\x0c'
  | 'n' => some '\n'
  | 'r' => some '\r'
  | 't' => some '\t'
  | 'v' => some '\x0b'
  | _ => none

/-- Replaces escapes by what they stand for. -/
def unescapeWith (escape : Char → Option Char) : List Char → List Char
  | [] => []
  | '\\' :: c :: rest =>
    match escape c with
    | some d => d :: unescapeWith escape rest
    | none => '\\' :: unescapeWith escape (c :: rest)
  | c :: rest => c :: unescapeWith escape rest

/-- A value without quotes ends before a comment, which follows a blank. -/
def cutComment : List Char → List Char
  | [] => []
  | c :: rest =>
    if isBlank c && (rest.dropWhile isBlank).head? == some '#' then [] else c :: cutComment rest

/-- A value with what follows it. -/
def readValue (cs : List Char) : Option (List Char × List Char) :=
  match cs with
  | '\'' :: rest =>
    (quotedValue '\'' rest).map fun r =>
      (unescapeWith (fun c => if c = '\\' ∨ c = '\'' then some c else none) r.1, r.2)
  | '"' :: rest => (quotedValue '"' rest).map fun r => (unescapeWith escapedChar r.1, r.2)
  | cs =>
    let line := cs.takeWhile fun c => !endsLine c
    some (dropEndWhile isBlank (cutComment line), cs.drop line.length)

/-- The word before a name that says it is meant for others, too. -/
def dropExport (cs : List Char) : List Char :=
  match cs with
  | 'e' :: 'x' :: 'p' :: 'o' :: 'r' :: 't' :: rest =>
    if (rest.head?.map isGap).getD false then rest.dropWhile isGap else cs
  | cs => cs

/-- A name with what follows it; a comment has none. -/
def readName (cs : List Char) : Option (Option String × List Char) :=
  match cs with
  | '#' :: _ => some (none, cs)
  | '\'' :: rest =>
    let name := rest.takeWhile (· != '\'')
    match rest.drop name.length with
    | _ :: more => if name.isEmpty then none else some (some (String.ofList name), more)
    | [] => none
  | cs =>
    let name := cs.takeWhile fun c => c != '=' && c != '#' && !isBlank c
    if name.isEmpty then none else some (some (String.ofList name), cs.drop name.length)

/-- The rest of a line that has been read: blanks, perhaps a comment, and the end. -/
def finishLine (cs : List Char) : Option (List Char) :=
  let cs := cs.dropWhile isGap
  let cs := match cs with
    | '#' :: _ => cs.dropWhile fun c => !endsLine c
    | cs => cs
  match cs with
  | [] => some []
  | '\r' :: '\n' :: rest => some rest
  | c :: rest => if endsLine c then some rest else none

/-- One line that sets a variable, or sets none. -/
def readBinding (cs : List Char) : Option (Option (String × String) × List Char) := do
  let (name, rest) ← readName (dropExport cs)
  let rest := rest.dropWhile isGap
  match rest with
  | '=' :: more =>
    let (value, rest) ← readValue (more.dropWhile isGap)
    let rest ← finishLine rest
    some (name.map (·, String.ofList value), rest)
  | rest =>
    let rest ← finishLine rest
    some (none, rest)

/-- The variables of a settings file.  A line that cannot be read is passed over.  Every
    step takes a character, so the length of the text is enough fuel. -/
def readBindings : Nat → List Char → Variables
  | 0, _ => []
  | fuel + 1, cs =>
    let cs := cs.dropWhile isBlank
    if cs.isEmpty then []
    else
      match readBinding cs with
      | some (some b, rest) => b :: readBindings fuel rest
      | some (none, rest) => readBindings fuel rest
      | none => readBindings fuel ((cs.dropWhile fun c => !endsLine c).drop 1)

/-- A variable in curly brackets, which may have a default behind `:-`. -/
def readVariable (cs : List Char) : Option (String × Option String × List Char) :=
  let name := cs.takeWhile fun c => c != '}' && c != ':'
  match cs.drop name.length with
  | '}' :: rest => some (String.ofList name, none, rest)
  | ':' :: '-' :: more =>
    let default := more.takeWhile (· != '}')
    match more.drop default.length with
    | _ :: rest => some (String.ofList name, some (String.ofList default), rest)
    | [] => none
  | _ => none

/-- Replaces the variables in a value; one that is unknown gives its default or nothing. -/
def substitute (vs : Variables) : Nat → List Char → List Char
  | 0, _ => []
  | _ + 1, [] => []
  | fuel + 1, '$' :: '{' :: rest =>
    match readVariable rest with
    | some (name, default, more) =>
      (((valueOf vs name).or default).getD "").toList ++ substitute vs fuel more
    | none => '$' :: '{' :: substitute vs fuel rest
  | fuel + 1, c :: rest => c :: substitute vs fuel rest

/-- The variables that a value refers to. -/
def referredTo : Nat → List Char → List String
  | 0, _ => []
  | _ + 1, [] => []
  | fuel + 1, '$' :: '{' :: rest =>
    match readVariable rest with
    | some (name, _, more) => name :: referredTo fuel more
    | none => referredTo fuel rest
  | fuel + 1, _ :: rest => referredTo fuel rest

/-- The variables of a settings file, each with those before it replaced. -/
def resolve (environment : Variables) (bindings : Variables) : Variables :=
  bindings.foldl (fun done b =>
    let value := String.ofList (substitute (done ++ environment) (b.2.length + 1) b.2.toList)
    done ++ [(b.1, value)]) []

/-- The variables that a settings file sets, as they are written. -/
def readSettings (text : String) : Variables :=
  readBindings (text.length + 1) (unifyNewlines text.toList)

/-- All variables: those of the settings file, if there is one, and over them those of the
    environment. -/
def allVariables (environment : Variables) (settings : Option String) : Variables :=
  match settings with
  | some text => resolve environment (readSettings text) ++ environment
  | none => environment

/-- The variable that names the output directory. -/
def outputDirVariable : String := "CONTRACTWEAVE_OUTPUT_DIR"

/-- The variables of the environment that count, given a settings file. -/
def variablesOfInterest (settings : Option String) : List String :=
  match settings with
  | some text =>
    outputDirVariable :: (readSettings text).flatMap fun b =>
      referredTo (b.2.length + 1) b.2.toList
  | none => [outputDirVariable]

/-- The directory for output, unless another one is asked for. -/
def defaultOutputDir : String := "./contracts_out"

end Covenant.CommandLine
