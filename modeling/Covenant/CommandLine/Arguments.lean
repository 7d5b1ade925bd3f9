/-! # Arguments of the command line

    A word that starts with a dash is an option if an option has that name,
    or if it abbreviates the long name of just one.  The value of an option is
    given behind an equals sign, directly behind a short name, or as the next
    word.  Short options without a value can share a dash.  One word that is
    no option names the file; after two dashes no word is an option. -/

namespace Covenant.CommandLine

/-- The options. -/
inductive Flag where
  | help | declarations | outputDir | report | stdout | verbose
  deriving DecidableEq, Repr

/-- The names of the options. -/
def flagNames : List (String × Flag) :=
  [("-h", .help), ("--help", .help), ("--declarations", .declarations), ("-o", .outputDir),
   ("--output-dir", .outputDir), ("--json", .report), ("--stdout", .stdout), ("-v", .verbose),
   ("--verbose", .verbose)]

/-- Whether an option has a value. -/
def Flag.takesValue : Flag → Bool
  | outputDir | report => true
  | _ => false

/-- What the command line asks for. -/
structure Arguments where
  file : String := ""
  declarations : Bool := false
  outputDir : Option String := none
  report : Option String := none
  stdout : Bool := false
  verbose : Bool := false
  deriving DecidableEq, Repr

/-- Why a command line is not carried out. -/
inductive Refusal where
  | help
  | misuse
  deriving DecidableEq, Repr

/-- A word of the command line. -/
inductive Word where
  | operand (text : String)
  | marker
  /-- A known option as it was named, with a value that is part of the word. -/
  | option (flag : Flag) (name : String) (value : Option String)
  | unknown

/-! ## Words -/

/-- A text cut at its first equals sign. -/
def cutAtEquals (word : String) : Option (String × String) :=
  let cs := word.toList
  let name := cs.takeWhile (· != '=')
  if name.length < cs.length then
    some (String.ofList name, String.ofList (cs.drop (name.length + 1)))
  else none

/-- Whether a word looks like a negative number. -/
def looksNegative (word : String) : Bool :=
  match word.toList with
  | '-' :: cs =>
    let whole := cs.takeWhile Char.isDigit
    match cs.drop whole.length with
    | [] => !whole.isEmpty
    | '.' :: places => !places.isEmpty && places.all Char.isDigit
    | _ => false
  | _ => false

/-- The options that a word may abbreviate, or that it joins with a value. -/
def interpretations (word : String) : List Word :=
  if "--".isPrefixOf word then
    let (stem, value) := match cutAtEquals word with
      | some (n, v) => (n, some v)
      | none => (word, none)
    flagNames.filterMap fun f =>
      if stem.isPrefixOf f.1 then some (.option f.2 f.1 value) else none
  else
    let short := String.ofList (word.toList.take 2)
    let joined := String.ofList (word.toList.drop 2)
    flagNames.filterMap fun f =>
      if f.1 == short then some (.option f.2 f.1 (some joined))
      else if word.isPrefixOf f.1 then some (.option f.2 f.1 none)
      else none

/-- The option that a word names in full. -/
def exactOption (word : String) : Option Word :=
  match flagNames.lookup word with
  | some f => some (.option f word none)
  | none =>
    match cutAtEquals word with
    | some (n, v) => (flagNames.lookup n).map fun f => .option f n (some v)
    | none => none

/-- What a word is, before any two dashes. -/
def classify (word : String) : Except Refusal Word :=
  if !"-".isPrefixOf word || word == "-" then .ok (.operand word)
  else
    match exactOption word with
    | some w => .ok w
    | none =>
      match interpretations word with
      | [w] => .ok w
      | _ :: _ :: _ => .error .misuse
      | [] =>
        if looksNegative word || word.toList.contains ' ' then .ok (.operand word)
        else .ok .unknown

/-- What each word is. -/
def classifyAll : List String → Except Refusal (List Word)
  | [] => .ok []
  | "--" :: rest => .ok (.marker :: rest.map .operand)
  | w :: rest => do
    let c ← classify w
    let cs ← classifyAll rest
    pure (c :: cs)

/-! ## Reading -/

/-- Sets an option. -/
def Arguments.set (a : Arguments) (flag : Flag) (value : String) : Except Refusal Arguments :=
  match flag with
  | .help => .error .help
  | .declarations => .ok { a with declarations := true }
  | .outputDir => .ok { a with outputDir := some value }
  | .report => .ok { a with report := some value }
  | .stdout => .ok { a with stdout := true }
  | .verbose => .ok { a with verbose := true }

/-- The short options that share a dash, and whether the last one, which has a value, still
    needs it. -/
def unfold (flag : Flag) (name : String) : List Char →
    Except Refusal (List (Flag × String) × Option Flag)
  | [] => if flag.takesValue then .ok ([], some flag) else .ok ([(flag, "")], none)
  | c :: cs =>
    if flag.takesValue then .ok ([(flag, String.ofList (c :: cs))], none)
    else if "--".isPrefixOf name then .error .misuse
    else
      let next := String.ofList ['-', c]
      match flagNames.lookup next with
      | some f => (unfold f next cs).map fun r => ((flag, "") :: r.1, r.2)
      | none => .error .misuse

/-- Sets several options. -/
def Arguments.setAll (a : Arguments) (flags : List (Flag × String)) :
    Except Refusal Arguments :=
  flags.foldlM (fun a f => a.set f.1 f.2) a

/-- Reads words.  The state is the arguments, the file and whether a word was superfluous. -/
def readWords : Arguments → Option String → Bool → List Word → Except Refusal Arguments
  | a, some file, false, [] => .ok { a with file := file }
  | _, _, _, [] => .error .misuse
  | a, none, extra, .operand s :: .marker :: rest => readWords a (some s) extra rest
  | a, none, extra, .operand s :: rest => readWords a (some s) extra rest
  | a, none, extra, .marker :: .operand s :: rest => readWords a (some s) extra rest
  | a, file, _, .operand _ :: rest => readWords a file true rest
  | a, file, _, .marker :: rest => readWords a file true rest
  | a, file, _, .unknown :: rest => readWords a file true rest
  | a, file, extra, .option flag name (some value) :: rest =>
    if value.isEmpty then
      if flag.takesValue then do
        let a ← a.set flag value
        readWords a file extra rest
      else .error .misuse
    else do
      match ← unfold flag name value.toList with
      | (flags, none) =>
        let a ← a.setAll flags
        readWords a file extra rest
      | (flags, some last) =>
        match rest with
        | .operand v :: rest =>
          let a ← a.setAll (flags ++ [(last, v)])
          readWords a file extra rest
        | _ => .error .misuse
  | a, file, extra, .option flag _ none :: rest =>
    if flag.takesValue then
      match rest with
      | .operand v :: rest => do
        let a ← a.set flag v
        readWords a file extra rest
      | _ => .error .misuse
    else do
      let a ← a.set flag ""
      readWords a file extra rest

/-- Reads a command line. -/
def Arguments.read (words : List String) : Except Refusal Arguments := do
  readWords {} none false (← classifyAll words)

end Covenant.CommandLine
