import Covenant.Declaration.Basic
import Covenant.Document.Json
import Covenant.Value.Datum

/-! # Declaration documents — tables written as JSON

    A document has a module name, types and functions.  Reading does not stop
    at the first mistake: every issue is reported with the path to its place,
    field by field in a fixed order, and fields that should not be there come
    last.  Conditions are listed, or written as an object from condition to
    message. -/

namespace Covenant.Document

open Declaration Number Value

/-! ## Issues -/

/-- One step of a path into a document. -/
inductive PathStep where
  | key (name : String)
  | index (n : Nat)
  deriving DecidableEq, Repr

/-- What is wrong at a place. -/
inductive IssueKind where
  | missing
  | notText
  | notList
  | notFlag
  | unreadableFlag
  | noChoice (choices : List String)
  | unexpected
  | notRecord (record : String)
  | inconsistent (detail : String)
  deriving DecidableEq

/-- An issue with the path to its place. -/
structure Issue where
  path : List PathStep
  kind : IssueKind
  deriving DecidableEq

/-- The identifier of a kind of issue. -/
def IssueKind.type : IssueKind → String
  | missing => "missing"
  | notText => "string_type"
  | notList => "list_type"
  | notFlag => "bool_type"
  | unreadableFlag => "bool_parsing"
  | noChoice _ => "enum"
  | unexpected => "extra_forbidden"
  | notRecord _ => "model_type"
  | inconsistent _ => "value_error"

/-- Quoted alternatives, the last one after "or". -/
def alternatives (choices : List String) : String :=
  let quoted := choices.map fun c => "'" ++ c ++ "'"
  match quoted.reverse with
  | [] => ""
  | [c] => c
  | last :: others => ", ".intercalate others.reverse ++ " or " ++ last

/-- The wording of an issue. -/
def IssueKind.message : IssueKind → String
  | missing => "Field required"
  | notText => "Input should be a valid string"
  | notList => "Input should be a valid list"
  | notFlag => "Input should be a valid boolean"
  | unreadableFlag => "Input should be a valid boolean, unable to interpret input"
  | noChoice choices => "Input should be " ++ alternatives choices
  | unexpected => "Extra inputs are not permitted"
  | notRecord record => "Input should be a valid dictionary or instance of " ++ record
  | inconsistent detail => "Value error, " ++ detail

/-! ## Readers -/

/-- A value, or all issues that were found. -/
abbrev Checked (α : Type) := Except (List Issue) α

/-- Combines two readings; the issues of both are kept. -/
def Checked.and {α β : Type} (f : Checked (α → β)) (a : Checked α) : Checked β :=
  match f, a with
  | .ok f, .ok a => .ok (f a)
  | .error xs, .ok _ => .error xs
  | .ok _, .error ys => .error ys
  | .error xs, .error ys => .error (xs ++ ys)

/-- Changes the value that was read. -/
def Checked.map {α β : Type} (f : α → β) : Checked α → Checked β
  | .ok a => .ok (f a)
  | .error issues => .error issues

/-- A reader knows the path to its document. -/
abbrev Reader (α : Type) := List PathStep → Json → Checked α

/-- A single issue. -/
def issue {α : Type} (path : List PathStep) (kind : IssueKind) : Checked α :=
  .error [⟨path, kind⟩]

variable {α β : Type}

/-- Reads a text. -/
def readString : Reader String
  | _, .str s => .ok s
  | path, _ => issue path .notText

/-- Reads null as nothing. -/
def readOptional (read : Reader α) : Reader (Option α)
  | _, .null => .ok none
  | path, j => (read path j).map some

/-- Reads the items of a list from a position on. -/
def readItems (read : Reader α) (path : List PathStep) : Nat → List Json → Checked (List α)
  | _, [] => .ok []
  | n, j :: js =>
    Checked.and ((read (path ++ [.index n]) j).map List.cons) (readItems read path (n + 1) js)

/-- Reads a list. -/
def readList (read : Reader α) : Reader (List α)
  | path, .arr items => readItems read path 0 items
  | path, _ => issue path .notList

/-- The texts that stand for a truth value. -/
def flagOfText? (s : String) : Option Bool :=
  let s := s.toLower
  if ["0", "off", "f", "false", "n", "no"].contains s then some false
  else if ["1", "on", "t", "true", "y", "yes"].contains s then some true
  else none

/-- Reads a truth value, also one given as zero or one, or as a word. -/
def readFlag : Reader Bool
  | _, .bool b => .ok b
  | path, .int n =>
    if n = 0 then .ok false else if n = 1 then .ok true else issue path .unreadableFlag
  | path, .float x =>
    if x.isZero then .ok false
    else if x = Binary64.ofInt 1 then .ok true
    else issue path .notFlag
  | path, .str s =>
    match flagOfText? s with
    | some b => .ok b
    | none => issue path .unreadableFlag
  | path, _ => issue path .notFlag

/-- Reads one of several identifiers. -/
def readChoice (ofText? : String → Option α) (choices : List String) : Reader α
  | path, .str s =>
    match ofText? s with
    | some a => .ok a
    | none => issue path (.noChoice choices)
  | path, _ => issue path (.noChoice choices)

/-- The fields of a record with the path to it. -/
structure Record where
  path : List PathStep
  fields : List (String × Json)

/-- A field that has to be there. -/
def Record.required (r : Record) (name : String) (read : Reader α) : Checked α :=
  match r.fields.lookup name with
  | some j => read (r.path ++ [.key name]) j
  | none => issue (r.path ++ [.key name]) .missing

/-- A field with a value for when it is not there. -/
def Record.optional (r : Record) (name : String) (default : α) (read : Reader α) : Checked α :=
  match r.fields.lookup name with
  | some j => read (r.path ++ [.key name]) j
  | none => .ok default

/-- Refuses all other fields; they are reported last. -/
def Record.closed (r : Record) (known : List String) (read : Checked α) : Checked α :=
  let extra := r.fields.filter fun f => !known.contains f.1
  let issues := extra.map fun f => (⟨r.path ++ [.key f.1], .unexpected⟩ : Issue)
  Checked.and (read.map fun a _ => a) (if issues.isEmpty then .ok () else .error issues)

/-- Reads an object as a record. -/
def readRecord (name : String) (read : Record → Checked α) : Reader α
  | path, .obj fields => read ⟨path, fields⟩
  | path, _ => issue path (.notRecord name)

/-! ## Declarations -/

/-- A condition with its message. -/
def readClause : Reader Clause := readRecord "ConditionModel" fun r =>
  Checked.and ((r.required "condition" readString).map Clause.mk) (r.required "message" readString)

/-- An object from condition to message as a list. -/
def listedClauses : Json → Json
  | .obj fields => .arr (fields.map fun f => .obj [("condition", .str f.1), ("message", f.2)])
  | j => j

/-- Conditions in either of their forms. -/
def readClauses : Reader (List Clause) := fun path j => readList readClause path (listedClauses j)

/-- A parameter has a default exactly if its kind asks for one. -/
def checkParameter (path : List PathStep) (p : Parameter Datum) : Checked (Parameter Datum) :=
  if p.kind.isOptional && p.defaultText.isNone then
    issue path (.inconsistent s!"parameter '{p.name}' is {p.kind.text} but has no default")
  else if !p.kind.isOptional && p.defaultText.isSome then
    issue path (.inconsistent s!"parameter '{p.name}' is {p.kind.text} and cannot have a default")
  else .ok p

/-- A parameter. -/
def readParameter : Reader (Parameter Datum) := readRecord "ParameterModel" fun r =>
  let make (name : String) (kind : ParameterKind) (typeText text : Option String)
      (positionalOnly : Bool) : Parameter Datum :=
    { name := name, kind := kind, typeText := typeText, defaultText := text,
      positionalOnly := positionalOnly }
  let read := (r.required "name" readString).map make
  let read := read.and (r.optional "kind" .requiredPositional
    (readChoice ParameterKind.ofText? (ParameterKind.all.map (·.text))))
  let read := read.and (r.optional "annotation" none (readOptional readString))
  let read := read.and (r.optional "default" none (readOptional readString))
  let read := read.and (r.optional "positional_only" false readFlag)
  match read with
  | .ok p => checkParameter r.path p
  | .error issues => .error issues

/-- The fields of a callable, in the order in which they are read. -/
def callableFields : List String :=
  ["name", "role", "parameters", "type_parameters", "is_async", "preconditions",
   "postconditions", "apply_invariants", "returns"]

/-- The fields of a callable with a role for when none is given. -/
def readCallableFields (role : Role) (r : Record) : Checked (Callable Datum) :=
  let make (name : String) (role : Role) (parameters : List (Parameter Datum))
      (typeParameters : List String) (isAsync : Bool) (pre post : List Clause)
      (applyInvariants : Bool) (returns : Option String) : Callable Datum :=
    { name := name, role := role, parameters := parameters, typeParameters := typeParameters,
      isAsync := isAsync, preconditions := pre, postconditions := post,
      applyInvariants := applyInvariants, returns := returns }
  let read := (r.required "name" readString).map make
  let read := read.and (r.optional "role" role
    (readChoice Role.ofText? (Role.all.map (·.text))))
  let read := read.and (r.optional "parameters" [] (readList readParameter))
  let read := read.and (r.optional "type_parameters" [] (readList readString))
  let read := read.and (r.optional "is_async" false readFlag)
  let read := read.and (r.optional "preconditions" [] readClauses)
  let read := read.and (r.optional "postconditions" [] readClauses)
  let read := read.and (r.optional "apply_invariants" false readFlag)
  read.and (r.optional "returns" none (readOptional readString))

/-- A callable of a type. -/
def readCallable : Reader (Callable Datum) := readRecord "CallableModel" fun r =>
  r.closed callableFields (readCallableFields .method r)

/-- A function, which may come with invariants it should not have. -/
def readFunction : Reader (Callable Datum × List Clause) := readRecord "FunctionModel" fun r =>
  let read := (readCallableFields .function r).map fun c (i : Option (List Clause)) =>
    (c, i.getD [])
  r.closed (callableFields ++ ["invariants"])
    (read.and (r.optional "invariants" none
      fun path j => readOptional readClauses path j))

/-- The fields of a type, in the order in which they are read. -/
def typeFields : List String := ["name", "invariants", "fields", "members", "callables"]

/-- A type. -/
def readType : Reader (TypeDecl Datum) := readRecord "TypeModel" fun r =>
  let make (name : String) (invariants : List Clause) (fields members : List String)
      (callables : List (Callable Datum)) : TypeDecl Datum :=
    { name := name, invariants := invariants, fields := fields, members := members,
      callables := callables }
  let read := (r.required "name" readString).map make
  let read := read.and (r.optional "invariants" [] readClauses)
  let read := read.and (r.optional "fields" [] (readList readString))
  let read := read.and (r.optional "members" [] (readList readString))
  r.closed typeFields (read.and (r.optional "callables" [] (readList readCallable)))

/-- Gives the module's name to a type and its callables. -/
def placeType (module : Option String) (t : TypeDecl Datum) : TypeDecl Datum :=
  { t with
    module := module
    callables := t.callables.map fun c => { c with module := module } }

/-- The error for a function with invariants. -/
def misplacedInvariants (name : String) : GenerationError :=
  { cause := .placement (.invariantsOffType name), callableName := some name }

/-- The table for what was read; functions with invariants are rejected. -/
def tableOf (module : Option String) (types : List (TypeDecl Datum))
    (functions : List (Callable Datum × List Clause)) : Table Datum where
  types := types.map (placeType module)
  functions := (functions.filter (·.2.isEmpty)).map fun f => { f.1 with module := module }
  errors := (functions.filter (!·.2.isEmpty)).map fun f => misplacedInvariants f.1.name

/-- A declaration document. -/
def readTable : Reader (Table Datum) := readRecord "DeclarationTableModel" fun r =>
  let read := (r.optional "module" none (readOptional readString)).map tableOf
  let read := read.and (r.optional "types" [] (readList readType))
  read.and (r.optional "functions" [] (readList readFunction))

end Covenant.Document
