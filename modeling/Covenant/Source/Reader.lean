import Covenant.Grammar.Statement
import Covenant.Source.Field
import Covenant.Tree.Segment

/-! # Reading declarations — the table of a program text

    The classes and functions of a text that are marked are declared by it;
    nothing is run.  A member or function whose conditions cannot be read is
    left out and reported, and so is a class whose invariants cannot be read;
    the others are still declared. -/

namespace Covenant.Source

open Declaration Covenant.Tree Value

/-- The text under a span. -/
def written (source : List Char) (e : Expr) : String := String.ofList (segment source e.span)

/-! ## Parameters -/

/-- A declared parameter with its default. -/
def parameterOf (source : List Char) (kind : ParameterKind) (positionalOnly : Bool)
    (f : Formal) (default : Option Expr) : Parameter Datum where
  name := f.name
  kind := kind
  typeText := f.hint.map (written source)
  default := default.bind literal?
  defaultText := default.map (written source)
  positionalOnly := positionalOnly

/-- The kind of a positional parameter. -/
def positionalKind (default : Option Expr) : ParameterKind :=
  if default.isSome then .optionalPositional else .requiredPositional

/-- The kind of a named parameter. -/
def namedKind (default : Option Expr) : ParameterKind :=
  if default.isSome then .optionalNamed else .requiredNamed

/-- The positional parameters with their defaults, which belong to the last ones, and
    whether they are only positional. -/
def positionalFormals (fs : Formals) : List (Formal × Option Expr × Bool) :=
  let formals := fs.positionalOnly.map (·, true) ++ fs.positional.map (·, false)
  let defaults := List.replicate (formals.length - fs.defaults.length) none
    ++ fs.defaults.map some
  (formals.zip defaults).map fun p => (p.1.1, p.2, p.1.2)

/-- The parameters of a definition; the receiver is the first positional one. -/
def parametersOf (source : List Char) (fs : Formals) (skipReceiver : Bool) :
    List (Parameter Datum) :=
  let positional := (positionalFormals fs).drop (if skipReceiver then 1 else 0)
  positional.map (fun p => parameterOf source (positionalKind p.2.1) p.2.2 p.1 p.2.1)
    ++ fs.variadic.toList.map (fun f => parameterOf source .variadicPositional false f none)
    ++ fs.named.map (fun p => parameterOf source (namedKind p.2) false p.1 p.2)
    ++ fs.variadicNamed.toList.map (fun f => parameterOf source .variadicNamed false f none)

/-! ## Callables -/

/-- The pre- and postconditions that a list of decorators adds, in source order. -/
def decoratedClauses :
    List Expr → List Clause × List Clause → Except GenerationError (List Clause × List Clause)
  | [], acc => .ok acc
  | d :: ds, (pre, post) =>
    match markerName d with
    | some "precondition" => do
      let more ← markerClauses 0 "asserts" d
      decoratedClauses ds (pre ++ more, post)
    | some "postcondition" => do
      let more ← markerClauses 0 "asserts" d
      decoratedClauses ds (pre, post ++ more)
    | _ => decoratedClauses ds (pre, post)

/-- The declaration of a definition. -/
def callableOf (source : List Char) (module : Option String) (role : Role)
    (applyInvariants : Bool) (h : FunctionHead) (pre post : List Clause) :
    Except GenerationError (Callable Datum) := do
  let (pre, post) ← decoratedClauses h.decorators (pre, post)
  pure {
    name := h.name
    role := role
    parameters := parametersOf source h.formals (role ≠ .function)
    isAsync := h.isAsync
    preconditions := pre
    postconditions := post
    applyInvariants := applyInvariants
    returns := h.returns.map (written source)
    module := module }

/-- The declaration of a function, if it is marked. -/
def functionOf (source : List Char) (module : Option String) (h : FunctionHead) :
    Except GenerationError (Option (Callable Datum)) :=
  match findMarker functionMarker h.decorators with
  | none => .ok none
  | some marker => do
    let pre ← markerClauses 0 "preconditions" marker
    let post ← markerClauses 1 "postconditions" marker
    let marked := (findMarker "invariant" h.decorators).isSome
    let c ← callableOf source module .function marked h pre post
    pure (some c)

/-- What became of a member of a class. -/
inductive Member where
  | plain
  | declared (c : Callable Datum)
  | rejected (e : GenerationError)

/-- Whether a member of a class takes part in its contract. -/
def isContractMember (h : FunctionHead) : Bool :=
  h.name == initializerName
    || h.decorators.any fun d => memberMarkers.any fun m => markerName d == some m

/-- The decorator that keeps a member from having an instance. -/
def bindingOf (h : FunctionHead) : Option String :=
  (h.decorators.filterMap markerName).find? fun n => n == "staticmethod" || n == "classmethod"

/-- The declaration of a member. -/
def memberOf (source : List Char) (module : Option String) (owner : String) :
    Stmt → Member
  | .function h _ =>
    if !isContractMember h then .plain
    else
      match bindingOf h with
      | some binding =>
        .rejected { cause := .placement (.boundMember h.name binding), typeName := some owner,
                    callableName := some h.name }
      | none =>
        let isConstructor := h.name == initializerName
          || (findMarker "constructor" h.decorators).isSome
        let role : Role := if isConstructor then .constructor else .method
        match callableOf source module role true h [] [] with
        | .ok c => .declared c
        | .error e => .rejected (e.locate (some owner) (some h.name))
  | _ => .plain

/-! ## Types -/

/-- What became of a statement at the top of a text. -/
inductive Item where
  | type (t : TypeDecl Datum) (errors : List GenerationError)
  | function (c : Callable Datum)
  | rejected (e : GenerationError)
  | other

/-- The declaration of a class, if it is marked. -/
def typeOf (source : List Char) (module : Option String) (classes : List ClassDef)
    (c : ClassDef) : Except FieldFault Item :=
  match findMarker typeMarker c.head.decorators with
  | none => .ok .other
  | some marker =>
    match markerClauses 0 "invariants" marker with
    | .error e => .ok (.rejected (e.locate (some c.name) none))
    | .ok invariants => do
      let members := c.body.map (memberOf source module c.name)
      let fields ← fieldsOf classes c
      pure (.type {
          name := c.name
          invariants := invariants
          callables := members.filterMap fun
            | .declared m => some m
            | _ => none
          fields := fields
          members := membersOf c
          module := module }
        (members.filterMap fun
          | .rejected e => some e
          | _ => none))

/-- The declaration that a statement at the top of a text makes. -/
def itemOf (source : List Char) (module : Option String) (classes : List ClassDef) :
    Stmt → Except FieldFault Item
  | .cls h b => typeOf source module classes ⟨h, b⟩
  | .function h _ =>
    match functionOf source module h with
    | .ok (some c) => .ok (.function c)
    | .ok none => .ok .other
    | .error e => .ok (.rejected (e.locate none (some h.name)))
  | _ => .ok .other

/-- The classes at the top of a text. -/
def classesOf (program : List Stmt) : List ClassDef :=
  program.filterMap fun
    | .cls h b => some ⟨h, b⟩
    | _ => none

/-- The errors of an item. -/
def Item.errors : Item → List GenerationError
  | .type _ es => es
  | .rejected e => [e]
  | _ => []

/-- The table of the items of a text. -/
def tableOf (items : List Item) : Table Datum where
  types := items.filterMap fun
    | .type t _ => some t
    | _ => none
  functions := items.filterMap fun
    | .function c => some c
    | _ => none
  errors := items.flatMap Item.errors

/-- Why a text gives no table. -/
inductive SourceFault where
  /-- The null character can be in no program. -/
  | nullCharacter
  | unreadable
  | fields (fault : FieldFault)
  deriving DecidableEq, Repr

/-- The declarations of a program. -/
def declarations (source : List Char) (module : Option String) (program : List Stmt) :
    Except FieldFault (Table Datum) := do
  let items ← program.mapM (itemOf source module (classesOf program))
  pure (tableOf items)

/-- The declarations of a program text. -/
def readTable (module : Option String) (source : String) : Except SourceFault (Table Datum) :=
  let text := source.toList
  if text.contains '\x00' then .error .nullCharacter
  else
    match Grammar.readProgram? text with
    | none => .error .unreadable
    | some program => (declarations text module program).mapError .fields

end Covenant.Source
