import Covenant.Names
import Covenant.Signature.Basic

/-! # Binding — arguments for parameters

    A published signature takes a call's arguments apart: each parameter gets
    a value, the variadic one a list and the last one a mapping of names.
    Forwarding turns a binding back into arguments. -/

namespace Covenant.Signature

open Declaration Text

/-- How a published parameter can be passed, in the order of a signature. -/
inductive Passing where
  | positionalOnly | positionalOrNamed | variadic | namedOnly | variadicNamed
  deriving DecidableEq, Repr

namespace Passing

/-- The place in a signature. -/
def order : Passing → Nat
  | positionalOnly => 0
  | positionalOrNamed => 1
  | variadic => 2
  | namedOnly => 3
  | variadicNamed => 4

/-- The identifier. -/
def label : Passing → String
  | positionalOnly => "POSITIONAL_ONLY"
  | positionalOrNamed => "POSITIONAL_OR_KEYWORD"
  | variadic => "VAR_POSITIONAL"
  | namedOnly => "KEYWORD_ONLY"
  | variadicNamed => "VAR_KEYWORD"

/-- The words for it in messages. -/
def phrase : Passing → String
  | positionalOnly => "positional-only"
  | positionalOrNamed => "positional or keyword"
  | variadic => "variadic positional"
  | namedOnly => "keyword-only"
  | variadicNamed => "variadic keyword"

end Passing

/-- The passing of a kind. -/
def passingOf : ParameterKind → Passing
  | .requiredPositional | .optionalPositional => .positionalOrNamed
  | .variadicPositional => .variadic
  | .requiredNamed | .optionalNamed => .namedOnly
  | .variadicNamed => .variadicNamed

/-- A parameter of a published signature. -/
structure Slot (α : Type) where
  name : String
  passing : Passing
  default : Option α := none
  typeText : Option String := none

variable {α : Type}

/-! ## Publishing -/

/-- Why parameters make no signature. -/
inductive SlotFault where
  | badName (name : String)
  | emptyName
  | wrongOrder (later earlier : Passing)
  | missingDefault
  | duplicate (name : String)
  deriving DecidableEq

/-- The wording of a fault. -/
def SlotFault.message : SlotFault → String
  | .badName name =>
    let shown := quote name
    s!"{shown} is not a valid parameter name"
  | .emptyName => "string index out of range"
  | .wrongOrder later earlier =>
    s!"wrong parameter order: {later.phrase} parameter before {earlier.phrase} parameter"
  | .missingDefault => "non-default argument follows default argument"
  | .duplicate name =>
    let shown := quote name
    s!"duplicate parameter name: {shown}"

/-- A slot whose name is an identifier; a reserved word will do for one that is only
    positional. -/
def checkedSlot (s : Slot α) : Except SlotFault (Slot α) :=
  let reserved := keywords.contains s.name && s.passing != .positionalOnly
  if s.name.isEmpty then .error .emptyName
  else if reserved || !isIdentifier s.name.toList then .error (.badName s.name)
  else .ok s

/-- The slot of a declared parameter. -/
def slotOf (p : Parameter α) : Slot α where
  name := p.name
  passing := if p.positionalOnly then .positionalOnly else passingOf p.kind
  default := if p.kind.isOptional then p.default else none
  typeText := present p.typeText

/-- Checks the order of slots.  The arguments are the last passing met, whether a default
    has been met and the names met. -/
def checkOrder : Passing → Bool → List String → List (Slot α) → Except SlotFault Unit
  | _, _, _, [] => .ok ()
  | top, defaulted, names, s :: rest =>
    if s.passing.order < top.order then .error (.wrongOrder top s.passing)
    else
      let positional := s.passing = .positionalOnly ∨ s.passing = .positionalOrNamed
      if positional ∧ s.default.isNone ∧ defaulted = true then .error .missingDefault
      else if names.contains s.name then .error (.duplicate s.name)
      else checkOrder s.passing (defaulted || (decide positional && s.default.isSome))
        (s.name :: names) rest

/-- A signature from slots, if they are named and ordered well. -/
def published (slots : List (Slot α)) : Except SlotFault (List (Slot α)) := do
  let slots ← slots.mapM checkedSlot
  checkOrder .positionalOnly false [] slots
  pure slots

/-- The slots of a wrapper, with its receiver or without. -/
def slots (s : Signature α) (withReceiver : Bool) : Except SlotFault (List (Slot α)) :=
  let receiver : List (Slot α) :=
    if withReceiver then
      (present s.receiver).toList.map fun r => { name := r, passing := .positionalOrNamed }
    else []
  published (receiver ++ s.declaration.map slotOf)

/-! ## Binding -/

/-- What a parameter is bound to. -/
inductive Bound (α : Type) where
  | one (value : α)
  | many (values : List α)
  | named (values : List (String × α))

/-- A value for every bound parameter, in order. -/
abbrev Binding (α : Type) := Names (Bound α)

/-- Why a call does not fit a signature. -/
inductive BindFault where
  | tooManyPositional
  | missing (name : String)
  | multiple (name : String)
  | positionalOnly (name : String)
  | unexpected (name : String)
  deriving DecidableEq

/-- The wording of a fault. -/
def BindFault.message : BindFault → String
  | .tooManyPositional => "too many positional arguments"
  | .missing name => "missing a required argument: " ++ quote name
  | .multiple name => "multiple values for argument " ++ quote name
  | .positionalOnly name =>
    quote name ++ " parameter is positional only, but was passed as a keyword"
  | .unexpected name => "got an unexpected keyword argument " ++ quote name

/-- Binds the remaining slots by name. -/
def bindNamed : List (Slot α) → List (String × α) → Option String →
    Except BindFault (Binding α × List (String × α) × Option String)
  | [], kwargs, rest => .ok ([], kwargs, rest)
  | s :: slots, kwargs, rest =>
    match s.passing with
    | .variadicNamed => bindNamed slots kwargs (some s.name)
    | .variadic => bindNamed slots kwargs rest
    | passing =>
      match kwargs.lookup s.name with
      | some v =>
        if passing = .positionalOnly then .error (.positionalOnly s.name)
        else do
          let (b, kwargs, rest) ← bindNamed slots (Names.erase s.name kwargs) rest
          .ok ((s.name, .one v) :: b, kwargs, rest)
      | none =>
        if s.default.isSome then bindNamed slots kwargs rest else .error (.missing s.name)

/-- Binds the remaining slots by name and what is left over to the last one. -/
def finishBinding (slots : List (Slot α)) (kwargs : List (String × α)) :
    Except BindFault (Binding α) := do
  let (b, left, rest) ← bindNamed slots kwargs none
  match left, rest with
  | [], _ => .ok b
  | left, some name => .ok (b ++ [(name, .named left)])
  | (name, _) :: _, none => .error (.unexpected name)

/-- Binds positional arguments to slots from the left, then the others by name. -/
def bindArguments : List (Slot α) → List α → List (String × α) → Except BindFault (Binding α)
  | [], [], kwargs => finishBinding [] kwargs
  | [], _ :: _, _ => .error .tooManyPositional
  | s :: slots, [], kwargs =>
    if s.passing = .variadic then finishBinding slots kwargs
    else if (kwargs.lookup s.name).isSome then
      if s.passing = .positionalOnly then .error (.positionalOnly s.name)
      else finishBinding (s :: slots) kwargs
    else if s.passing = .variadicNamed ∨ s.default.isSome then finishBinding (s :: slots) kwargs
    else .error (.missing s.name)
  | s :: slots, a :: args, kwargs =>
    match s.passing with
    | .variadicNamed | .namedOnly => .error .tooManyPositional
    | .variadic => do
      let b ← finishBinding slots kwargs
      .ok ((s.name, .many (a :: args)) :: b)
    | passing =>
      if passing ≠ .positionalOnly ∧ (kwargs.lookup s.name).isSome then .error (.multiple s.name)
      else do
        let b ← bindArguments slots args kwargs
        .ok ((s.name, .one a) :: b)

/-- Binds arguments as a function itself does: where further names are taken, a name of a
    parameter that is only positional is one of them. -/
def bindCall (slots : List (Slot α)) (args : List α) (kwargs : List (String × α)) :
    Except BindFault (Binding α) :=
  let isFurther (name : String) : Bool :=
    slots.any fun s => s.passing == .positionalOnly && s.name == name
  match slots.find? (·.passing == .variadicNamed) with
  | none => bindArguments slots args kwargs
  | some rest => do
    let b ← bindArguments slots args (kwargs.filter fun k => !isFurther k.1)
    let left : List String := match b.lookup rest.name with
      | some (.named vs) => vs.map Prod.fst
      | _ => []
    match kwargs.filter fun k => isFurther k.1 || left.contains k.1 with
    | [] => .ok b
    | further => .ok (Names.set b rest.name (.named further))

/-- Gives every slot that is not bound its default; the variadic ones are empty. -/
def applyDefaults (slots : List (Slot α)) (b : Binding α) : Binding α :=
  slots.filterMap fun s =>
    match b.lookup s.name with
    | some v => some (s.name, v)
    | none =>
      match s.default, s.passing with
      | some d, _ => some (s.name, .one d)
      | none, .variadic => some (s.name, .many [])
      | none, .variadicNamed => some (s.name, .named [])
      | none, _ => none

/-! ## Forwarding -/

/-- The positional and named arguments of the call into the implementation. -/
def forward (declaration : List (Parameter α)) (b : Binding α) : List α × List (String × α) :=
  declaration.foldl (fun acc p =>
    match b.lookup p.name with
    | none => acc
    | some (.many vs) => (acc.1 ++ vs, acc.2)
    | some (.named vs) => (acc.1, vs.foldl (fun ks q => Names.set ks q.1 q.2) acc.2)
    | some (.one v) =>
      if p.kind.isNamed then (acc.1, Names.set acc.2 p.name v) else (acc.1 ++ [v], acc.2)) ([], [])

end Covenant.Signature
