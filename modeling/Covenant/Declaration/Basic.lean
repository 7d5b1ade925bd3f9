import Covenant.Condition.Old

/-! # Declarations — what is to be woven

    A table declares types and functions.  A type has invariants, fields and
    callables; a callable has parameters, preconditions and postconditions.
    Defaults and implementations are values of a type `α` that the analyses
    never look into. -/

namespace Covenant.Declaration

open Condition

/-- A condition and the message reported when it is false. -/
structure Clause where
  text : String
  message : String
  deriving DecidableEq

/-- How a parameter is passed. -/
inductive ParameterKind where
  | requiredPositional | optionalPositional | variadicPositional
  | requiredNamed | optionalNamed | variadicNamed
  deriving DecidableEq, Repr

namespace ParameterKind

/-- The identifier of a kind. -/
def text : ParameterKind → String
  | requiredPositional => "required-positional"
  | optionalPositional => "optional-positional"
  | variadicPositional => "variadic-positional"
  | requiredNamed => "required-named"
  | optionalNamed => "optional-named"
  | variadicNamed => "variadic-named"

/-- All kinds, in the order in which they are listed. -/
def all : List ParameterKind :=
  [requiredPositional, optionalPositional, variadicPositional, requiredNamed, optionalNamed,
   variadicNamed]

/-- The kind with an identifier. -/
def ofText? (s : String) : Option ParameterKind := all.find? (·.text == s)

/-- Passed by name, one value for one name. -/
def isNamed : ParameterKind → Bool
  | requiredNamed | optionalNamed => true
  | _ => false

/-- May be left out. -/
def isOptional : ParameterKind → Bool
  | optionalPositional | optionalNamed => true
  | _ => false

end ParameterKind

/-- A parameter of a callable. -/
structure Parameter (α : Type) where
  name : String
  kind : ParameterKind := .requiredPositional
  /-- The declared type, as written. -/
  typeText : Option String := none
  default : Option α := none
  /-- The default, as written. -/
  defaultText : Option String := none
  positionalOnly : Bool := false

/-- Whether a parameter has a default, as a value or as written. -/
def Parameter.hasDefault {α : Type} (p : Parameter α) : Bool :=
  p.default.isSome || p.defaultText.isSome

/-- The parameter with another value for its default. -/
def Parameter.map {α β : Type} (f : α → β) (p : Parameter α) : Parameter β :=
  { p with default := p.default.map f }

/-- What a callable is. -/
inductive Role where
  | method | constructor | function
  deriving DecidableEq, Repr

namespace Role

/-- The identifier of a role. -/
def text : Role → String
  | method => "method"
  | constructor => "constructor"
  | function => "function"

/-- All roles. -/
def all : List Role := [method, constructor, function]

/-- The role with an identifier. -/
def ofText? (s : String) : Option Role := all.find? (·.text == s)

end Role

/-- A callable with its contract. -/
structure Callable (α : Type) where
  /-- The name of the implementation. -/
  name : String
  role : Role := .method
  parameters : List (Parameter α) := []
  typeParameters : List String := []
  isAsync : Bool := false
  preconditions : List Clause := []
  postconditions : List Clause := []
  applyInvariants : Bool := false
  implementation : Option α := none
  returns : Option String := none
  module : Option String := none

namespace Callable

variable {α : Type}

/-- Whether there is anything to check. -/
def hasContract (c : Callable α) : Bool :=
  !c.preconditions.isEmpty || !c.postconditions.isEmpty || c.applyInvariants

/-- The names of the parameters. -/
def parameterNames (c : Callable α) : List String := c.parameters.map (·.name)

/-- The callable with other values for defaults and implementation. -/
def map {β : Type} (f : α → β) (c : Callable α) : Callable β :=
  { c with
    parameters := c.parameters.map (·.map f)
    implementation := c.implementation.map f }

end Callable

/-- A type with its invariants and callables. -/
structure TypeDecl (α : Type) where
  name : String
  invariants : List Clause := []
  callables : List (Callable α) := []
  /-- What `old` may name. -/
  fields : List String := []
  /-- Public names that are taken. -/
  members : List String := []
  module : Option String := none

/-- The type with other values for defaults and implementations. -/
def TypeDecl.map {α β : Type} (f : α → β) (t : TypeDecl α) : TypeDecl β :=
  { t with callables := t.callables.map (·.map f) }

/-- Everything that is to be woven together, and what was already rejected. -/
structure Table (α : Type) where
  types : List (TypeDecl α) := []
  functions : List (Callable α) := []
  errors : List GenerationError := []

namespace Table

variable {α : Type}

/-- The first type of a name. -/
def typeNamed (t : Table α) (name : String) : Option (TypeDecl α) :=
  t.types.find? (·.name == name)

/-- How many types, methods and functions there are. -/
def counts (t : Table α) : Nat × Nat × Nat :=
  (t.types.length, (t.types.flatMap (·.callables)).length, t.functions.length)

end Table

/-! ## Names -/

/-- The name of the constructor's implementation. -/
def initializerName : String := "_init"

/-- The name under which it is published. -/
def publicInitializerName : String := "__init__"

/-- A name that starts with an underscore, has something else in it and is not written
    between double underscores. -/
def isPrivateName (name : String) : Bool :=
  let cs := name.toList
  cs.head? == some '_' && cs.any (· != '_')
    && !(['_', '_'].isPrefixOf cs && ['_', '_'].isSuffixOf cs)

/-- The public name of an implementation: without the underscores at its start. -/
def publicName (name : String) (role : Role) : String :=
  if role = .constructor ∧ name = initializerName then publicInitializerName
  else String.ofList (name.toList.dropWhile (· = '_'))

/-- The usual name of the implementation behind a public name. -/
def internalName (name : String) : String :=
  if name = publicInitializerName then initializerName else "_" ++ name

/-- The name of the generated class for a type. -/
def mixinName (owner : String) : String := owner ++ "Contracts"

/-- The name of the generated file for a base name. -/
def generatedName (base : String) : String := base ++ "_contracts.py"

end Covenant.Declaration
