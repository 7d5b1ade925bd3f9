import Covenant.Text.Blank
import Covenant.Text.Quoted

/-! # Errors — why a declaration cannot be woven

    An error is a cause with the place it was found at: a type, a callable and
    a clause, each of which may be unknown.  Causes are data; the wording is in
    the `message` functions alone. -/

namespace Covenant

open Text

/-! ## Reserved names -/

/-- The function that names the value a field had on entry. -/
def oldName : String := "old"

/-- The name under which captured values are looked up. -/
def lookupName : String := "__old__"

/-- The name of the instance. -/
def selfName : String := "self"

/-- The name of the call's result. -/
def resultName : String := "result"

/-! ## Causes -/

/-- Constructs that write state or suspend, and so cannot stand in a condition. -/
inductive Construct where
  | naming | awaiting | yielding | delegating
  deriving DecidableEq, Repr

/-- How a construct is called in messages. -/
def Construct.phrase : Construct → String
  | .naming => "assignment expressions"
  | .awaiting => "await"
  | .yielding => "yield"
  | .delegating => "yield from"

/-- Why a text is no condition. -/
inductive ConditionFault where
  | empty
  | unreadable
  | forbidden (c : Construct)
  deriving DecidableEq

/-- Why a call of `old` is wrong. -/
inductive OldFault where
  | arity (given : Nat)
  | operand (text : String)
  deriving DecidableEq

/-- Where `old` was used although it has no meaning there. -/
inductive NoOldPlace where
  | invariant | precondition
  deriving DecidableEq

/-- How such a place is called. -/
def NoOldPlace.phrase : NoOldPlace → String
  | .invariant => "an invariant"
  | .precondition => "a precondition"

/-- Rules on where contracts may stand, with what broke them. -/
inductive PlacementFault where
  | invariantsOffType (target : String)
  | markerOffType (target : String)
  | noInternalName (name : String)
  | constructorWithoutType
  | invariantsWithoutType
  | asyncConstructor
  | lookupParameter
  | resultParameter
  | lookupInClause
  | oldOutsidePostcondition (place : NoOldPlace)
  | oldInConstructor
  | resultOutsidePostcondition
  | boundMember (name binding : String)
  deriving DecidableEq

/-- The identifier of the broken rule. -/
def PlacementFault.rule : PlacementFault → String
  | .invariantsOffType _ | .markerOffType _ => "invariants-require-type"
  | .noInternalName _ => "internal-implementation-required"
  | .constructorWithoutType => "constructor-requires-type"
  | .invariantsWithoutType => "invariant-marker-requires-type"
  | .asyncConstructor => "async-constructor"
  | .lookupParameter | .resultParameter | .lookupInClause => "reserved-name"
  | .oldOutsidePostcondition _ => "old-outside-postcondition"
  | .oldInConstructor => "old-in-constructor"
  | .resultOutsidePostcondition => "result-outside-postcondition"
  | .boundMember .. => "instance-member-required"

/-- Removes underscores at both ends; a name of nothing else gives the fallback. -/
def bareName (name fallback : String) : String :=
  let bare := stripWhile (· = '_') name
  if bare.isEmpty then fallback else bare

/-- What the broken rule says. -/
def PlacementFault.detail : PlacementFault → String
  | .invariantsOffType target =>
    s!"invariants can only be declared on a type, not on '{target}'"
  | .markerOffType target => s!"@contract applies to classes, not to '{target}'"
  | .noInternalName name =>
    let bare := bareName name "name"
    s!"'{name}' has no internal implementation separate from its public entry point; declare it as '_{bare}'"
  | .constructorWithoutType => "a constructor must belong to a type"
  | .invariantsWithoutType => "the invariant marker needs an enclosing type"
  | .asyncConstructor => "a constructor cannot be a coroutine function"
  | .lookupParameter => s!"parameter name '{lookupName}' is reserved"
  | .resultParameter => s!"parameter '{resultName}' would hide the call result in postconditions"
  | .lookupInClause => s!"'{lookupName}' is reserved for captured values"
  | .oldOutsidePostcondition place =>
    s!"{oldName}() can only be used in postconditions, not in {place.phrase}"
  | .oldInConstructor => s!"{oldName}() has no prior state to refer to in a constructor"
  | .resultOutsidePostcondition => s!"'{resultName}' is only available in postconditions"
  | .boundMember name binding =>
    s!"'{name}' is a {binding}; contracts apply to instance methods"

/-- Why a public name cannot be given. -/
inductive NameConflict where
  /-- Another declaration with this internal name has it. -/
  | claimed (other : String)
  /-- A member of the place has it already. -/
  | defined
  deriving DecidableEq

/-- Why a declaration cannot be woven. -/
inductive Cause where
  | condition (fault : ConditionFault)
  | conditionsNotLiteral (line : Nat)
  | conditionsNotMapping (line : Nat)
  | old (fault : OldFault)
  | unknownField (name : String) (owner : Option String)
  | placement (fault : PlacementFault)
  | duplicateName (name internal place : String) (conflict : NameConflict)
  deriving DecidableEq

/-- The kind of error that a cause belongs to. -/
def Cause.kind : Cause → String
  | .condition _ | .conditionsNotLiteral _ | .conditionsNotMapping _ => "MalformedExpression"
  | .old (.arity _) => "InvalidOldArity"
  | .old (.operand _) => "InvalidOldOperand"
  | .unknownField .. => "UnknownOldField"
  | .placement _ => "ContractPlacementError"
  | .duplicateName .. => "DuplicatePublicName"

/-- A text unless it is missing or empty. -/
def present : Option String → Option String
  | some "" => none
  | t => t

/-- A text, with a fallback for a missing or empty one. -/
def presentOr (t : Option String) (fallback : String) : String := (present t).getD fallback

/-- The wording of a cause; what makes a text unreadable is not told. -/
def Cause.message : Cause → String
  | .condition .empty => "condition is empty"
  | .condition .unreadable => "invalid condition syntax: *"
  | .condition (.forbidden c) => s!"{c.phrase} not allowed in a condition"
  | .conditionsNotLiteral line => s!"conditions must be a literal dict of strings (line {line})"
  | .conditionsNotMapping line => s!"expected a dict of condition -> message (line {line})"
  | .old (.arity given) => s!"{oldName}() takes exactly one positional argument ({given} given)"
  | .old (.operand text) =>
    let shown := quote text
    s!"{oldName}() operand must be a field name, got {shown}"
  | .unknownField name owner =>
    let place := presentOr owner "<module>"
    s!"old({name}) does not name a readable field of {place}"
  | .placement fault => s!"{fault.detail} ({fault.rule})"
  | .duplicateName name internal place (.claimed other) =>
    s!"'{internal}' and '{other}' both map to public name '{name}' in {place}"
  | .duplicateName name internal place .defined =>
    s!"public name '{name}' for '{internal}' is already defined in {place}"

/-! ## Errors -/

/-- A cause with the place it was found at. -/
structure GenerationError where
  cause : Cause
  typeName : Option String := none
  callableName : Option String := none
  clause : Option String := none
  deriving DecidableEq

namespace GenerationError

/-- The wording of the cause. -/
def message (e : GenerationError) : String := e.cause.message

/-- The kind of the cause. -/
def kind (e : GenerationError) : String := e.cause.kind

/-- Fills in what was unknown where the error arose; an empty name counts as unknown. -/
def locate (e : GenerationError) (typeName callableName : Option String) : GenerationError :=
  { e with
    typeName := (present e.typeName).or typeName
    callableName := (present e.callableName).or callableName
    clause := present e.clause }

/-- The type and the callable, as far as they are known. -/
def location (e : GenerationError) : String :=
  match (present e.typeName).toList ++ (present e.callableName).toList with
  | [] => "<module>"
  | parts => ".".intercalate parts

/-- The error as one line of text, with the clause as a literal. -/
def text (e : GenerationError) : String :=
  s!"{e.kind} in {e.location}: {e.message}"
    ++ (match e.clause with
      | some c => " [clause: " ++ quote c ++ "]"
      | none => "")

end GenerationError

/-- The summary of all errors of a declaration set. -/
def failureMessage (errors : List GenerationError) : String :=
  "\n".intercalate (s!"{errors.length} contract declaration(s) rejected:"
    :: errors.map fun e => "  - " ++ e.text)

/-! ## Violations -/

/-- Which promise was broken while a wrapper ran. -/
inductive ViolationKind where
  | invariant | precondition | postcondition
  deriving DecidableEq, Repr

/-- The name of the violation that is raised. -/
def ViolationKind.name : ViolationKind → String
  | .invariant => "InvariantViolation"
  | .precondition => "PreconditionViolation"
  | .postcondition => "PostconditionViolation"

/-- A broken promise: the declared message, the clause and the entry point. -/
structure Violation where
  kind : ViolationKind
  message : String
  clause : String
  qualname : String
  deriving DecidableEq

end Covenant
