import Covenant.Condition.Parse
import Covenant.Declaration.Basic

/-! # Validation — where contracts may stand

    Every clause of a declaration is parsed once.  A callable with a contract
    has to be a private implementation, must not use reserved names, and may
    refer to old values and to the result only where these exist.  The first
    rule that is broken is reported. -/

namespace Covenant.Declaration

open Condition Covenant.Tree

/-- A clause with its tree. -/
structure ParsedClause where
  text : String
  message : String
  tree : Expr

/-- A callable that keeps all rules, with its clauses parsed. -/
structure Validated (α : Type) where
  declaration : Callable α
  invariants : List ParsedClause
  preconditions : List ParsedClause
  postconditions : List ParsedClause
  /-- The old values that the postconditions refer to. -/
  references : List OldReference

variable {α : Type}

/-! ## Clauses -/

/-- An error that is found in a clause. -/
def inClause (text : String) (cause : Cause) : GenerationError :=
  { cause := cause, clause := some text }

/-- Parses a clause. -/
def parseClause (c : Clause) : Except GenerationError ParsedClause :=
  match parse c.text with
  | .ok tree => .ok ⟨c.text, c.message, tree⟩
  | .error fault => .error (inClause c.text (.condition fault))

/-- Parses clauses; the first one that is no condition is reported. -/
def parseClauses (cs : List Clause) : Except GenerationError (List ParsedClause) :=
  cs.mapM parseClause

namespace ParsedClause

/-- Whether a clause reads a name anywhere. -/
def reads (c : ParsedClause) (name : String) : Bool := (loadedNames c.tree).contains name

/-- The old values a clause refers to. -/
def oldReferences (c : ParsedClause) : Except GenerationError (List OldReference) :=
  (references (some c.text) selfName c.tree).mapError fun fault => inClause c.text (.old fault)

/-- Reports a broken rule. -/
def reject (c : ParsedClause) (fault : PlacementFault) : Except GenerationError Unit :=
  .error (inClause c.text (.placement fault))

/-- Reports a rule if it is broken. -/
def rejectIf (c : ParsedClause) (broken : Bool) (fault : PlacementFault) :
    Except GenerationError Unit :=
  if broken then c.reject fault else .ok ()

/-- No clause may read the captured values itself. -/
def checkLookup (c : ParsedClause) : Except GenerationError Unit :=
  c.rejectIf (c.reads lookupName) .lookupInClause

/-- There are no old values at some places. -/
def checkNoOld (c : ParsedClause) (place : NoOldPlace) : Except GenerationError Unit := do
  let found ← c.oldReferences
  c.rejectIf (!found.isEmpty) (.oldOutsidePostcondition place)

/-- The rules for an invariant. -/
def checkInvariant (c : ParsedClause) : Except GenerationError Unit := do
  c.checkNoOld .invariant
  c.checkLookup
  c.rejectIf (c.reads resultName) .resultOutsidePostcondition

/-- The rules for a precondition of a callable with these parameters. -/
def checkPrecondition (c : ParsedClause) (parameters : List String) :
    Except GenerationError Unit := do
  c.checkLookup
  c.checkNoOld .precondition
  c.rejectIf (c.reads resultName && !parameters.contains resultName) .resultOutsidePostcondition

/-- An old value has to be that of a field of the enclosing type. -/
def checkField (c : ParsedClause) (enclosing : Option (TypeDecl α)) (r : OldReference) :
    Except GenerationError Unit :=
  let known := match enclosing with
    | some t => t.fields.contains r.field
    | none => false
  if known then .ok ()
  else
    .error { cause := .unknownField r.field (enclosing.map (·.name)),
             typeName := enclosing.map (·.name), clause := some c.text }

/-- The rules for a postcondition; gives the old values it refers to. -/
def checkPostcondition (c : ParsedClause) (role : Role) (enclosing : Option (TypeDecl α)) :
    Except GenerationError (List OldReference) := do
  c.checkLookup
  let found ← c.oldReferences
  c.rejectIf (role = .constructor && !found.isEmpty) .oldInConstructor
  found.forM (c.checkField enclosing)
  pure found

end ParsedClause

/-! ## Declarations -/

/-- The parsed invariants of a type, if they keep the rules. -/
def validateType (t : TypeDecl α) : Except GenerationError (List ParsedClause) := do
  let invariants ← parseClauses t.invariants
  invariants.forM ParsedClause.checkInvariant
  pure invariants

/-- The rule on declarations that a callable breaks first, whatever its clauses say. -/
def placementFault? (c : Callable α) (enclosed : Bool) : Option PlacementFault :=
  if !isPrivateName c.name then some (.noInternalName c.name)
  else if !enclosed && c.role = .constructor then some .constructorWithoutType
  else if !enclosed && c.applyInvariants then some .invariantsWithoutType
  else if c.role = .constructor && c.isAsync then some .asyncConstructor
  else if c.parameterNames.contains lookupName then some .lookupParameter
  else if !c.postconditions.isEmpty && c.parameterNames.contains resultName then
    some .resultParameter
  else none

/-- The callable with its parsed clauses; nothing if it has no contract. -/
def validateCallable (c : Callable α) (enclosing : Option (TypeDecl α))
    (invariants : List ParsedClause) : Except GenerationError (Option (Validated α)) := do
  if !c.hasContract then return none
  match placementFault? c enclosing.isSome with
  | some fault => throw { cause := .placement fault }
  | none => pure ()
  let preconditions ← parseClauses c.preconditions
  let postconditions ← parseClauses c.postconditions
  preconditions.forM (·.checkPrecondition c.parameterNames)
  let references ← postconditions.mapM (·.checkPostcondition c.role enclosing)
  let applied := if enclosing.isSome && c.applyInvariants then invariants else []
  return some ⟨c, applied, preconditions, postconditions, references.flatten⟩

end Covenant.Declaration
