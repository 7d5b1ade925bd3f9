import Covenant.Wrapper.Descriptor

/-! # Weaving — from declarations to descriptors

    Every callable that has a contract becomes a descriptor or an error; the
    others are left alone.  A rejected callable does not stop the next one.
    Wrong invariants reject their type as a whole.  Within a type, and among
    the functions of a module, a public name is given once. -/

namespace Covenant.Weaving

open Condition Declaration Wrapper Value

variable {α : Type}

/-! ## Public names -/

/-- The public names of one place: those taken beforehand, and those given with the internal
    names they were given to. -/
structure Registry where
  owner : Option String := none
  taken : List String := []
  claimed : List (String × String) := []

/-- Gives a name, if it is free. -/
def Registry.claim (r : Registry) (publicName internalName : String) :
    Except Cause Registry :=
  let place := presentOr r.owner "module"
  match r.claimed.lookup publicName with
  | some other => .error (.duplicateName publicName internalName place (.claimed other))
  | none =>
    if r.taken.contains publicName then
      .error (.duplicateName publicName internalName place .defined)
    else .ok { r with claimed := (publicName, internalName) :: r.claimed }

/-! ## Outcomes -/

/-- What became of a declaration. -/
inductive Outcome (α : Type) where
  | woven (descriptor : Descriptor α)
  | rejected (error : GenerationError)

/-- Why weaving ends without a result. -/
inductive Escape where
  /-- A clause was read, but its rewritten tree cannot be evaluated. -/
  | unsoundClause
  /-- A clause was read, but its text could not be changed. -/
  | splice (fault : SpliceFault)
  deriving DecidableEq

/-- Descriptors for what was accepted, one error for each declaration that was not. -/
structure Result (α : Type) where
  descriptors : List (Descriptor α)
  errors : List GenerationError

namespace Result

/-- Sorts outcomes; the errors found earlier come first. -/
def ofOutcomes (errors : List GenerationError) (outcomes : List (Outcome α)) : Result α where
  descriptors := outcomes.filterMap fun
    | .woven d => some d
    | .rejected _ => none
  errors := errors ++ outcomes.filterMap fun
    | .woven _ => none
    | .rejected e => some e

/-- Whether nothing was rejected. -/
def ok (r : Result α) : Bool := r.errors.isEmpty

/-- The descriptors of one owner. -/
def forOwner (r : Result α) (owner : Option String) : List (Descriptor α) :=
  r.descriptors.filter (·.owner == owner)

end Result

/-! ## Weaving -/

/-- A descriptor, an error that rejects the callable, or an escape. -/
def generate (v : Validated α) (enclosing : Option (TypeDecl α)) :
    Except Escape (Except GenerationError (Descriptor α)) :=
  match describe v enclosing with
  | .ok d => .ok (.ok d)
  | .error (.old fault) => .ok (.error { cause := .old fault })
  | .error .unsound => .error .unsoundClause
  | .error (.splice fault) => .error (.splice fault)

/-- Weaves one callable.  The registry is that of its place. -/
def weaveCallable (c : Callable α) (enclosing : Option (TypeDecl α))
    (invariants : List ParsedClause) (registry : Registry) :
    Except Escape (Option (Outcome α) × Registry) := do
  let locate (e : GenerationError) : Outcome α :=
    .rejected (e.locate (enclosing.map (·.name)) (some c.name))
  match validateCallable c enclosing invariants with
  | .error e => return (some (locate e), registry)
  | .ok none => return (none, registry)
  | .ok (some v) =>
    match ← generate v enclosing with
    | .error e => return (some (locate e), registry)
    | .ok d =>
      match registry.claim d.publicName d.internalName with
      | .error cause => return (some (locate { cause := cause }), registry)
      | .ok registry => return (some (.woven d), registry)

/-- Weaves the callables of a type one after the other. -/
def weaveCallables (enclosing : TypeDecl α) (invariants : List ParsedClause) :
    Registry → List (Callable α) → Except Escape (List (Outcome α))
  | _, [] => .ok []
  | registry, c :: cs => do
    let (outcome, registry) ← weaveCallable c (some enclosing) invariants registry
    let rest ← weaveCallables enclosing invariants registry cs
    return outcome.toList ++ rest

/-- Weaves a type. -/
def weaveType (t : TypeDecl α) : Except Escape (List (Outcome α)) :=
  match validateType t with
  | .error e => .ok [.rejected (e.locate (some t.name) none)]
  | .ok invariants =>
    weaveCallables t invariants { owner := some t.name, taken := t.members ++ t.fields }
      t.callables

/-- Weaves functions; those of one module share a registry. -/
def weaveFunctions :
    List (Option String × Registry) → List (Callable α) → Except Escape (List (Outcome α))
  | _, [] => .ok []
  | registries, f :: fs => do
    let registry := (registries.lookup f.module).getD { owner := f.module }
    let (outcome, registry) ← weaveCallable f none [] registry
    let rest ← weaveFunctions ((f.module, registry) :: registries) fs
    return outcome.toList ++ rest

/-- Weaves a table.  The errors found while it was read come first. -/
def weave (t : Table α) : Except Escape (Result α) := do
  let types ← t.types.mapM weaveType
  let functions ← weaveFunctions [] t.functions
  return Result.ofOutcomes t.errors (types.flatten ++ functions)

end Covenant.Weaving
