import Covenant.Wrapper.Descriptor

/-! # Bodies — what an emitted wrapper does, statement by statement

    The body of an emitted wrapper is a list of statements of a few forms:
    make the instance, resolve a default, check a clause and raise, open a
    store, capture a field, call the implementation, return. -/

namespace Covenant.Wrapper

open Value

/-- What the result is bound to after the call of the implementation. -/
inductive Bind where
  | outcome | receiver
  deriving DecidableEq, Repr

/-- A statement of an emitted wrapper. -/
inductive Statement where
  | makeInstance
  | resolveDefault (name : String)
  | check (kind : ViolationKind) (clause : EnforcedClause)
  | openStore
  | capture (field : String)
  | invoke (bind : Bind)
  | returnResult
  | returnInstance

/-- The statements for one step. -/
def Descriptor.statementsOf {α : Type} (d : Descriptor α) : Step → List Statement
  | .checkInvariants => d.invariants.map (.check .invariant)
  | .checkPreconditions => d.preconditions.map (.check .precondition)
  | .checkPostconditions => d.postconditions.map (.check .postcondition)
  | .captureOld => .openStore :: d.capturedFields.map .capture
  | .invoke => [.invoke (if d.role = .constructor then .receiver else .outcome)]
  | .answer =>
    if d.isFactory then [.returnInstance]
    else if d.role = .constructor then []
    else [.returnResult]

/-- The statements that take the steps of the plan. -/
def Descriptor.protocol {α : Type} (d : Descriptor α) : List Statement :=
  d.steps.flatMap d.statementsOf

/-- The whole body: the instance, the defaults, then the steps. -/
def Descriptor.body (d : Descriptor Datum) : List Statement :=
  (if d.isFactory then [.makeInstance] else [])
    ++ d.signature.deferredDefaults.map (.resolveDefault ·.name)
    ++ d.protocol

end Covenant.Wrapper
