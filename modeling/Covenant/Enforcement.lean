import Covenant.Capture
import Covenant.Signature.Binding
import Covenant.Wrapper.Descriptor

/-! # Enforcement — running the plan of a wrapper

    A run takes the steps of its descriptor in order and stops at the first
    clause that does not hold.  What a clause says, what a field holds and what
    the implementation does is left to the surroundings: they are operations
    of an arbitrary monad, so the same run serves the machine, a trace of its
    actions and every assignment of outcomes to clauses. -/

namespace Covenant

open Signature Wrapper

variable {α : Type} {m : Type → Type}

/-- The state of one run: the instance, the bound arguments, what was captured and what the
    implementation answered. -/
structure Activation (α : Type) where
  receiver? : Option α
  arguments : Binding α
  captures : Option (Captures α) := none
  result : Option α := none

/-- What a run asks of its surroundings. -/
structure Surroundings (m : Type → Type) (α : Type) where
  /-- Whether a clause holds in a run. -/
  holds : ViolationKind → EnforcedClause → Activation α → m Bool
  /-- The value of a field of the instance, kept apart from later changes. -/
  preserve : Activation α → String → m α
  /-- Calls the implementation, and waits for it if it is a coroutine. -/
  invoke : Activation α → m α
  /-- Ends the run because a promise is broken. -/
  violate : Violation → m Unit

namespace Surroundings

variable [Monad m]

/-- Checks clauses in order. -/
def check (s : Surroundings m α) (qualname : String) (kind : ViolationKind) (a : Activation α) :
    List EnforcedClause → m Unit
  | [] => pure ()
  | c :: cs => do
    if ← s.holds kind c a then s.check qualname kind a cs
    else s.violate { kind := kind, message := c.message, clause := c.text, qualname := qualname }

/-- Captures fields in order. -/
def captureAll (s : Surroundings m α) (a : Activation α) :
    Captures α → List String → m (Captures α)
  | store, [] => pure store
  | store, f :: fs => do
    let v ← s.preserve a f
    s.captureAll a (store.capture f v) fs

/-- Takes one step. -/
def take (s : Surroundings m α) (d : Descriptor α) (a : Activation α) :
    Step → m (Activation α)
  | .checkInvariants => do s.check d.qualname .invariant a d.invariants; pure a
  | .checkPreconditions => do s.check d.qualname .precondition a d.preconditions; pure a
  | .checkPostconditions => do s.check d.qualname .postcondition a d.postconditions; pure a
  | .captureOld => do
    let store ← s.captureAll a {} d.capturedFields
    pure { a with captures := some store }
  | .invoke => do
    let outcome ← s.invoke a
    -- the result of a constructor is the new instance
    pure { a with result := if d.role = .constructor then a.receiver? else some outcome }
  | .answer => pure a

/-- Takes steps in order. -/
def takeAll (s : Surroundings m α) (d : Descriptor α) : Activation α → List Step → m (Activation α)
  | a, [] => pure a
  | a, step :: steps => do s.takeAll d (← s.take d a step) steps

/-- Runs a wrapper and gives its result. -/
def run (s : Surroundings m α) (d : Descriptor α) (a : Activation α) : m (Option α) := do
  let a ← s.takeAll d a d.steps
  pure a.result

end Surroundings

end Covenant
