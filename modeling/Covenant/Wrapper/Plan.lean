import Covenant.Declaration.Basic

/-! # Plans — the order of what a wrapper does

    A method checks the invariants and its preconditions, captures old values,
    runs its implementation, and checks its postconditions and the invariants
    again.  A constructor has no prior state: its implementation runs first,
    and everything is checked on the new instance. -/

namespace Covenant.Wrapper

open Declaration

/-- One step of a wrapper. -/
inductive Step where
  | checkInvariants | checkPreconditions | captureOld | invoke | checkPostconditions | answer
  deriving DecidableEq, Repr

/-- The identifier of a step. -/
def Step.text : Step → String
  | checkInvariants => "check-invariants"
  | checkPreconditions => "check-preconditions"
  | captureOld => "capture-old"
  | invoke => "invoke"
  | checkPostconditions => "check-postconditions"
  | answer => "return"

/-- A step that is taken only if there is something to do. -/
def stepIf (needed : Bool) (s : Step) : List Step := if needed then [s] else []

/-- The steps of a wrapper.  The flags say which clauses there are and whether old values
    are referred to. -/
def plan (role : Role) (invariants preconditions capture postconditions : Bool) : List Step :=
  match role with
  | .constructor =>
    [.invoke] ++ stepIf preconditions .checkPreconditions
      ++ stepIf postconditions .checkPostconditions ++ stepIf invariants .checkInvariants
      ++ [.answer]
  | .method | .function =>
    stepIf invariants .checkInvariants ++ stepIf preconditions .checkPreconditions
      ++ stepIf capture .captureOld ++ [.invoke] ++ stepIf postconditions .checkPostconditions
      ++ stepIf invariants .checkInvariants ++ [.answer]

/-- Every plan runs the implementation once. -/
theorem count_invoke_plan (role : Role) (i p c q : Bool) :
    (plan role i p c q).count .invoke = 1 := by
  cases role <;> cases i <;> cases p <;> cases c <;> cases q <;> decide

end Covenant.Wrapper
