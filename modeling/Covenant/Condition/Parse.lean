import Covenant.Error
import Covenant.Grammar.Expression
import Covenant.Tree.Layers

/-! # Conditions — texts that are side-effect-free expressions

    A condition is the text of one expression, blanks at its ends aside.  It
    writes no state and does not suspend, so assignment expressions, `await`
    and `yield` are refused; of several, the one met first by a breadth-first
    walk is reported. -/

namespace Covenant.Condition

open Text Covenant.Tree Grammar

/-- The construct an expression is, if it cannot stand in a condition. -/
def construct? : Expr → Option Construct
  | .compound _ .namedExpr _ => some .naming
  | .compound _ .await _ => some .awaiting
  | .compound _ .yield _ => some .yielding
  | .compound _ .yieldFrom _ => some .delegating
  | _ => none

/-- The tree of a condition. -/
def parse (text : String) : Except ConditionFault Expr :=
  let inside := strip text
  if inside.isEmpty then .error .empty
  else
    match readExpression? inside.toList with
    | none => .error .unreadable
    | some e =>
      match (e.marks construct?).head? with
      | some c => .error (.forbidden c)
      | none => .ok e

/-- A condition that is given by its characters is read from them. -/
theorem parse_ofList (cs : List Char) : parse (String.ofList cs) =
    if (trimBy isBlank cs).isEmpty then .error .empty
    else
      match readExpression? (trimBy isBlank cs) with
      | none => .error .unreadable
      | some e =>
        match (e.marks construct?).head? with
        | some c => .error (.forbidden c)
        | none => .ok e := by
  have hinside : strip (String.ofList cs) = String.ofList (trimBy isBlank cs) := by
    rw [strip, String.toList_ofList]
  have hempty : (String.ofList (trimBy isBlank cs)).isEmpty = (trimBy isBlank cs).isEmpty := by
    rw [Bool.eq_iff_iff, String.isEmpty_iff, List.isEmpty_iff, ← String.toList_eq_nil_iff,
      String.toList_ofList]
  unfold parse
  dsimp only
  rw [hinside, hempty, String.toList_ofList]

/-- What is parsed has none of the refused constructs. -/
theorem marks_eq_nil_of_parse {text : String} {e : Expr} (h : parse text = .ok e) :
    e.marks construct? = [] := by
  simp only [parse] at h
  split at h
  · cases h
  · split at h
    · cases h
    · split at h
      · cases h
      · rename_i hm
        cases h
        exact List.head?_eq_none_iff.mp hm

/-- The names a condition loads, at any place. -/
def loadedNames (e : Expr) : List String :=
  e.marks fun
    | .name _ id .load => some id
    | _ => none

end Covenant.Condition
