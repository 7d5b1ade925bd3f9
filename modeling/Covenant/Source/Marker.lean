import Covenant.Declaration.Basic
import Covenant.Tree.Stmt
import Covenant.Value.Constant

/-! # Markers — decorators that declare contracts

    A decorator is known by its last name, whether it is called or not.  Its
    conditions are a literal mapping from condition to message. -/

namespace Covenant.Source

open Declaration Covenant.Tree Value

/-- The last name of a decorator. -/
def markerName : Expr → Option String
  | .call _ f _ _ => target f
  | e => target e
where
  /-- The name of a name or a field. -/
  target : Expr → Option String
    | .name _ id _ => some id
    | .field _ _ n _ => some n
    | _ => none

/-- The markers of a member with a contract. -/
def memberMarkers : List String := ["precondition", "postcondition", "invariant", "constructor"]

/-- The marker of a class with contracts. -/
def typeMarker : String := "contract"

/-- The marker of a function with a contract. -/
def functionMarker : String := "function_contract"

/-- The first decorator with a name. -/
def findMarker (name : String) (decorators : List Expr) : Option Expr :=
  decorators.find? fun d => markerName d == some name

/-- The argument of a call that is given by keyword or else stands at a position. -/
def argument? (position : Nat) (keyword : String) (args : List Expr) (keywords : List Keyword) :
    Option Expr :=
  match keywords.find? (·.name == some keyword) with
  | some k => some k.value
  | none => args[position]?

/-- A value as the text of a condition or message. -/
def plainText : Datum → String
  | .str s => s
  | d => d.spell

/-- The clauses of a mapping that is written as a literal. -/
def literalClauses (e : Expr) : Except GenerationError (List Clause) :=
  match literal? e with
  | none => .error { cause := .conditionsNotLiteral e.span.start.line }
  | some (.dict items) => .ok (items.map fun p => ⟨plainText p.1, plainText p.2⟩)
  | some _ => .error { cause := .conditionsNotMapping e.span.start.line }

/-- The clauses in an argument of a decorator; there are none if it is not called or has no
    such argument. -/
def markerClauses (position : Nat) (keyword : String) :
    Expr → Except GenerationError (List Clause)
  | .call _ _ args keywords =>
    match argument? position keyword args keywords with
    | some e => literalClauses e
    | none => .ok []
  | _ => .ok []

end Covenant.Source
