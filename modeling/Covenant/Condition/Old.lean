import Covenant.Error
import Covenant.Tree.Segment
import Covenant.Tree.Unparse

/-! # References to old values

    A call of `old` names the value a field had on entry.  `references` walks
    a tree in the order of its fields, checks every call of `old` and gives
    one reference for each, in source order; it does not look inside them. -/

namespace Covenant.Condition

open Text Covenant.Tree

/-- One call of `old`: the field it names and where it stands. -/
structure OldReference where
  field : String
  span : Span
  deriving DecidableEq, Repr

/-- Whether an expression is a call of the name `old`. -/
def isOldCall : Expr → Bool
  | .call _ (.name _ id _) _ _ => id == oldName
  | _ => false

/-- The field an operand names: a bare name or a field of the instance. -/
def operandField (self : String) : Expr → Option String
  | .name _ id _ => if id = self then none else some id
  | .field _ (.name _ id _) attr _ => if id = self then some attr else none
  | _ => none

/-- What a walk found: references, or the first fault. -/
abbrev Found := Except OldFault (List OldReference)

/-- The references of two parts, the fault of the first part first. -/
def Found.append (a b : Found) : Found := do
  let xs ← a
  let ys ← b
  pure (xs ++ ys)

/-- The reference that a call of `old` is, or what is wrong with it.  `show` gives the text
    of an operand. -/
def reference (self : String) (show_ : Expr → String) (span : Span) (args : List Expr)
    (keywords : List Keyword) : Found :=
  match args, keywords with
  | [operand], [] =>
    match operandField self operand with
    | some field => pure [⟨field, span⟩]
    | none => throw (.operand (show_ operand))
  | _, _ => throw (.arity (args.length + keywords.length))

mutual

/-- The references of a tree in the order of a walk over its fields. -/
def collect (self : String) (show_ : Expr → String) : Expr → Found
  | .name .. | .constant .. => pure []
  | .field _ v _ _ => collect self show_ v
  | .call s f as ks =>
    if isOldCall (.call s f as ks) then reference self show_ s as ks
    else (collect self show_ f).append
      ((collectAll self show_ as).append (collectKeywords self show_ ks))
  | .lambda _ _ kd ds e =>
    (collectAll self show_ kd).append ((collectAll self show_ ds).append (collect self show_ e))
  | .comprehension _ _ es gs => (collectAll self show_ es).append (collectGenerators self show_ gs)
  | .compound _ _ ps => collectAll self show_ ps

/-- The references of a list of trees. -/
def collectAll (self : String) (show_ : Expr → String) : List Expr → Found
  | [] => pure []
  | e :: es => (collect self show_ e).append (collectAll self show_ es)

/-- The references of keyword arguments. -/
def collectKeywords (self : String) (show_ : Expr → String) : List Keyword → Found
  | [] => pure []
  | .mk _ _ v :: ks => (collect self show_ v).append (collectKeywords self show_ ks)

/-- The references of the parts of a comprehension. -/
def collectGenerators (self : String) (show_ : Expr → String) : List Generator → Found
  | [] => pure []
  | .mk t i fs _ :: gs =>
    ((collect self show_ t).append ((collect self show_ i).append (collectAll self show_ fs))).append
      (collectGenerators self show_ gs)

end

/-- The text of an operand: as written, if the source is at hand. -/
def operandText (source : Option String) (e : Expr) : String :=
  match source with
  | some text => String.ofList (segment (strip text).toList e.span)
  | none => e.text?.getD ""

/-- Inserts a reference behind all that do not start after it. -/
def insertReference (r : OldReference) : List OldReference → List OldReference
  | [] => [r]
  | x :: xs => if r.span.start.before x.span.start then r :: x :: xs else x :: insertReference r xs

/-- References in source order; those that start at one place keep their order. -/
def inSourceOrder (rs : List OldReference) : List OldReference :=
  rs.foldl (fun acc r => insertReference r acc) []

/-- The references of a tree in source order. -/
def references (source : Option String) (self : String) (e : Expr) : Found :=
  (collect self (operandText source) e).map inSourceOrder

/-- One entry for each field, in order of first occurrence. -/
def distinctFields (rs : List OldReference) : List String :=
  (rs.map (·.field)).foldl (fun acc f => if acc.contains f then acc else acc ++ [f]) []

end Covenant.Condition
