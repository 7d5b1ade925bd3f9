import Covenant.Machine.Format

/-! # Operators — what the signs between values do

    Atoms are calculated with; lists and tuples are joined and repeated; sets
    and mappings are combined.  An update changes a list or a set in place and
    gives a new value otherwise. -/

namespace Covenant.Machine

open Covenant.Value (Datum)
open Covenant.Machine.Comp Covenant.Tree

/-- The items of a set, and whether it can change. -/
def setOf? (h : Heap) (v : Value) : Option (List Value × Bool) :=
  match h.object? v with
  | some (.set vs) => some (vs, true)
  | some (.frozenset vs) => some (vs, false)
  | _ => none

/-- The items of the first set that are in the second, or those that are not. -/
def kept (h : Heap) (common : Bool) (as bs : List Value) : Comp (List Value) :=
  decided (as.filterM fun a => do some ((← isIn h.same a bs) == common))

/-- Combines the items of two sets. -/
def combineSets (h : Heap) (op : BinOp) (as bs : List Value) : Comp (List Value) :=
  match op with
  | .bitOr => decided (addItems h.same as bs)
  | .bitAnd => kept h true as bs
  | .sub => kept h false as bs
  | .bitXor => do
    let left ← kept h false as bs
    let right ← kept h false bs as
    pure (left ++ right)
  | _ => fail .wrongType

/-- The items of a sequence repeated. -/
def repeatItems (items : List Value) (times : Value) (make : List Value → Comp Value) :
    Comp Value :=
  match indexOf? times with
  | some n => do make (← ofExcept (repeated n items))
  | none => fail .wrongType

/-- Whether a value is a type or the absence of one, as in a choice of types. -/
def isTypeLike (h : Heap) (v : Value) : Bool :=
  h.isType v || v.isNone || (match h.object? v with
    | some (.parametric _) => true
    | _ => false)

/-- The result of an operator. -/
def binary (op : BinOp) (a b : Value) : Comp Value := do
  let h ← heap
  match op, a, b, h.object? a, h.object? b with
  | .mod, .atom (.str s), v, _, _ => do pure (.str (← ofExcept (filledIn h s v)))
  | op, .atom x, .atom y, _, _ => do pure (.atom (← ofExcept (atomOp op x y)))
  | .add, _, _, some (.list as), some (.list bs) => Comp.list (as ++ bs)
  | .add, _, _, some (.tuple as), some (.tuple bs) => Comp.tuple (as ++ bs)
  | .add, _, _, some (.bytearray as), some (.bytearray bs) => make (.bytearray (as ++ bs))
  | .add, _, .atom (.bytes bs), some (.bytearray as), _ => make (.bytearray (as ++ bs))
  | .mult, _, n, some (.list as), _ | .mult, n, _, _, some (.list as) =>
    repeatItems as n Comp.list
  | .mult, _, n, some (.tuple as), _ | .mult, n, _, _, some (.tuple as) =>
    repeatItems as n Comp.tuple
  | .bitOr, _, _, some (.dict ps), some (.dict qs) => do
    let ps ← withKeys ps qs
    make (.dict ps)
  | op, a, b, _, _ =>
    match setOf? h a, setOf? h b with
    | some (as, canChange), some (bs, _) => do
      let items ← combineSets h op as bs
      make (if canChange then .set items else .frozenset items)
    | _, _ =>
      if op = .bitOr ∧ isTypeLike h a ∧ isTypeLike h b ∧ (h.isType a ∨ h.isType b) then
        make (.parametric (h.typeText a ++ " | " ++ h.typeText b))
      else fail .wrongType

/-- The result of an operator that may change its left operand. -/
def update (host : Host) (op : BinOp) (a b : Value) : Comp Value := do
  let h ← heap
  match op, a, h.object? a with
  | .add, .ref i, some (.list as) => do
    let bs ← itemsOf host b
    put i (.list (as ++ bs))
    pure a
  | .mult, .ref i, some (.list as) =>
    match indexOf? b with
    | some n => do
      put i (.list (← ofExcept (repeated n as)))
      pure a
    | none => fail .wrongType
  | .bitOr, .ref i, some (.dict ps) =>
    match (h.object? b).bind mapping? with
    | some qs => do
      put i (.dict (← withKeys ps qs))
      pure a
    | none => fail .wrongType
  | op, .ref i, some (.set as) =>
    match setOf? h b with
    | some (bs, _) => do
      put i (.set (← combineSets h op as bs))
      pure a
    | none => fail .wrongType
  | .add, .ref i, some (.bytearray as) =>
    match b, h.object? b with
    | .atom (.bytes bs), _ | _, some (.bytearray bs) => do
      put i (.bytearray (as ++ bs))
      pure a
    | _, _ => fail .wrongType
  | op, a, _ => binary op a b

/-- The result of an operator with one operand. -/
def unary (op : UnaryOp) (v : Value) : Comp Value :=
  match op, v with
  | .not, v => do pure (.bool !(← isTrue v))
  | op, .atom d => do pure (.atom (← ofExcept (signOp op d)))
  | _, _ => fail .wrongType

/-- Whether a comparison holds. -/
def compareValues (host : Host) (op : CmpOp) (a b : Value) : Comp Bool := do
  let h ← heap
  let related (r : Relation) : Comp Bool := ofExcept (h.relate r a b)
  match op with
  | .eq => same a b
  | .notEq => do pure !(← same a b)
  | .lt => related .less
  | .ltE => related .lessEq
  | .gt => related .greater
  | .gtE => related .greaterEq
  | .is => pure (sameThing a b)
  | .isNot => pure !(sameThing a b)
  | .member => contains host b a
  | .notMember => do pure !(← contains host b a)

end Covenant.Machine
