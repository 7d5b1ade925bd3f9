import Covenant.Signature.Basic

/-! # Forwarding of data — arguments given as one value for each parameter

    The value of a variadic parameter is taken apart: the positional one into
    its items, the named one into the items of a mapping or into pairs. -/

namespace Covenant.Signature

open Declaration Value

/-- Why a value cannot be taken apart. -/
inductive ForwardFault where
  | notIterable
  | notPair
  | badKey
  deriving DecidableEq, Repr

/-- A key with its value from one item of a list of pairs. -/
def pairOf (d : Datum) : Except ForwardFault (Datum × Datum) :=
  match d.items? with
  | none => .error .notIterable
  | some [k, v] => if k.isKey then .ok (k, v) else .error .badKey
  | some _ => .error .notPair

/-- The items of a mapping or of a list of pairs. -/
def mappingItems (d : Datum) : Except ForwardFault (List (Datum × Datum)) :=
  match d with
  | .dict items => .ok items
  | d =>
    match d.items? with
    | none => .error .notIterable
    | some items => items.mapM pairOf

/-- The positional and named arguments of the call into the implementation, for arguments of
    any names and values.  Parameters without an argument are left out. -/
def forwardData (declaration : List (Parameter Datum)) (arguments : List (String × Datum)) :
    Except ForwardFault (List Datum × List (Datum × Datum)) :=
  declaration.foldlM (fun acc p =>
    match arguments.lookup p.name with
    | none => .ok acc
    | some v =>
      match p.kind with
      | .variadicPositional =>
        match v.items? with
        | some vs => .ok (acc.1 ++ vs, acc.2)
        | none => .error .notIterable
      | .variadicNamed => do
        let items ← mappingItems v
        .ok (acc.1, items.foldl (fun ks q => Datum.setItem ks q.1 q.2) acc.2)
      | .requiredNamed | .optionalNamed => .ok (acc.1, Datum.setItem acc.2 (.str p.name) v)
      | _ => .ok (acc.1 ++ [v], acc.2)) ([], [])

end Covenant.Signature
