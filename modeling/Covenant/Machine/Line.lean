import Covenant.Machine.View

/-! # Lines — the order in which a class inherits

    A class looks a field up in itself and then in its bases.  The line of a
    class keeps the order of the bases and the line of each of them; if no
    order does, there is no such class. -/

namespace Covenant.Machine

/-- Whether a value stands after the first place of one of the lists. -/
def isLater (v : Value) (ls : List (List Value)) : Bool :=
  ls.any fun l => (l.drop 1).any fun u => sameThing u v

/-- The first head that stands nowhere later. -/
def nextOf (ls : List (List Value)) : Option Value :=
  ls.findSome? fun l =>
    match l with
    | v :: _ => if isLater v ls then none else some v
    | [] => none

/-- Merges lists into one that keeps the order of each; the fuel is the number of entries. -/
def mergeLines : Nat → List (List Value) → Option (List Value)
  | 0, ls => if ls.all (·.isEmpty) then some [] else none
  | fuel + 1, ls =>
    if ls.all (·.isEmpty) then some []
    else do
      let v ← nextOf ls
      let rest ← mergeLines fuel (ls.map fun l =>
        match l with
        | u :: us => if sameThing u v then us else u :: us
        | [] => [])
      some (v :: rest)

/-- What follows a class in its line. -/
def Heap.lineAfter (h : Heap) (bases : List Value) : Option (List Value) :=
  let ls := bases.map h.lineOf ++ [bases]
  mergeLines ls.flatten.length ls

end Covenant.Machine
