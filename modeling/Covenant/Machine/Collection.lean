import Covenant.Machine.Access
import Covenant.Machine.Arithmetic

/-! # Collections — going through values and reaching into them

    What a loop goes through, what an index or a slice selects, and how items
    are set and removed. -/

namespace Covenant.Machine

open Covenant.Value (Datum)
open Covenant.Machine.Comp

namespace Comp

/-- A value or the mistake that takes its place. -/
def ofExcept {α : Type} : Except Mistake α → Comp α
  | .ok a => pure a
  | .error m => fail m

/-- An answer about equality; a value that contains itself has none. -/
def decided {α : Type} (o : Option α) : Comp α := ofOption .tooDeep o

/-- A set of values; each of them has to be fit for a key. -/
def setItems (items : List Value) : Comp (List Value) := do
  let h ← heap
  if items.all h.isKey then decided (addItems h.same [] items) else fail .wrongType

/-- A new set of values. -/
def set (items : List Value) : Comp Value := do make (.set (← setItems items))

/-- Items with a key set. -/
def withKey (items : List (Value × Value)) (k v : Value) : Comp (List (Value × Value)) := do
  let h ← heap
  if h.isKey k then decided (setKey h.same k v items) else fail .wrongType

/-- Items with several keys set. -/
def withKeys (items : List (Value × Value)) : List (Value × Value) → Comp (List (Value × Value))
  | [] => pure items
  | (k, v) :: ps => do withKeys (← withKey items k v) ps

/-- A new mapping of keys and values. -/
def dict (items : List (Value × Value)) : Comp Value := do make (.dict (← withKeys [] items))

/-- Whether two values are equal. -/
def same (a b : Value) : Comp Bool := do decided ((← heap).same a b)

/-- Whether a value counts as true. -/
def isTrue (v : Value) : Comp Bool := do pure ((← heap).isTrue v)

end Comp

/-! ## Going through -/

/-- The characters of a text as texts. -/
def characters (s : String) : List Value := s.toList.map fun c => .str (String.singleton c)

/-- The items of a set in the order in which they are gone through. -/
def setOrder (vs : List Value) : List Value :=
  Datum.setOrder (fun
    | .atom d => d.small?
    | _ => none) vs

/-- What a loop over a value goes through, if it is known beforehand. -/
def Heap.items? (h : Heap) (v : Value) : Option (List Value) :=
  match v with
  | .atom (.str s) => some (characters s)
  | .atom (.bytes bs) => some (bs.map fun b => .int b.toNat)
  | .atom (.range a b c) => some ((Datum.rangeItems a b c).map .int)
  | v =>
    match h.object? v with
    | some (.list vs) | some (.tuple vs) => some vs
    | some (.set vs) | some (.frozenset vs) => some (setOrder vs)
    | some (.dict ps) => some (ps.map (·.1))
    | some (.names ns) => some (ns.map fun p => .str p.1)
    | some (.bytearray bs) => some (bs.map fun b => .int b.toNat)
    | some (.captures c) => some (c.fields.map .str)
    | _ => none

/-- Hands values on until told to stop; tells whether all were handed on. -/
def feed (sink : Value → Comp Bool) : List Value → Comp Bool
  | [] => pure true
  | v :: vs => do if ← sink v then feed sink vs else pure false

/-- Goes through a value until told to stop; tells whether it came to the end. -/
def iterate (host : Host) (v : Value) (sink : Value → Comp Bool) : Comp Bool := do
  let h ← heap
  match h.items? v, v, h.object? v with
  | some vs, _, _ => feed sink vs
  | none, .ref a, some (.generator elements parts first scope isSpent) =>
    if isSpent then pure true
    else do
      put a (.generator elements parts first scope true)
      host.produce elements parts first scope sink
  | _, _, _ => fail .wrongType

/-- Adds an item at the front of a list that is being collected. -/
def collect (a : Address) (v : Value) : Comp Unit := do
  match (← heap).get? a with
  | some (.list vs) => put a (.list (v :: vs))
  | _ => pure ()

/-- What was collected, in order. -/
def collected (a : Address) : Comp (List Value) := do
  match (← heap).get? a with
  | some (.list vs) => pure vs.reverse
  | _ => pure []

/-- All that a loop over a value goes through. -/
def itemsOf (host : Host) (v : Value) : Comp (List Value) := do
  match (← heap).items? v with
  | some vs => pure vs
  | none => do
    let a ← makeAt (.list [])
    let _ ← iterate host v fun x => do
      collect a x
      pure true
    collected a

/-- The two items of a pair. -/
def pairOf (host : Host) (v : Value) : Comp (Value × Value) := do
  match ← itemsOf host v with
  | [a, b] => pure (a, b)
  | _ => fail .wrongValue

/-- The items of a mapping. -/
def mapping? (o : Object) : Option (List (Value × Value)) :=
  match o with
  | .dict ps => some ps
  | .names ns => some (itemsOfNames ns)
  | _ => none

/-- A whole number that an index stands for. -/
def indexOf? : Value → Option Int
  | .atom (.bool b) => some (if b then 1 else 0)
  | .atom (.int n) => some n
  | _ => none

/-- How many items a value has. -/
def sizeOf (v : Value) : Comp Nat := do
  let h ← heap
  match v, h.items? v with
  | .atom (.range a b c), _ => pure (Datum.rangeSize a b c)
  | _, some vs => pure vs.length
  | _, none => fail .wrongType

/-- Whether a value is among those of a collection. -/
def contains (host : Host) (collection v : Value) : Comp Bool := do
  let h ← heap
  match collection, v, h.object? collection with
  | .atom (.str s), .atom (.str t), _ => pure ((s.splitOn t).length != 1 || t.isEmpty)
  | .atom (.str _), _, _ => fail .wrongType
  | .atom (.bytes bs), .atom (.bytes part), _ =>
    pure ((List.range (bs.length + 1)).any fun i => part.isPrefixOf (bs.drop i))
  | .atom (.bytes bs), v, _ =>
    match indexOf? v with
    | some n =>
      if 0 ≤ n ∧ n < 256 then pure (bs.any fun b => n == b.toNat) else fail .wrongValue
    | none => fail .wrongType
  | .atom (.range a b c), .atom (.int n), _ => pure (Datum.inRange a b c n)
  | _, _, some (.set vs) | _, _, some (.frozenset vs) =>
    -- a set is looked for as one that cannot change
    let isSet := match h.object? v with
      | some (.set _) => true
      | _ => false
    if isSet || h.isKey v then decided (isIn h.same v vs) else fail .wrongType
  | _, _, some (.dict ps) =>
    if h.isKey v then do
      let found ← decided (lookupKey h.same v ps)
      pure found.isSome
    else fail .wrongType
  | _, _, _ => do
    let ended ← iterate host collection fun x => do
      let equal ← same x v
      pure !equal
    pure !ended

/-! ## Reaching in -/

/-- A place counted from the end if it is negative. -/
def placeOf (size : Nat) (i : Int) : Option Nat :=
  let j := if i < 0 then i + size else i
  if 0 ≤ j ∧ j < size then some j.toNat else none

/-- A bound of a slice: absent, a whole number or a mistake. -/
def boundOf (v : Value) : Except Mistake (Option Int) :=
  match v, indexOf? v with
  | .atom .none, _ => .ok none
  | _, some i => .ok (some i)
  | _, none => .error .wrongType

/-- Where a slice of a sequence starts, where it stops, and its step. -/
def sliceBounds (size : Nat) (lower upper step : Value) : Except Mistake (Int × Int × Int) := do
  let stride := (← boundOf step).getD 1
  if stride = 0 then throw .wrongValue
  let first ← boundOf lower
  let last ← boundOf upper
  let n : Int := size
  -- bounds are moved into the sequence; going down, the end lies before the start
  let least : Int := if stride < 0 then -1 else 0
  let most : Int := if stride < 0 then n - 1 else n
  let clamp (i : Int) : Int := max least (min most (if i < 0 then i + n else i))
  let start := match first with
    | some i => clamp i
    | none => if stride < 0 then most else least
  let stop := match last with
    | some i => clamp i
    | none => if stride < 0 then least else most
  pure (start, stop, stride)

/-- The places that a slice selects. -/
def slicePlaces (size : Nat) (lower upper step : Value) : Except Mistake (List Nat) := do
  let (start, stop, stride) ← sliceBounds size lower upper step
  pure ((Datum.rangeItems start stop stride).map Int.toNat)

/-- The items at some places. -/
def select {α : Type} (items : List α) (places : List Nat) : List α :=
  let all := items.toArray
  places.filterMap fun i => all[i]?

/-- The item at an index, or the items in a slice. -/
def reach {α : Type} (h : Heap) (items : List α) (index : Value)
    (one : α → Comp Value) (many : List α → Comp Value) : Comp Value :=
  match indexOf? index, h.object? index with
  | some i, _ => do
    let place ← ofOption .noItem (placeOf items.length i)
    let x ← ofOption .noItem items[place]?
    one x
  | none, some (.slice lower upper step) => do
    let places ← ofExcept (slicePlaces items.length lower upper step)
    many (select items places)
  | none, _ => fail .wrongType

/-- The text of a type in the brackets of another. -/
def Heap.typeText (h : Heap) (v : Value) : String :=
  match v, h.object? v with
  | .type t, _ => t.name
  | .atom .none, _ => "None"
  | .atom .ellipsis, _ => "..."
  | _, some (.cls c) => c.fullName
  | v, _ => h.spell v

/-- What is found under an index or a key. -/
def getItem (v index : Value) : Comp Value := do
  let h ← heap
  match v, h.object? v with
  | .atom (.str s), _ =>
    reach h s.toList index (fun c => pure (.str (String.singleton c)))
      fun cs => pure (.str (String.ofList cs))
  | .atom (.bytes bs), _ =>
    reach h bs index (fun b => pure (.int b.toNat)) fun bs => pure (.atom (.bytes bs))
  | .atom (.range a b c), _ =>
    let size := Datum.rangeSize a b c
    match indexOf? index, h.object? index with
    | some i, _ => do
      let place ← ofOption .noItem (placeOf size i)
      pure (.int (a + c * place))
    | none, some (.slice lower upper step) => do
      let (start, stop, stride) ← ofExcept (sliceBounds size lower upper step)
      pure (.atom (.range (a + start * c) (a + stop * c) (c * stride)))
    | none, _ => fail .wrongType
  | .type t, _ =>
    if !([BasicType.list, .tuple, .dict, .set, .frozenset, .type].contains t) then fail .wrongType
    else do
    let inside := match h.object? index with
      | some (.tuple vs) => ", ".intercalate (vs.map h.typeText)
      | _ => h.typeText index
    make (.parametric (t.name ++ "[" ++ inside ++ "]"))
  | _, some (.list vs) => reach h vs index pure Comp.list
  | _, some (.tuple vs) => reach h vs index pure Comp.tuple
  | _, some (.bytearray bs) =>
    reach h bs index (fun b => pure (.int b.toNat)) fun bs => make (.bytearray bs)
  | _, some o =>
    match mapping? o with
    | some ps =>
      if h.isKey index then do
        let found ← decided (lookupKey h.same index ps)
        ofOption .noKey found
      else fail .wrongType
    | none => fail .wrongType
  | _, none => fail .wrongType

/-- The items of a list with those of a slice replaced. -/
def replaceSlice (items : List Value) (lower upper step : Value) (new : List Value) :
    Except Mistake (List Value) := do
  let (start, _, stride) ← sliceBounds items.length lower upper step
  let places ← slicePlaces items.length lower upper step
  if stride = 1 then
    pure (items.take start.toNat ++ new ++ items.drop (start.toNat + places.length))
  else if places.length = new.length then
    pure (((places.zip new).foldl (fun xs p => xs.setIfInBounds p.1 p.2) items.toArray).toList)
  else throw .wrongValue

/-- Sets what is found under an index or a key. -/
def setItem (host : Host) (v index x : Value) : Comp Unit := do
  let h ← heap
  match v, h.object? v with
  | .ref a, some (.list vs) =>
    match indexOf? index, h.object? index with
    | some i, _ => do
      let place ← ofOption .noItem (placeOf vs.length i)
      put a (.list (vs.set place x))
    | none, some (.slice lower upper step) => do
      let new ← itemsOf host x
      put a (.list (← ofExcept (replaceSlice vs lower upper step new)))
    | none, _ => fail .wrongType
  | .ref a, some (.dict ps) => put a (.dict (← withKey ps index x))
  | .ref a, some (.names ns) =>
    match index with
    | .atom (.str s) => put a (.names (Names.set ns s x))
    | _ => fail .wrongType
  | .ref a, some (.bytearray bs) => do
    let i ← ofOption .wrongType (indexOf? index)
    let place ← ofOption .noItem (placeOf bs.length i)
    match indexOf? x with
    | some n =>
      if 0 ≤ n ∧ n < 256 then put a (.bytearray (bs.set place (UInt8.ofNat n.toNat)))
      else fail .wrongValue
    | none => fail .wrongType
  | _, _ => fail .wrongType

/-- Removes what is found under an index or a key. -/
def deleteItem (v index : Value) : Comp Unit := do
  let h ← heap
  match v, h.object? v with
  | .ref a, some (.list vs) =>
    match indexOf? index, h.object? index with
    | some i, _ => do
      let place ← ofOption .noItem (placeOf vs.length i)
      put a (.list (vs.eraseIdx place))
    | none, some (.slice lower upper step) => do
      let places ← ofExcept (slicePlaces vs.length lower upper step)
      put a (.list (select vs ((List.range vs.length).filter fun i => !places.contains i)))
    | none, _ => fail .wrongType
  | .ref a, some (.dict ps) =>
    match ← decided (eraseKey h.same index ps) with
    | some ps => put a (.dict ps)
    | none => fail .noKey
  | .ref a, some (.names ns) =>
    match index with
    | .atom (.str s) =>
      if (ns.lookup s).isSome then put a (.names (Names.erase s ns)) else fail .noKey
    | _ => fail .noKey
  | _, _ => fail .wrongType

end Covenant.Machine
