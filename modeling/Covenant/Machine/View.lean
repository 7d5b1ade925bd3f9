import Covenant.Machine.Object

/-! # Views — values as seen through the heap

    The type of a value, when two values are the same thing, when they are
    equal, which comes first, whether a value counts as true, and the finite
    tree of data that it shows.

    Equality, order and data follow references.  Their depth is bounded by the
    number of objects unless a value contains itself, so fuel of that size
    runs out only on such values. -/

namespace Covenant.Machine

open Covenant.Value (Datum)

/-! ## Types -/

/-- The type of an atom. -/
def atomType : Datum → BasicType
  | .none => .none
  | .ellipsis => .ellipsis
  | .bool _ => .bool
  | .int _ => .int
  | .float _ => .float
  | .complex .. => .complex
  | .str _ => .str
  | .bytes _ => .bytes
  | .bytearray _ => .bytearray
  | .list _ => .list
  | .tuple _ => .tuple
  | .set _ => .set
  | .frozenset _ => .frozenset
  | .dict _ => .dict
  | .range .. => .range
  | .decimal .. => .decimal
  | .fraction .. => .fraction
  | .type _ => .type
  | .callable _ => .function
  | .object .. => .object

/-- The type of an object. -/
def Object.type : Object → Value
  | .list _ => .type .list
  | .tuple _ => .type .tuple
  | .set _ => .type .set
  | .frozenset _ => .type .frozenset
  | .dict _ | .names _ => .type .dict
  | .bytearray _ => .type .bytearray
  | .record c _ => c
  | .cls _ => .type .type
  | .function _ | .decorator _ => .type .function
  | .bound .. => .type .method
  | .method .. => .type .routine
  | .property .. => .type .property
  | .static _ => .type .staticMethod
  | .classMethod _ => .type .classMethod
  | .cachedProperty _ => .type .cachedProperty
  | .slot _ => .type .property
  | .super .. => .type .super
  | .slice .. => .type .slice
  | .generator .. => .type .generator
  | .coroutine .. => .type .coroutine
  | .captures _ => .type .captures
  | .parametric _ => .type .parametric
  | .found _ => .type .found

namespace Heap

variable (h : Heap)

/-- The type of a value. -/
def typeOf : Value → Value
  | .atom d => .type (atomType d)
  | .type _ => .type .type
  | .routine _ => .type .routine
  | .module _ => .type .module
  | .ref a =>
    match h.get? a with
    | some o => o.type
    | none => .type .object

/-- A class, if the value is one. -/
def classInfo? (v : Value) : Option ClassInfo :=
  match h.object? v with
  | some (.cls c) => some c
  | _ => none

/-- Whether a value is a type. -/
def isType (v : Value) : Bool :=
  match v with
  | .type _ => true
  | v => (h.classInfo? v).isSome

/-- A type with all it inherits from, in the order of look-up. -/
def lineOf (v : Value) : List Value :=
  match v with
  | .type t => t.line.map .type
  | v =>
    match h.classInfo? v with
    | some c => c.line
    | none => []

/-- The name of a type. -/
def typeName (v : Value) : String :=
  match v with
  | .type t => t.name
  | v =>
    match h.classInfo? v with
    | some c => c.name
    | none => ""

end Heap

/-! ## Being the same thing -/

/-- Whether two values are the same thing. -/
def sameThing : Value → Value → Bool
  | .atom (.float x), .atom (.float y) => x == y
  | .atom a, .atom b => atomType a == atomType b && a.same b
  | .type a, .type b => a == b
  | .routine a, .routine b => a == b
  | .module a, .module b => a == b
  | .ref a, .ref b => a == b
  | _, _ => false

/-- Whether one type is among those that another inherits from. -/
def Heap.inherits (h : Heap) (t base : Value) : Bool := (h.lineOf t).any fun u => sameThing u base

/-! ## Equality -/

/-- Whether two lists agree item by item; nothing if that cannot be told. -/
def agree (eq : Value → Value → Option Bool) : List Value → List Value → Option Bool
  | [], [] => some true
  | a :: as, b :: bs => do if ← eq a b then agree eq as bs else some false
  | _, _ => some false

/-- Whether a value is in a list. -/
def isIn (eq : Value → Value → Option Bool) (v : Value) : List Value → Option Bool
  | [] => some false
  | a :: as => do if ← eq a v then some true else isIn eq v as

/-- Whether all values of one list are in another. -/
def allIn (eq : Value → Value → Option Bool) : List Value → List Value → Option Bool
  | [], _ => some true
  | a :: as, bs => do if ← isIn eq a bs then allIn eq as bs else some false

/-- The value under a key. -/
def lookupKey (eq : Value → Value → Option Bool) (k : Value) :
    List (Value × Value) → Option (Option Value)
  | [] => some none
  | (a, b) :: ps => do if ← eq a k then some (some b) else lookupKey eq k ps

/-- Whether all items of one mapping are in another. -/
def allItemsIn (eq : Value → Value → Option Bool) :
    List (Value × Value) → List (Value × Value) → Option Bool
  | [], _ => some true
  | (k, v) :: ps, qs => do
    match ← lookupKey eq k qs with
    | some w => if ← eq v w then allItemsIn eq ps qs else some false
    | none => some false

/-- Names as the items of a mapping. -/
def itemsOfNames (ns : Names Value) : List (Value × Value) := ns.map fun p => (.str p.1, p.2)

/-- Whether two objects are equal, given how their parts compare. -/
def sameObject (eq : Value → Value → Option Bool) : Object → Object → Option Bool
  | .list as, .list bs | .tuple as, .tuple bs => agree eq as bs
  | .set as, .set bs | .frozenset as, .frozenset bs | .set as, .frozenset bs
  | .frozenset as, .set bs =>
    if as.length = bs.length then allIn eq as bs else some false
  | .dict ps, .dict qs => if ps.length = qs.length then allItemsIn eq ps qs else some false
  | .bytearray a, .bytearray b => some (a == b)
  | .bound r f, .bound s g => some (sameThing r s && sameThing f g)
  | .slice a b c, .slice d e f => agree eq [a, b, c] [d, e, f]
  | .parametric s, .parametric t => some (s == t)
  | _, _ => some false

/-- Whether two values are equal. -/
def Heap.sameWithin (h : Heap) : Nat → Value → Value → Option Bool
  | _, .atom a, .atom b => some (a.same b)
  | 0, _, _ => none
  | fuel + 1, a, b =>
    if sameThing a b then some true
    else
      match h.object? a, h.object? b, a, b with
      | some x, some y, _, _ => sameObject (h.sameWithin fuel) x y
      | some (.bytearray x), none, _, .atom (.bytes y) => some (x == y)
      | none, some (.bytearray y), .atom (.bytes x), _ => some (x == y)
      | _, _, _, _ => some false

/-- Whether two values are equal. -/
def Heap.same (h : Heap) (a b : Value) : Option Bool := h.sameWithin (h.objects.size + 1) a b

/-! ## Keys -/

/-- Whether a value can be a key. -/
def Heap.isKeyWithin (h : Heap) : Nat → Value → Bool
  | 0, _ => false
  | fuel + 1, v =>
    match h.object? v with
    | some (.list _) | some (.set _) | some (.dict _) | some (.bytearray _) | some (.names _) =>
      false
    | some (.slice ..) => false
    | some (.tuple vs) => vs.all (h.isKeyWithin fuel)
    | _ => true

/-- Whether a value can be a key. -/
def Heap.isKey (h : Heap) (v : Value) : Bool := h.isKeyWithin (h.objects.size + 1) v

/-- Sets a key of a mapping; an equal key keeps its place and its spelling. -/
def setKey (eq : Value → Value → Option Bool) (k v : Value) :
    List (Value × Value) → Option (List (Value × Value))
  | [] => some [(k, v)]
  | (a, b) :: ps => do
    if ← eq a k then some ((a, v) :: ps)
    else do
      let rest ← setKey eq k v ps
      some ((a, b) :: rest)

/-- Removes a key of a mapping; nothing inside if it is not there. -/
def eraseKey (eq : Value → Value → Option Bool) (k : Value) :
    List (Value × Value) → Option (Option (List (Value × Value)))
  | [] => some none
  | (a, b) :: ps => do
    if ← eq a k then some (some ps)
    else do
      let rest ← eraseKey eq k ps
      some (rest.map ((a, b) :: ·))

/-- Adds values to a set unless equal ones are there. -/
def addItems (eq : Value → Value → Option Bool) : List Value → List Value → Option (List Value)
  | items, [] => some items
  | items, v :: vs => do
    if ← isIn eq v items then addItems eq items vs else addItems eq (items ++ [v]) vs

/-! ## Order -/

/-- Comparisons by order. -/
inductive Relation where
  | less | lessEq | greater | greaterEq
  deriving DecidableEq, Repr

/-- Whether a comparison holds, given which value comes first. -/
def Relation.holds : Relation → Ordering → Bool
  | less, o => o == .lt
  | lessEq, o => o != .gt
  | greater, o => o == .gt
  | greaterEq, o => o != .lt

/-- Which of two ratios is the smaller one. -/
def orderRatios (a b : Int × Nat) : Ordering := compare (a.1 * b.2) (b.1 * a.2)

/-- The side on which an infinite number lies. -/
def infiniteSide (d : Datum) : Option Ordering :=
  match d with
  | .float x => if x.isInfinite then some (if x.isNegative then .lt else .gt) else none
  | _ => none

/-- Which of two real numbers is the smaller one; nothing if one of them is not a number. -/
def orderNumbers (a b : Datum) : Option Ordering :=
  match a.ratio?, b.ratio? with
  | some x, some y => some (orderRatios x y)
  | _, _ =>
    match infiniteSide a, infiniteSide b with
    | some s, some t => some (if s == t then .eq else s)
    | some s, none => if b.ratio?.isSome then some s else none
    | none, some t => if a.ratio?.isSome then some t.swap else none
    | none, none => none

/-- Which of two sequences comes first, by their first difference. -/
def orderLists {α : Type} (cmp : α → α → Ordering) : List α → List α → Ordering
  | [], [] => .eq
  | [], _ :: _ => .lt
  | _ :: _, [] => .gt
  | a :: as, b :: bs => (cmp a b).then (orderLists cmp as bs)

/-- Whether a comparison of two atoms holds; nothing if they have no order. -/
def relateAtoms (r : Relation) (a b : Datum) : Option Bool :=
  let isReal (d : Datum) : Bool := d.isNumber && atomType d != .complex
  match a, b with
  | .str s, .str t =>
    some (r.holds (orderLists (fun c d => compare c.toNat d.toNat) s.toList t.toList))
  | .bytes s, .bytes t => some (r.holds (orderLists (fun c d => compare c.toNat d.toNat) s t))
  | a, b =>
    if isReal a && isReal b then
      some (match orderNumbers a b with
        | some o => r.holds o
        | none => false)
    else none

/-- Whether a comparison of two sets by inclusion holds. -/
def relateSets (eq : Value → Value → Option Bool) (r : Relation) (as bs : List Value) :
    Option Bool :=
  match r with
  | .lessEq => allIn eq as bs
  | .greaterEq => allIn eq bs as
  | .less => do some ((← allIn eq as bs) && as.length != bs.length)
  | .greater => do some ((← allIn eq bs as) && as.length != bs.length)

/-- Whether a comparison of two values holds, or the mistake it is. -/
def Heap.relateWithin (h : Heap) (r : Relation) : Nat → Value → Value → Except Mistake Bool
  | 0, _, _ => .error .tooDeep
  | fuel + 1, a, b =>
    let ofOption (o : Option Bool) : Except Mistake Bool :=
      match o with
      | some b => .ok b
      | none => .error .tooDeep
    let sequences (as bs : List Value) : Except Mistake Bool :=
      match (as.zip bs).find? fun p => h.same p.1 p.2 != some true with
      | some (x, y) => h.relateWithin r fuel x y
      | none => .ok (r.holds (compare as.length bs.length))
    match a, b, h.object? a, h.object? b with
    | .atom x, .atom y, _, _ =>
      match relateAtoms r x y with
      | some b => .ok b
      | none => .error .wrongType
    | _, _, some (.list as), some (.list bs) | _, _, some (.tuple as), some (.tuple bs) =>
      sequences as bs
    | _, _, some (.set as), some (.set bs) | _, _, some (.set as), some (.frozenset bs)
    | _, _, some (.frozenset as), some (.set bs)
    | _, _, some (.frozenset as), some (.frozenset bs) => ofOption (relateSets h.same r as bs)
    | _, _, _, _ => .error .wrongType

/-- Whether a comparison of two values holds, or the mistake it is. -/
def Heap.relate (h : Heap) (r : Relation) (a b : Value) : Except Mistake Bool :=
  h.relateWithin r (h.objects.size + 1) a b

/-! ## Truth -/

/-- Whether an atom counts as true. -/
def isTrueAtom : Datum → Bool
  | .none => false
  | .bool b => b
  | .int n => n != 0
  | .float x => !x.isZero
  | .complex re im => !(re.isZero && im.isZero)
  | .str s => !s.isEmpty
  | .bytes bs => !bs.isEmpty
  | .range a b c => Datum.rangeSize a b c != 0
  | .decimal _ digits _ _ => digits != 0
  | .fraction n _ => n != 0
  | _ => true

/-- Whether a value counts as true. -/
def Heap.isTrue (h : Heap) : Value → Bool
  | .atom d => isTrueAtom d
  | .ref a =>
    match h.get? a with
    | some (.list vs) | some (.tuple vs) | some (.set vs) | some (.frozenset vs) => !vs.isEmpty
    | some (.dict ps) => !ps.isEmpty
    | some (.names ns) => !ns.isEmpty
    | some (.bytearray bs) => !bs.isEmpty
    | some (.captures c) => c.size != 0
    | _ => true
  | _ => true

/-! ## Data -/

/-- The data that a value shows, with classes named in some way.  A value that contains
    itself is cut off. -/
def Heap.dataWithin (h : Heap) (className : ClassInfo → String) : Nat → Value → Datum
  | _, .atom d => d
  | _, .type t => .type t.name
  | _, .routine _ => .callable ""
  | _, .module name => .object name []
  | 0, .ref _ => .ellipsis
  | fuel + 1, .ref a =>
    let go := h.dataWithin className fuel
    match h.get? a with
    | some (.list vs) => .list (vs.map go)
    | some (.tuple vs) => .tuple (vs.map go)
    | some (.set vs) => .set (vs.map go)
    | some (.frozenset vs) => .frozenset (vs.map go)
    | some (.dict ps) => .dict (ps.map fun p => (go p.1, go p.2))
    | some (.names ns) => .dict (ns.map fun p => (.str p.1, go p.2))
    | some (.bytearray bs) => .bytearray bs
    | some (.cls c) => .type (className c)
    | some (.function f) => .callable f.name
    | some (.decorator _) => .callable "decorator"
    | some (.bound _ f) =>
      match go f with
      | .callable name => .callable name
      | d => d
    | some (.method _ name) => .callable name
    | some (.record c fields) =>
      .object (h.typeName c) (fields.map fun p => (p.1, go p.2))
    | some o => .object (h.typeName o.type) []
    | none => .none

/-- The data that a value shows. -/
def Heap.data (h : Heap) (v : Value) : Datum :=
  h.dataWithin (·.name) (h.objects.size + 1) v

/-- The name of a class with its module. -/
def ClassInfo.fullName (c : ClassInfo) : String :=
  match c.module with
  | .atom (.str m) => m ++ "." ++ c.qualname
  | _ => c.qualname

/-- The data that a value shows, with classes under their full names. -/
def Heap.fullData (h : Heap) (v : Value) : Datum :=
  h.dataWithin (·.fullName) (h.objects.size + 1) v

/-- The text of a value, which for most values is an expression for it. -/
def Heap.spell (h : Heap) (v : Value) : String :=
  match h.object? v with
  | some (.captures c) => c.text
  | some (.parametric text) => text
  | _ => (h.fullData v).spell

/-- The text of a value: a text is its own. -/
def Heap.text (h : Heap) (v : Value) : String :=
  match v with
  | .atom (.str s) => s
  | v => h.spell v

end Covenant.Machine
