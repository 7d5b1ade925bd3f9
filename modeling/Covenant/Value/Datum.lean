import Covenant.Number.Shortest
import Covenant.Text.Quoted
import Covenant.Tree.Expr

/-! # Data — values without identity

    The values that a declaration can hold as a default and that answers are
    made of.  They are finite trees; what makes two of them equal, which of
    them can be keys, and how they are spelled, is defined here. -/

namespace Covenant.Value

open Number Text

/-- A value. -/
inductive Datum where
  | none
  | ellipsis
  | bool (b : Bool)
  | int (n : Int)
  | float (x : Binary64)
  | complex (re im : Binary64)
  | str (s : String)
  | bytes (bs : List UInt8)
  | bytearray (bs : List UInt8)
  | list (items : List Datum)
  | tuple (items : List Datum)
  | set (items : List Datum)
  | frozenset (items : List Datum)
  | dict (items : List (Datum × Datum))
  | range (start stop step : Int)
  /-- A decimal number: sign, digits and power of ten. -/
  | decimal (negative : Bool) (digits : Nat) (width : Nat) (scale : Int)
  | fraction (num : Int) (den : Nat)
  | type (name : String)
  | callable (name : String)
  /-- An instance of a class with its attributes. -/
  | object (cls : String) (fields : List (String × Datum))

instance : Inhabited Datum := ⟨.none⟩

namespace Datum

/-! ## Spelling -/

/-- The text of a decimal number: positional unless its power of ten is far off. -/
def decimalText (negative : Bool) (digits width : Nat) (scale : Int) : String :=
  let ds := Nat.toDigits 10 digits
  let ds := List.replicate (width - ds.length) '0' ++ ds
  let left : Int := scale + ds.length
  let sign := if negative then "-" else ""
  let dot : Int := if scale ≤ 0 ∧ -6 < left then left else 1
  let body :=
    if dot ≤ 0 then "0." ++ String.ofList (List.replicate (-dot).toNat '0' ++ ds)
    else if (ds.length : Int) ≤ dot then
      String.ofList (ds ++ List.replicate (dot - ds.length).toNat '0')
    else String.ofList (ds.take dot.toNat) ++ "." ++ String.ofList (ds.drop dot.toNat)
  let power := left - dot
  let expo := if power = 0 then ""
    else if 0 < power then s!"E+{power}" else s!"E{power}"
  sign ++ body ++ expo

/-- The text of a complex number; one that is only imaginary has no brackets. -/
def complexText (re im : Binary64) : String :=
  let imaginary := imaginaryLayout.text im
  if re.isZero && !re.isNegative then imaginary ++ "j"
  else
    let sign := if im.isNegative && !im.isNaN then "" else "+"
    "(" ++ imaginaryLayout.text re ++ sign ++ imaginary ++ "j)"

/-- The text of a range. -/
def rangeText (start stop step : Int) : String :=
  if step = 1 then s!"range({start}, {stop})" else s!"range({start}, {stop}, {step})"

/-- The text of a tuple from those of its items. -/
def tupleText : List String → String
  | [t] => "(" ++ t ++ ",)"
  | ts => "(" ++ ", ".intercalate ts ++ ")"

/-- Items between curly brackets. -/
def curly (ts : List String) : String := "\x7b" ++ ", ".intercalate ts ++ "\x7d"

/-- A small whole number; truth values count as zero and one. -/
def small? : Datum → Option Nat
  | .bool b => some (if b then 1 else 0)
  | .int n => if 0 ≤ n ∧ n < 32 then some n.toNat else Option.none
  | _ => Option.none

/-- The items of a set in the order in which they are gone through: small whole numbers go up,
    and other items come as they were added. -/
def setOrder {α : Type} (number : α → Option Nat) (items : List α) : List α :=
  let bound := if items.length < 5 then 8 else 32
  if items.all fun x => (number x).any (· < bound) then
    items.mergeSort fun x y => (number x).getD 0 ≤ (number y).getD 0
  else items

mutual

/-- The text of a value, which for most values is an expression for it. -/
def spell : Datum → String
  | .none => "None"
  | .ellipsis => "Ellipsis"
  | .bool b => if b then "True" else "False"
  | .int n => toString n
  | .float x => valueLayout.text x
  | .complex re im => complexText re im
  | .str s => quote s
  | .bytes bs => quoteBytes bs
  | .bytearray bs => "bytearray(" ++ quoteBytes bs ++ ")"
  | .list items => "[" ++ ", ".intercalate (spellAll items) ++ "]"
  | .tuple items => tupleText (spellAll items)
  | .set [] => "set()"
  | .set items => curly (spellSet items)
  | .frozenset [] => "frozenset()"
  | .frozenset items => "frozenset(" ++ curly (spellSet items) ++ ")"
  | .dict items => curly (spellItems items)
  | .range a b c => rangeText a b c
  | .decimal n d w s => "Decimal('" ++ decimalText n d w s ++ "')"
  | .fraction n d => s!"Fraction({n}, {d})"
  | .type name => s!"<class '{name}'>"
  | .callable name => s!"<function {name}>"
  | .object cls _ => s!"<{cls} object>"

/-- The texts of several values. -/
def spellAll : List Datum → List String
  | [] => []
  | d :: ds => d.spell :: spellAll ds

/-- The texts of the items of a set. -/
def spellSet (items : List Datum) : List String :=
  (setOrder (·.1.small?) (items.zip (spellAll items))).map (·.2)

/-- The texts of the items of a mapping. -/
def spellItems : List (Datum × Datum) → List String
  | [] => []
  | (k, v) :: rest => (k.spell ++ ": " ++ v.spell) :: spellItems rest

end

/-! ## Equality -/

/-- The value of a finite number as a ratio; `none` for what is no finite real number. -/
def ratio? : Datum → Option (Int × Nat)
  | .bool b => some (if b then 1 else 0, 1)
  | .int n => some (n, 1)
  | .float x => if x.isNaN || x.isInfinite then Option.none else some x.toRatio
  | .complex re im =>
    if im.isZero && !(re.isNaN || re.isInfinite) then some re.toRatio else Option.none
  | .fraction n d => some (n, d)
  | .decimal neg d _ s =>
    let n : Int := if neg then -(d : Int) else d
    if s < 0 then some (n, Nat.pow 10 (-s).toNat) else some (n * Nat.pow 10 s.toNat, 1)
  | _ => Option.none

/-- Whether two ratios are the same number. -/
def sameRatio (a b : Int × Nat) : Bool := a.1 * b.2 == b.1 * a.2

/-- Whether two numbers that are not both finite reals are equal. -/
def sameSpecial : Datum → Datum → Bool
  | .float x, .float y => x.isInfinite && y.isInfinite && x.isNegative == y.isNegative
  | .complex a b, .complex c d => a.toFloat == c.toFloat && b.toFloat == d.toFloat
  | .float x, .complex a b | .complex a b, .float x =>
    b.isZero && x.isInfinite && a.isInfinite && x.isNegative == a.isNegative
  | _, _ => false

/-- Whether a value is a number. -/
def isNumber : Datum → Bool
  | .bool _ | .int _ | .float _ | .complex .. | .fraction .. | .decimal .. => true
  | _ => false

/-- Whether two numbers are equal, whatever their types. -/
def sameNumber (a b : Datum) : Bool :=
  match ratio? a, ratio? b with
  | some x, some y => sameRatio x y
  | Option.none, Option.none => sameSpecial a b
  | _, _ => false

mutual

/-- Whether two values are equal.  Numbers are compared by value, sets and mappings without
    regard to order. -/
def same : Datum → Datum → Bool
  | .none, .none | .ellipsis, .ellipsis => true
  | .str a, .str b => a == b
  | .bytes a, .bytes b | .bytes a, .bytearray b | .bytearray a, .bytes b
  | .bytearray a, .bytearray b => a == b
  | .list a, .list b | .tuple a, .tuple b => sameAll a b
  | .set a, .set b | .frozenset a, .frozenset b | .set a, .frozenset b
  | .frozenset a, .set b => a.length == b.length && allIn a b
  | .dict a, .dict b => a.length == b.length && allItemsIn a b
  | .range a b c, .range d e f => a == d && b == e && c == f
  | .type a, .type b | .callable a, .callable b => a == b
  | a, b => isNumber a && isNumber b && sameNumber a b

/-- Whether two lists of values are equal item by item. -/
def sameAll : List Datum → List Datum → Bool
  | [], [] => true
  | a :: as, b :: bs => same a b && sameAll as bs
  | _, _ => false

/-- Whether every value of the first list is in the second. -/
def allIn : List Datum → List Datum → Bool
  | [], _ => true
  | a :: as, bs => bs.any (fun b => same a b) && allIn as bs

/-- Whether every item of the first mapping is in the second. -/
def allItemsIn : List (Datum × Datum) → List (Datum × Datum) → Bool
  | [], _ => true
  | (k, v) :: as, bs => bs.any (fun p => same k p.1 && same v p.2) && allItemsIn as bs

end

/-! ## Keys -/

mutual

/-- Whether a value can be a key or an item of a set. -/
def isKey : Datum → Bool
  | .bytearray _ | .list _ | .set _ | .dict _ => false
  | .tuple items => areKeys items
  | _ => true

/-- Whether several values all can be keys. -/
def areKeys : List Datum → Bool
  | [] => true
  | d :: ds => d.isKey && areKeys ds

end

/-- Sets a key of a mapping; an equal key keeps its place and its spelling. -/
def setItem (items : List (Datum × Datum)) (key value : Datum) : List (Datum × Datum) :=
  if items.any (fun p => p.1.same key) then
    items.map fun p => if p.1.same key then (p.1, value) else p
  else items ++ [(key, value)]

/-- Adds an item to a set unless an equal one is there. -/
def addItem (items : List Datum) (d : Datum) : List Datum :=
  if items.any (·.same d) then items else items ++ [d]

/-! ## Items -/

/-- How many numbers a range has. -/
def rangeSize (start stop step : Int) : Nat :=
  if step = 0 then 0
  else if 0 < step then ((stop - start + step - 1) / step).toNat
  else ((start - stop - step - 1) / (-step)).toNat

/-- The numbers of a range. -/
def rangeItems (start stop step : Int) : List Int :=
  (List.range (rangeSize start stop step)).map fun (i : Nat) => start + step * i

/-- Whether a number is one of a range. -/
def inRange (start stop step n : Int) : Bool :=
  (n - start) % step == 0 && 0 ≤ (n - start) / step
    && (n - start) / step < rangeSize start stop step

/-- What a loop over a value goes through; `none` if there is nothing to loop over. -/
def items? : Datum → Option (List Datum)
  | .str s => some (s.toList.map fun c => .str (String.singleton c))
  | .bytes bs | .bytearray bs => some (bs.map fun b => .int b.toNat)
  | .list ds | .tuple ds => some ds
  | .set ds | .frozenset ds => some (setOrder small? ds)
  | .dict ps => some (ps.map (·.1))
  | .range a b c => some ((rangeItems a b c).map .int)
  | _ => Option.none

end Datum

end Covenant.Value
