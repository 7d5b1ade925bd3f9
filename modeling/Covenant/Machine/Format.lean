import Covenant.Machine.Collection

/-! # Formats — values laid out as text

    A layout gives a width, a side, a filling and a number of places.  It is
    written after a colon in a formatted text, or after a percent sign in a
    text that is filled in from the left. -/

namespace Covenant.Machine

open Covenant.Value (Datum)
open Covenant.Machine.Comp Number

/-! ## Layouts -/

/-- On which side of its width a text stands. -/
inductive Side where
  | left | right | middle
  /-- To the right, with the filling between the sign and the digits. -/
  | digits
  deriving DecidableEq, Repr

/-- How a value is laid out. -/
structure Layout where
  fill : Char := ' '
  side : Option Side := none
  /-- What is written before a number that is not negative. -/
  plus : String := ""
  /-- The base is written in front of a number, and a point is never left out. -/
  marked : Bool := false
  /-- Numbers are filled up with zeros after their sign. -/
  zeros : Bool := false
  width : Nat := 0
  /-- What stands between groups of digits. -/
  mark : Option Char := none
  places : Option Nat := none
  /-- The notation, if one is asked for. -/
  kind : Option Char := none

/-- A side by its sign. -/
def sideOf? (c : Char) : Option Side :=
  match c with
  | '<' => some .left
  | '>' => some .right
  | '^' => some .middle
  | '=' => some .digits
  | _ => none

/-- A number at the start of a text and what follows. -/
def leadingNumber (cs : List Char) : Option Nat × List Char :=
  let ds := cs.takeWhile Char.isDigit
  (if ds.isEmpty then none else some (Covenant.Value.numberOf ds), cs.drop ds.length)

/-- Reads filling and side. -/
def Layout.readSide : List Char → Layout × List Char
  | f :: c :: rest =>
    match sideOf? c, sideOf? f with
    | some s, _ => ({ fill := f, side := some s }, rest)
    | none, some s => ({ side := some s }, c :: rest)
    | none, none => ({}, f :: c :: rest)
  | [c] =>
    match sideOf? c with
    | some s => ({ side := some s }, [])
    | none => ({}, [c])
  | [] => ({}, [])

/-- Reads the sign of numbers that are not negative. -/
def Layout.readSign (l : Layout) : List Char → Layout × List Char
  | '+' :: rest => ({ l with plus := "+" }, rest)
  | ' ' :: rest => ({ l with plus := " " }, rest)
  | '-' :: rest => (l, rest)
  | rest => (l, rest)

/-- Reads the sign that asks for marks. -/
def Layout.readMarked (l : Layout) : List Char → Layout × List Char
  | '#' :: rest => ({ l with marked := true }, rest)
  | rest => (l, rest)

/-- Reads a zero that fills numbers up. -/
def Layout.readZero (l : Layout) : List Char → Layout × List Char
  | '0' :: rest =>
    if l.side.isNone then ({ l with fill := '0', zeros := true }, rest) else (l, rest)
  | rest => (l, rest)

/-- Reads what stands between groups of digits. -/
def Layout.readGroups (l : Layout) : List Char → Layout × List Char
  | ',' :: rest => ({ l with mark := some ',' }, rest)
  | '_' :: rest => ({ l with mark := some '_' }, rest)
  | rest => (l, rest)

/-- Reads the number of places. -/
def Layout.readPlaces (l : Layout) : List Char → Option (Layout × List Char)
  | '.' :: rest =>
    match leadingNumber rest with
    | (some n, rest) => some ({ l with places := some n }, rest)
    | (none, _) => none
  | rest => some (l, rest)

/-- Reads a layout as it stands after a colon. -/
def Layout.read? (text : String) : Option Layout := do
  let (l, cs) := readSide text.toList
  let (l, cs) := l.readSign cs
  let (l, cs) := l.readMarked cs
  let (l, cs) := l.readZero cs
  let (width, cs) := leadingNumber cs
  let (l, cs) := { l with width := width.getD 0 }.readGroups cs
  let (l, cs) ← l.readPlaces cs
  match cs with
  | [] => some l
  | [c] => some { l with kind := some c }
  | _ => none

/-! ## Writing -/

/-- A filling of some width. -/
def filling (c : Char) (n : Nat) : String := String.ofList (List.replicate n c)

/-- Fills a text, with what belongs in front of it, up to the width. -/
def Layout.fillUp (l : Layout) (usual : Side) (front body : String) : String :=
  let missing := l.width - (front.length + body.length)
  match l.side.getD usual with
  | .left => front ++ body ++ filling l.fill missing
  | .right => filling l.fill missing ++ front ++ body
  | .middle => filling l.fill (missing / 2) ++ front ++ body
      ++ filling l.fill (missing - missing / 2)
  | .digits => front ++ filling l.fill missing ++ body

/-- Fills a number up, with its sign and the mark of its base in front. -/
def Layout.fillNumber (l : Layout) (negative : Bool) (base body : String) : String :=
  l.fillUp (if l.zeros then .digits else .right) ((if negative then "-" else l.plus) ++ base) body

/-- Digits in groups of some size. -/
def groupDigits (mark : Char) (size : Nat) (ds : List Char) : List Char :=
  (ds.reverse.zipIdx.flatMap fun p =>
    if p.2 % size = 0 ∧ p.2 ≠ 0 then [mark, p.1] else [p.1]).reverse

/-- The digits of a number in some base. -/
def digitsOf (kind : Char) (n : Nat) : List Char :=
  match kind with
  | 'x' => Nat.toDigits 16 n
  | 'X' => (Nat.toDigits 16 n).map Char.toUpper
  | 'o' => Nat.toDigits 8 n
  | 'b' => Nat.toDigits 2 n
  | _ => Nat.toDigits 10 n

/-- The mark of a base. -/
def baseMark (kind : Char) : String :=
  if ['x', 'X', 'o', 'b'].contains kind then String.ofList ['0', kind] else ""

/-! ## Digits of ratios -/

/-- Digits before and after the point, and an exponent. -/
structure Digits where
  whole : List Char
  places : List Char := []
  exponent : Option Int := none

/-- The digits of a ratio with some places after the point, a half to the even one. -/
def fixedDigits (num den places : Nat) : Digits :=
  let n := Binary64.roundDiv (num * Nat.pow 10 places) den
  let ds := Nat.toDigits 10 n
  let ds := List.replicate (places + 1 - ds.length) '0' ++ ds
  { whole := ds.take (ds.length - places), places := ds.drop (ds.length - places) }

/-- A ratio divided by a power of ten, to the nearest whole number. -/
def roundedScale (num den : Nat) (e : Int) : Nat :=
  if e < 0 then Binary64.roundDiv (num * Nat.pow 10 (-e).toNat) den
  else Binary64.roundDiv num (den * Nat.pow 10 e.toNat)

/-- Some significant digits of a ratio, and the power of ten of the first one. -/
def significantDigits (num den count : Nat) : List Char × Int :=
  if num = 0 then (List.replicate count '0', 0)
  else
    let guess : Int := (Nat.toDigits 10 num).length - (Nat.toDigits 10 den).length
    let below := if guess < 0 then num * Nat.pow 10 (-guess).toNat < den
      else num < den * Nat.pow 10 guess.toNat
    let e := if below then guess - 1 else guess
    let n := roundedScale num den (e - (count - 1))
    if n < Nat.pow 10 count then (Nat.toDigits 10 n, e) else (Nat.toDigits 10 (n / 10), e + 1)

/-- The digits of a ratio with one digit before the point. -/
def scientificDigits (num den places : Nat) : Digits :=
  let (ds, e) := significantDigits num den (places + 1)
  { whole := ds.take 1, places := ds.drop 1, exponent := some e }

/-- The digits of a ratio with some significant ones; very large and very small numbers have
    an exponent.  Zeros at the end are dropped unless they are asked for. -/
def generalDigits (num den count : Nat) (most : Int) (keepZeros : Bool) : Digits :=
  let (ds, e) := significantDigits num den count
  let drop (cs : List Char) : List Char :=
    if keepZeros then cs else (cs.reverse.dropWhile (· = '0')).reverse
  if -4 ≤ e ∧ e < most then
    if e < 0 then
      { whole := ['0'], places := drop (List.replicate (-e - 1).toNat '0' ++ ds) }
    else
      let ds := ds ++ List.replicate (e.toNat + 1 - ds.length) '0'
      { whole := ds.take (e.toNat + 1), places := drop (ds.drop (e.toNat + 1)) }
  else { whole := ds.take 1, places := drop (ds.drop 1), exponent := some e }

/-- Digits as they are written. -/
def Digits.text (d : Digits) (mark : Option Char) (pointed : Bool) : String :=
  let whole := match mark with
    | some m => groupDigits m 3 d.whole
    | none => d.whole
  let point := if d.places.isEmpty && !pointed then [] else '.' :: d.places
  let power := match d.exponent with
    | some e =>
      let ds := Nat.toDigits 10 e.natAbs
      'e' :: (if e < 0 then '-' else '+') :: (List.replicate (2 - ds.length) '0' ++ ds)
    | none => []
  String.ofList (whole ++ point ++ power)

/-- The digits of a floating number in some notation. -/
def Layout.digits (l : Layout) (kind : Option Char) (num den : Nat) : Digits :=
  let places := l.places.getD 6
  match kind with
  | some 'e' => scientificDigits num den places
  | some 'f' => fixedDigits num den places
  | some _ => generalDigits num den (max places 1) (max places 1 : Nat) l.marked
  | none =>
    let d := generalDigits num den (max places 1) ((max places 1 : Nat) - 1) l.marked
    -- a number without an exponent shows a place
    if d.places.isEmpty && d.exponent.isNone then { d with places := ['0'] } else d

/-- A floating number in a notation. -/
def Layout.writeNotation (l : Layout) (kind : Option Char) (x : Binary64) (unit : String) :
    String :=
  let body :=
    if x.isNaN then "nan"
    else if x.isInfinite then "inf"
    else (l.digits kind x.toRatio.1.natAbs x.toRatio.2).text l.mark l.marked
  l.fillNumber (x.isNegative && !x.isNaN) "" (body ++ unit)

/-- A floating number in a layout. -/
def Layout.writeFloat (l : Layout) (x : Binary64) : Except Mistake String :=
  match l.kind with
  | some '%' => .ok (l.writeNotation (some 'f') (floatOp (· * ·) x (Binary64.ofInt 100)) "%")
  | some 'n' => .ok (l.writeNotation (some 'g') x "")
  | none =>
    if l.places.isSome then .ok (l.writeNotation none x "")
    else
      let text := Datum.spell (.float ⟨x.bits &&& 0x7FFFFFFFFFFFFFFF⟩)
      .ok (l.fillNumber (x.isNegative && !x.isNaN) "" text)
  | some c =>
    if ['e', 'f', 'g'].contains c then .ok (l.writeNotation (some c) x "")
    else if ['E', 'F', 'G'].contains c then
      .ok (l.writeNotation (some c.toLower) x "").toUpper
    else .error .wrongValue

/-- A text in a layout. -/
def Layout.writeText (l : Layout) (s : String) : Except Mistake String :=
  if l.kind.getD 's' = 's' ∧ l.side ≠ some .digits ∧ l.plus.isEmpty ∧ l.mark.isNone
      ∧ ¬ l.marked then
    .ok (l.fillUp .left "" (match l.places with
      | some n => String.ofList (s.toList.take n)
      | none => s))
  else .error .wrongValue

/-- A whole number in a layout. -/
def Layout.writeWhole (l : Layout) (n : Int) : Except Mistake String :=
  let kind := l.kind.getD 'd'
  if ['e', 'E', 'f', 'F', 'g', 'G', '%'].contains kind then do
    match ← floating? (.int n) with
    | some x => l.writeFloat x
    | none => .error .wrongType
  else if l.places.isSome then .error .wrongValue
  else if kind = 'c' then
    if n < 0 ∨ 0x110000 ≤ n then .error .overflow
    else .ok (l.fillUp .left "" (String.singleton (Char.ofNat n.toNat)))
  else if ['d', 'x', 'X', 'o', 'b', 'n'].contains kind then
    let ds := digitsOf kind n.natAbs
    let size := if kind = 'd' ∨ kind = 'n' then 3 else 4
    let body := match l.mark with
      | some m => groupDigits m size ds
      | none => ds
    .ok (l.fillNumber (n < 0) (if l.marked then baseMark kind else "") (String.ofList body))
  else .error .wrongValue

/-- An atom in a layout. -/
def Layout.write (l : Layout) (d : Datum) : Except Mistake String :=
  match d, whole? d with
  | .str s, _ => l.writeText s
  | _, some n => l.writeWhole n
  | .float x, _ => l.writeFloat x
  | _, _ => .error .wrongType

/-- Whether values of a kind have layouts. -/
def hasLayouts (d : Datum) : Bool :=
  match d with
  | .str _ | .float _ => true
  | d => (whole? d).isSome

/-- A value in a layout given as text. -/
def formatted (h : Heap) (v : Value) (layout : String) : Except Mistake String :=
  if layout.isEmpty then .ok (h.text v)
  else
    match v, Layout.read? layout with
    | .atom d, l =>
      if hasLayouts d then
        match l with
        | some l => l.write d
        | none => .error .wrongValue
      else .error .wrongType
    | _, _ => .error .wrongType

/-! ## Filling in -/

/-- Reads the flags of a place to be filled in. -/
def Layout.readFlags (l : Layout) : List Char → Layout × List Char
  | '-' :: rest => readFlags { l with side := some .left, fill := ' ', zeros := false } rest
  | '0' :: rest =>
    readFlags (if l.side.isNone then { l with zeros := true, fill := '0' } else l) rest
  | '+' :: rest => readFlags { l with plus := "+" } rest
  | ' ' :: rest => readFlags { l with plus := if l.plus.isEmpty then " " else l.plus } rest
  | '#' :: rest => readFlags { l with marked := true } rest
  | rest => (l, rest)

/-- A place in a text that is filled in. -/
structure Place where
  /-- The key of the value, if the values are in a mapping. -/
  key : Option String
  layout : Layout
  kind : Char

/-- Reads a place to be filled in, and what follows. -/
def Place.read? (cs : List Char) : Option (Place × List Char) := do
  let (key, cs) ← match cs with
    | '(' :: rest =>
      let key := rest.takeWhile (· ≠ ')')
      if key.length < rest.length then
        some (some (String.ofList key), rest.drop (key.length + 1))
      else none
    | cs => some (none, cs)
  let (l, cs) := Layout.readFlags {} cs
  let (width, cs) := leadingNumber cs
  let l := { l with width := width.getD 0 }
  let (l, cs) := match cs with
    | '.' :: rest =>
      let (n, rest) := leadingNumber rest
      ({ l with places := some (n.getD 0) }, rest)
    | cs => (l, cs)
  match cs with
  | [] => none
  | c :: rest => some (⟨key, l, c⟩, rest)

/-- Digits filled up with zeros to some number of them. -/
def zeroFilled (places : Option Nat) (ds : List Char) : String :=
  String.ofList (List.replicate (places.getD 0 - ds.length) '0' ++ ds)

/-- A value at a place. -/
def Place.fill (h : Heap) (p : Place) (v : Value) : Except Mistake String :=
  let l := p.layout
  let texts (s : String) : Except Mistake String :=
    .ok (Layout.fillUp { l with fill := ' ' } .right "" (match l.places with
      | some n => String.ofList (s.toList.take n)
      | none => s))
  match p.kind, v with
  | 's', v => texts (h.text v)
  | 'r', v | 'a', v => texts (h.spell v)
  | 'c', .atom (.str s) => if s.length = 1 then texts s else .error .wrongType
  | kind, .atom d =>
    if ['d', 'i', 'u'].contains kind then do
      match ← truncated d with
      | .int n => .ok (l.fillNumber (n < 0) "" (zeroFilled l.places (Nat.toDigits 10 n.natAbs)))
      | _ => .error .wrongType
    else if ['x', 'X', 'o'].contains kind then
      match whole? d with
      | some n =>
        .ok (l.fillNumber (n < 0) (if l.marked then baseMark kind else "")
          (zeroFilled l.places (digitsOf kind n.natAbs)))
      | none => .error .wrongType
    else if kind = 'c' then
      match whole? d with
      | some n =>
        if n < 0 ∨ 0x110000 ≤ n then .error .overflow
        else texts (String.singleton (Char.ofNat n.toNat))
      | none => .error .wrongType
    else if ['e', 'E', 'f', 'F', 'g', 'G'].contains kind then do
      match ← floating? d with
      | some x => Layout.writeFloat { l with kind := some kind } x
      | none => .error .wrongType
    else .error .wrongValue
  | kind, _ =>
    if ['d', 'i', 'u', 'x', 'X', 'o', 'c', 'e', 'E', 'f', 'F', 'g', 'G'].contains kind then
      .error .wrongType
    else .error .wrongValue

/-- Fills the places of a text in, from values in their order or from a mapping.  The fuel is
    the length of the text. -/
def fillIn (h : Heap) (find : String → Except Mistake Value) :
    Nat → List Char → List Value → Except Mistake (List Char × List Value)
  | 0, _, vs => .ok ([], vs)
  | _ + 1, [], vs => .ok ([], vs)
  | fuel + 1, '%' :: cs, vs =>
    match Place.read? cs with
    | none => .error .wrongValue
    | some (p, rest) => do
      let (text, vs) ← match p.kind, p.key, vs with
        | '%', _, vs => .ok ("%", vs)
        | _, some key, vs => do .ok (← p.fill h (← find key), vs)
        | _, none, v :: vs => do .ok (← p.fill h v, vs)
        | _, none, [] => .error .wrongType
      let (out, vs) ← fillIn h find fuel rest vs
      .ok (text.toList ++ out, vs)
  | fuel + 1, c :: cs, vs => do
    let (out, vs) ← fillIn h find fuel cs vs
    .ok (c :: out, vs)

/-- The value of a key in a mapping of values. -/
def valueAt (h : Heap) (v : Value) (key : String) : Except Mistake Value :=
  match h.object? v with
  | some o =>
    match mapping? o with
    | some ps =>
      match lookupKey h.same (.str key) ps with
      | some (some x) => .ok x
      | some none => .error .noKey
      | none => .error .tooDeep
    | none => .error .wrongType
  | none => .error .wrongType

/-- A text with its places filled in from a tuple or from one value. -/
def filledIn (h : Heap) (text : String) (v : Value) : Except Mistake String := do
  let (vs, isTuple) := match h.object? v with
    | some (.tuple vs) => (vs, true)
    | _ => ([v], false)
  let (out, left) ← fillIn h (valueAt h v) (text.length + 1) text.toList vs
  -- what can be indexed may be left over
  let spare := !isTuple && (match v, h.object? v with
    | .atom (.bytes _), _ | .atom (.range ..), _ => true
    | _, some (.dict _) | _, some (.list _) | _, some (.bytearray _) => true
    | _, _ => false)
  if left.isEmpty || spare then .ok (String.ofList out) else .error .wrongType

end Covenant.Machine
