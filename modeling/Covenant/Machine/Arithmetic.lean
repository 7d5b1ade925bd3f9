import Covenant.Machine.View
import Covenant.Value.Constant

/-! # Arithmetic of atoms

    Whole numbers are unbounded; division and remainder go to the floor.  A
    whole number meets a floating one as the nearest floating number.  Texts
    can be joined and repeated.  An operation that two atoms do not have is a
    mistake of type. -/

namespace Covenant.Machine

open Covenant.Value (Datum)
open Number Covenant.Tree

/-- A whole number; truth values count as zero and one. -/
def whole? : Datum → Option Int
  | .bool b => some (if b then 1 else 0)
  | .int n => some n
  | _ => none

/-- The floating number of a real number; one that is too large is a mistake. -/
def floating? (d : Datum) : Except Mistake (Option Binary64) :=
  match d, whole? d with
  | .float x, _ => .ok (some x)
  | _, some n =>
    let x := Binary64.ofInt n
    if x.isInfinite then .error .overflow else .ok (some x)
  | _, none => .ok none

/-! ## Bits -/

/-- The number of bits in which two numbers and their signs have room. -/
def commonWidth (a b : Int) : Nat := max a.natAbs.log2 b.natAbs.log2 + 2

/-- A number in two's complement. -/
def toBits (width : Nat) (n : Int) : Nat := (n % Nat.pow 2 width).toNat

/-- The number of a two's complement. -/
def ofBits (width : Nat) (n : Nat) : Int :=
  if n < Nat.pow 2 (width - 1) then n else (n : Int) - Nat.pow 2 width

/-- An operation on the bits of two numbers. -/
def bitwise (op : Nat → Nat → Nat) (a b : Int) : Int :=
  let w := commonWidth a b
  ofBits w (op (toBits w a) (toBits w b))

/-! ## Floating numbers -/

/-- The number that is not one. -/
def notANumber : Binary64 := ⟨0x7FF8000000000000⟩

/-- An operation on machine numbers. -/
def floatOp (op : Float → Float → Float) (x y : Binary64) : Binary64 :=
  Binary64.ofFloat (op x.toFloat y.toFloat)

/-- The remainder of a division towards zero, without rounding. -/
def remainder (x y : Binary64) : Binary64 :=
  if x.isNaN || y.isNaN || x.isInfinite || y.isZero then notANumber
  else if y.isInfinite || x.isZero then x
  else
    let (a, b) := x.toRatio
    let (c, d) := y.toRatio
    -- over the common denominator the remainder is one of whole numbers
    let r := (a.natAbs * d) % (c.natAbs * b)
    Binary64.ofRatio x.isNegative r (b * d)

/-- Quotient to the floor and remainder with the sign of the divisor. -/
def floorDivide (x y : Binary64) : Binary64 × Binary64 :=
  let m := remainder x y
  let q := (x.toFloat - m.toFloat) / y.toFloat
  let zero := m.toFloat == 0.0
  let turned := !zero && (m.toFloat < 0.0) != (y.toFloat < 0.0)
  let q := if turned then q - 1.0 else q
  let m := if zero then Binary64.ofParts y.isNegative 0
    else if turned then floatOp (· + ·) m y else m
  let q := if q == 0.0 then Binary64.ofParts (x.isNegative != y.isNegative) 0
    else
      let f := q.floor
      Binary64.ofFloat (if q - f > 0.5 then f + 1.0 else f)
  (q, m)

/-- A power of floating numbers. -/
def floatPower (x y : Binary64) : Except Mistake Datum :=
  let fx := x.toFloat
  let fy := y.toFloat
  if x.isZero && fy < 0.0 then .error .divisionByZero
  else if fx < 0.0 && !x.isInfinite && !y.isInfinite && fy.floor != fy then
    -- a fractional power of a negative number has an imaginary part
    let r := Float.pow (-fx) fy
    let angle := 3.141592653589793 * fy
    .ok (.complex (Binary64.ofFloat (r * Float.cos angle)) (Binary64.ofFloat (r * Float.sin angle)))
  else
    let z := Binary64.ofFloat (Float.pow fx fy)
    if z.isInfinite && !x.isInfinite && !y.isInfinite then .error .overflow
    else .ok (.float z)

/-! ## Whole numbers -/

/-- The largest shift and power that is carried out. -/
def sizeLimit : Nat := 10000000

/-- An operation on whole numbers. -/
def wholeOp (op : BinOp) (a b : Int) : Except Mistake Datum :=
  match op with
  | .add => .ok (.int (a + b))
  | .sub => .ok (.int (a - b))
  | .mult => .ok (.int (a * b))
  | .floorDiv => if b = 0 then .error .divisionByZero else .ok (.int (Int.fdiv a b))
  | .mod => if b = 0 then .error .divisionByZero else .ok (.int (Int.fmod a b))
  | .div =>
    if b = 0 then .error .divisionByZero
    else
      let x := Binary64.ofRatio ((a < 0) != (b < 0)) a.natAbs b.natAbs
      let x := if a = 0 then Binary64.ofParts (b < 0) 0 else x
      if x.isInfinite then .error .overflow else .ok (.float x)
  | .pow =>
    if b < 0 then do
      match ← floating? (.int a), ← floating? (.int b) with
      | some x, some y => floatPower x y
      | _, _ => .error .wrongType
    else if a.natAbs ≤ 1 then
      .ok (.int (if b = 0 then 1 else if a = -1 ∧ b % 2 = 0 then 1 else a))
    else if sizeLimit < b.toNat then .error .overflow
    else .ok (.int (Int.pow a b.toNat))
  | .shiftLeft =>
    if b < 0 then .error .wrongValue
    else if a = 0 then .ok (.int 0)
    else if sizeLimit < b.toNat then .error .overflow
    else .ok (.int (a * Nat.pow 2 b.toNat))
  | .shiftRight =>
    if b < 0 then .error .wrongValue
    else if sizeLimit < b.toNat then .ok (.int (if a < 0 then -1 else 0))
    else .ok (.int (Int.fdiv a (Nat.pow 2 b.toNat)))
  | .bitAnd => .ok (.int (bitwise (· &&& ·) a b))
  | .bitOr => .ok (.int (bitwise (· ||| ·) a b))
  | .bitXor => .ok (.int (bitwise (· ^^^ ·) a b))
  | .matMult => .error .wrongType

/-- An operation on floating numbers. -/
def floatingOp (op : BinOp) (x y : Binary64) : Except Mistake Datum :=
  match op with
  | .add => .ok (.float (floatOp (· + ·) x y))
  | .sub => .ok (.float (floatOp (· - ·) x y))
  | .mult => .ok (.float (floatOp (· * ·) x y))
  | .div => if y.isZero then .error .divisionByZero else .ok (.float (floatOp (· / ·) x y))
  | .floorDiv => if y.isZero then .error .divisionByZero else .ok (.float (floorDivide x y).1)
  | .mod => if y.isZero then .error .divisionByZero else .ok (.float (floorDivide x y).2)
  | .pow => floatPower x y
  | _ => .error .wrongType

/-! ## Complex numbers -/

/-- Real and imaginary part of a number. -/
def parts? (d : Datum) : Except Mistake (Option (Binary64 × Binary64)) :=
  match d with
  | .complex re im => .ok (some (re, im))
  | d => do
    match ← floating? d with
    | some x => .ok (some (x, ⟨0⟩))
    | none => .ok none

/-- An operation on complex numbers. -/
def complexOp (op : BinOp) (a b c d : Float) : Except Mistake Datum :=
  let make (re im : Float) : Datum := .complex (Binary64.ofFloat re) (Binary64.ofFloat im)
  match op with
  | .add => .ok (make (a + c) (b + d))
  | .sub => .ok (make (a - c) (b - d))
  | .mult => .ok (make (a * c - b * d) (a * d + b * c))
  | .div =>
    if c == 0.0 && d == 0.0 then .error .divisionByZero
    else if c.abs >= d.abs then
      let r := d / c
      let n := c + d * r
      .ok (make ((a + b * r) / n) ((b - a * r) / n))
    else
      let r := c / d
      let n := c * r + d
      .ok (make ((a * r + b) / n) ((b * r - a) / n))
  | _ => .error .wrongType

/-! ## Fractions -/

/-- A fraction in lowest terms. -/
def fraction (num : Int) (den : Int) : Datum :=
  let g := Nat.gcd num.natAbs den.natAbs
  let num := if den < 0 then -num else num
  .fraction (num / g) (den.natAbs / g)

/-- An operation on fractions. -/
def fractionOp (op : BinOp) (a : Int) (b : Nat) (c : Int) (d : Nat) : Except Mistake Datum :=
  match op with
  | .add => .ok (fraction (a * d + c * b) (b * d))
  | .sub => .ok (fraction (a * d - c * b) (b * d))
  | .mult => .ok (fraction (a * c) (b * d))
  | .div => if c = 0 then .error .divisionByZero else .ok (fraction (a * d) (b * c))
  | .floorDiv =>
    if c = 0 then .error .divisionByZero else .ok (.int (Int.fdiv (a * d) (b * c)))
  | .mod =>
    if c = 0 then .error .divisionByZero
    else .ok (fraction (a * d - Int.fdiv (a * d) (b * c) * c * b) (b * d))
  | _ => .error .wrongType

/-! ## Atoms -/

/-- An operation on numbers. -/
def numberOp (op : BinOp) (a b : Datum) : Except Mistake Datum :=
  match a, b, whole? a, whole? b with
  | .bool x, .bool y, some m, some n =>
    match op with
    | .bitAnd => .ok (.bool (x && y))
    | .bitOr => .ok (.bool (x || y))
    | .bitXor => .ok (.bool (x != y))
    | op => wholeOp op m n
  | _, _, some m, some n => wholeOp op m n
  | .fraction p q, .fraction r s, _, _ => fractionOp op p q r s
  | .fraction p q, _, _, some n => fractionOp op p q n 1
  | _, .fraction p q, some n, _ => fractionOp op n 1 p q
  | .fraction p q, .float y, _, _ =>
    floatingOp op (Binary64.ofRatio (p < 0) p.natAbs q) y
  | .float x, .fraction p q, _, _ =>
    floatingOp op x (Binary64.ofRatio (p < 0) p.natAbs q)
  | .complex .., _, _, _ | _, .complex .., _, _ => do
    match ← parts? a, ← parts? b with
    | some (p, q), some (r, s) => complexOp op p.toFloat q.toFloat r.toFloat s.toFloat
    | _, _ => .error .wrongType
  | _, _, _, _ => do
    match ← floating? a, ← floating? b with
    | some x, some y => floatingOp op x y
    | _, _ => .error .wrongType

/-- The largest number of items that a sequence can have. -/
def roomLimit : Nat := 100000000

/-- A list repeated some times. -/
def repeated {α : Type} (times : Int) (as : List α) : Except Mistake (List α) :=
  if Nat.pow 2 63 ≤ times.natAbs then .error .overflow
  else if roomLimit < times.toNat * as.length then .error .noRoom
  else if as.isEmpty then .ok []
  else .ok (List.replicate times.toNat as).flatten

/-- An operation on atoms. -/
def atomOp (op : BinOp) (a b : Datum) : Except Mistake Datum :=
  match op, a, b with
  | .add, .str s, .str t => .ok (.str (s ++ t))
  | .add, .bytes s, .bytes t => .ok (.bytes (s ++ t))
  | .mult, .str s, d | .mult, d, .str s =>
    match whole? d with
    | some n => (repeated n s.toList).map fun cs => .str (String.ofList cs)
    | none => .error .wrongType
  | .mult, .bytes s, d | .mult, d, .bytes s =>
    match whole? d with
    | some n => (repeated n s).map .bytes
    | none => .error .wrongType
  | op, a, b => numberOp op a b

/-- An operator with one operand. -/
def signOp (op : UnaryOp) (d : Datum) : Except Mistake Datum :=
  match op, d, whole? d with
  | .plus, _, some n => .ok (.int n)
  | .minus, _, some n => .ok (.int (-n))
  | .invert, _, some n => .ok (.int (-n - 1))
  | .plus, .float x, _ => .ok (.float x)
  | .minus, .float x, _ => .ok (.float (Covenant.Value.negated x))
  | .plus, .complex a b, _ => .ok (.complex a b)
  | .minus, .complex a b, _ =>
    .ok (.complex (Covenant.Value.negated a) (Covenant.Value.negated b))
  | .plus, .fraction p q, _ => .ok (.fraction p q)
  | .minus, .fraction p q, _ => .ok (.fraction (-p) q)
  | .plus, .decimal n d w s, _ => .ok (.decimal n d w s)
  | .minus, .decimal n d w s, _ => .ok (.decimal (!n && d != 0) d w s)
  | _, _, _ => .error .wrongType

/-- The absolute value of a number. -/
def magnitude (d : Datum) : Except Mistake Datum :=
  match d, whole? d with
  | _, some n => .ok (.int n.natAbs)
  | .float x, _ => .ok (.float ⟨x.bits &&& 0x7FFFFFFFFFFFFFFF⟩)
  | .complex a b, _ =>
    .ok (.float (Binary64.ofFloat (a.toFloat * a.toFloat + b.toFloat * b.toFloat).sqrt))
  | .fraction p q, _ => .ok (.fraction p.natAbs q)
  | .decimal _ d w s, _ => .ok (.decimal false d w s)
  | _, _ => .error .wrongType

/-! ## Rounding -/

/-- The whole number nearest to a ratio, a half to the even one. -/
def roundRatio (num : Int) (den : Nat) : Int :=
  let m : Int := Binary64.roundDiv num.natAbs den
  if num < 0 then -m else m

/-- A number rounded to some places after the point, or to a whole number. -/
def rounded (d : Datum) (places : Option Int) : Except Mistake Datum :=
  match d, whole? d, places with
  | _, some n, none => .ok (.int n)
  | _, some n, some p =>
    if 0 ≤ p then .ok (.int n)
    else
      let unit : Nat := Nat.pow 10 (-p).toNat
      .ok (.int (roundRatio n unit * unit))
  | .float x, _, none =>
    if x.isNaN then .error .wrongValue
    else if x.isInfinite then .error .overflow
    else .ok (.int (roundRatio x.toRatio.1 x.toRatio.2))
  | .float x, _, some p =>
    if x.isNaN || x.isInfinite || x.isZero || 400 < p then .ok (.float x)
    else if p < -400 then .ok (.float (Binary64.ofParts x.isNegative 0))
    else
      let (a, b) := x.toRatio
      let r := if p < 0 then roundRatio a (b * Nat.pow 10 (-p).toNat)
        else roundRatio (a * Nat.pow 10 p.toNat) b
      .ok (.float (Binary64.ofDecimal x.isNegative r.natAbs (-p)))
  | .fraction p q, _, none => .ok (.int (roundRatio p q))
  | _, _, _ => .error .wrongType

/-- The whole number that is left of a number without its fraction. -/
def truncated (d : Datum) : Except Mistake Datum :=
  match d, whole? d with
  | _, some n => .ok (.int n)
  | .float x, _ =>
    if x.isNaN then .error .wrongValue
    else if x.isInfinite then .error .overflow
    else .ok (.int (Int.tdiv x.toRatio.1 x.toRatio.2))
  | .fraction p q, _ => .ok (.int (Int.tdiv p q))
  | _, _ => .error .wrongType

end Covenant.Machine
