/-! # Binary64 — floating-point numbers as bit patterns

    A number is kept as its 64 bits, so that equality is decidable and two
    zeros differ.  Reading rounds an exact ratio to the nearest number, a half
    to the even one; writing is the business of `Covenant.Number.Shortest`. -/

namespace Covenant.Number

/-- A binary64 number, as its bits. -/
structure Binary64 where
  bits : UInt64
  deriving DecidableEq, Inhabited

namespace Binary64

/-- The machine number with these bits. -/
def toFloat (x : Binary64) : Float := Float.ofBits x.bits

/-- The bits of a machine number. -/
def ofFloat (f : Float) : Binary64 := ⟨f.toBits⟩

/-- The sign bit. -/
def isNegative (x : Binary64) : Bool := x.bits >>> 63 == 1

/-- The exponent field. -/
def exponentField (x : Binary64) : Nat := ((x.bits >>> 52) &&& 0x7FF).toNat

/-- The fraction field. -/
def fractionField (x : Binary64) : Nat := (x.bits &&& 0xFFFFFFFFFFFFF).toNat

/-- Not a number: all exponent bits set, fraction not zero. -/
def isNaN (x : Binary64) : Bool := x.exponentField == 0x7FF && x.fractionField != 0

/-- Either infinity. -/
def isInfinite (x : Binary64) : Bool := x.exponentField == 0x7FF && x.fractionField == 0

/-- Either zero. -/
def isZero (x : Binary64) : Bool := x.exponentField == 0 && x.fractionField == 0

/-- A finite number's absolute value is `significand * 2 ^ exponent`. -/
def significand (x : Binary64) : Nat :=
  if x.exponentField = 0 then x.fractionField else x.fractionField + Nat.pow 2 52

/-- The power of two that goes with `significand`. -/
def exponent (x : Binary64) : Int :=
  if x.exponentField = 0 then -1074 else (x.exponentField : Int) - 1075

/-- Assembles a number from a sign and the lower 63 bits. -/
def ofParts (negative : Bool) (magnitude : Nat) : Binary64 :=
  ⟨(if negative then 0x8000000000000000 else 0) ||| magnitude.toUInt64⟩

/-- Positive infinity's lower 63 bits. -/
def infinityMagnitude : Nat := 0x7FF0000000000000

/-- The quotient of two naturals rounded to the nearest natural, a half to the even one. -/
def roundDiv (num den : Nat) : Nat :=
  let q := num / den
  let r := num % den
  if 2 * r < den then q
  else if den < 2 * r then q + 1
  else if q % 2 = 0 then q else q + 1

/-- The nearest multiple of `2 ^ e` to `num / den`, in units of `2 ^ e`. -/
def quantize (num den : Nat) (e : Int) : Nat :=
  if e < 0 then roundDiv (num * Nat.pow 2 (-e).toNat) den else roundDiv num (den * Nat.pow 2 e.toNat)

/-- The exponent at which `num / den` has 53 binary digits, never below that of the
    smallest positive number. -/
def quantumExponent (num den : Nat) : Int :=
  let guess : Int := (num.log2 : Int) - (den.log2 : Int) - 53
  -- the quotient has 53 or 54 digits at the guess
  let wide := if guess < 0 then num * Nat.pow 2 (-guess).toNat / den else num / (den * Nat.pow 2 guess.toNat)
  let e := if Nat.pow 2 53 ≤ wide then guess + 1 else guess
  max e (-1074)

/-- The number nearest to `num / den`, a half to the even one; beyond the range, infinity. -/
def ofRatio (negative : Bool) (num den : Nat) : Binary64 :=
  if num = 0 ∨ den = 0 then ofParts negative 0
  else
    let e := quantumExponent num den
    let m := quantize num den e
    -- a carry to 2 ^ 53 moves into the exponent field by itself
    let magnitude : Nat :=
      if m < Nat.pow 2 52 then m
      else ((e + 1074).toNat + 1) * Nat.pow 2 52 + (m - Nat.pow 2 52)
    ofParts negative (min magnitude infinityMagnitude)

/-- The number nearest to `mantissa * 10 ^ scale`; powers of ten far outside the range are
    settled by the place of the leading digit alone. -/
def ofDecimal (negative : Bool) (mantissa : Nat) (scale : Int) : Binary64 :=
  let lead : Int := (Nat.toDigits 10 mantissa).length + scale
  if mantissa = 0 ∨ lead < -330 then ofParts negative 0
  else if 310 < lead then ofParts negative infinityMagnitude
  else if scale < 0 then ofRatio negative mantissa (Nat.pow 10 (-scale).toNat)
  else ofRatio negative (mantissa * Nat.pow 10 scale.toNat) 1

/-- The number nearest to an integer. -/
def ofInt (n : Int) : Binary64 := ofRatio (n < 0) n.natAbs 1

/-- A finite number as an exact ratio. -/
def toRatio (x : Binary64) : Int × Nat :=
  let m : Int := if x.isNegative then -(x.significand : Int) else x.significand
  if x.exponent < 0 then (m, Nat.pow 2 (-x.exponent).toNat) else (m * Nat.pow 2 x.exponent.toNat, 1)

end Binary64

end Covenant.Number
