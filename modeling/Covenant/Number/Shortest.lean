import Covenant.Number.Binary64

/-! # Shortest decimal text of a number

    The text of a finite number has the fewest digits that read back as the
    same number, and of those the digits nearest to it.

    * `Decimal` is a significand of decimal digits with a power of ten.
    * `shortest` tries one digit, then two, up to seventeen; on each grid only
      the two neighbours of the value can read back.
    * `Layout` says how the digits are written. -/

namespace Covenant.Number

/-- The number `digits * 10 ^ scale`. -/
structure Decimal where
  digits : Nat
  scale : Int
  deriving DecidableEq

/-- Scales a ratio by a power of ten: `num / den / 10 ^ e` as a ratio. -/
def scaleRatio (num den : Nat) (e : Int) : Nat × Nat :=
  if e < 0 then (num * Nat.pow 10 (-e).toNat, den) else (num, den * Nat.pow 10 e.toNat)

/-- The least `t` with `den ≤ num * 10 ^ t`, up to a bound. -/
def tensBelow (num den : Nat) : Nat → Nat → Nat
  | 0, t => t
  | fuel + 1, t => if den ≤ num then t else tensBelow (num * 10) den fuel (t + 1)

/-- The power of ten of the leading digit of `num / den`. -/
def leadingPower (num den : Nat) : Int :=
  if den ≤ num then ((Nat.toDigits 10 (num / den)).length : Int) - 1
  else -(tensBelow num den 400 0 : Int)

/-- Twice-scaled comparison of a grid point with the ends of the interval that rounds to
    `m * 2 ^ q`: the ends belong to it exactly when `m` is even. -/
def readsBack (x : Binary64) (d : Nat) (e : Int) : Bool :=
  let m := x.significand
  let q := x.exponent
  -- the gap below a power of two is half the gap above it
  let narrow := x.fractionField = 0 ∧ 1 < x.exponentField
  let low : Nat := if narrow then 4 * m - 1 else 4 * m - 2
  let high : Nat := 4 * m + 2
  -- everything in units of `2 ^ (q - 2)`
  let u := q - 2
  let point := if e < 0 then d else d * Nat.pow 10 e.toNat
  let tens := if e < 0 then Nat.pow 10 (-e).toNat else 1
  let lhs := if u < 0 then point * Nat.pow 2 (-u).toNat else point
  let unit := (if u < 0 then 1 else Nat.pow 2 u.toNat) * tens
  let lo := low * unit
  let hi := high * unit
  if m % 2 = 0 then lo ≤ lhs && lhs ≤ hi else lo < lhs && lhs < hi

/-- On the grid of `10 ^ e`, the neighbour of the value that reads back, the nearer of two. -/
def gridHit (x : Binary64) (num den : Nat) (e : Int) : Option Decimal :=
  let (n, d) := scaleRatio num den e
  let below := n / d
  let r := n % d
  let hitBelow := below ≠ 0 ∧ readsBack x below e = true
  let hitAbove := readsBack x (below + 1) e = true
  let preferBelow := 2 * r < d ∨ (2 * r = d ∧ below % 2 = 0)
  if hitBelow ∧ (preferBelow ∨ ¬ hitAbove) then some ⟨below, e⟩
  else if hitAbove then some ⟨below + 1, e⟩
  else none

/-- Tries the grids from coarse to fine. -/
def shortestFrom (x : Binary64) (num den : Nat) (top : Int) : Nat → Nat → Decimal
  | 0, k =>
    let e := top - k
    let (n, d) := scaleRatio num den e
    ⟨Binary64.roundDiv n d, e⟩
  | fuel + 1, k =>
    match gridHit x num den (top - k) with
    | some r => r
    | none => shortestFrom x num den top fuel (k + 1)

/-- The shortest decimal that reads back as a positive finite number. -/
def shortest (x : Binary64) : Decimal :=
  let (n, den) := x.toRatio
  shortestFrom x n.natAbs den (leadingPower n.natAbs den) 17 0

/-- How the digits of a number are written. -/
structure Layout where
  /-- Powers of ten of the leading digit that are written positionally. -/
  positionalFrom : Int
  positionalBelow : Int
  /-- Whether a whole number keeps a point and a zero. -/
  keepsPoint : Bool
  /-- The least number of digits of the exponent. -/
  exponentDigits : Nat

/-- Removes trailing zeros of a digit string, keeping the scale right. -/
def trimZeros : Nat → Decimal → Decimal
  | 0, d => d
  | fuel + 1, d =>
    if d.digits ≠ 0 ∧ d.digits % 10 = 0 then trimZeros fuel ⟨d.digits / 10, d.scale + 1⟩ else d

/-- Writes the digits of a positive number. -/
def Layout.write (l : Layout) (d : Decimal) : String :=
  let d := trimZeros 400 d
  let ds := Nat.toDigits 10 d.digits
  let power : Int := d.scale + ds.length - 1
  if l.positionalFrom ≤ power ∧ power < l.positionalBelow then
    if power < 0 then
      "0." ++ String.ofList (List.replicate (-power - 1).toNat '0' ++ ds)
    else
      let whole := power.toNat + 1
      if ds.length ≤ whole then
        String.ofList (ds ++ List.replicate (whole - ds.length) '0')
          ++ (if l.keepsPoint then ".0" else "")
      else String.ofList (ds.take whole) ++ "." ++ String.ofList (ds.drop whole)
  else
    let mantissa := match ds with
      | [] => "0"
      | [c] => String.ofList [c]
      | c :: rest => String.ofList (c :: '.' :: rest)
    let e := Nat.toDigits 10 power.natAbs
    mantissa ++ "e" ++ (if power < 0 then "-" else "+")
      ++ String.ofList (List.replicate (l.exponentDigits - e.length) '0' ++ e)

/-- The layout of number values: positional from `1e-4` up to below `1e16`, a whole number
    keeps `.0`, an exponent has two digits at least. -/
def valueLayout : Layout := ⟨-4, 16, true, 2⟩

/-- The layout of an imaginary part differs only in that a whole number is written bare. -/
def imaginaryLayout : Layout := ⟨-4, 16, false, 2⟩

/-- The text of any number under a layout; the zero is written positionally. -/
def Layout.text (l : Layout) (x : Binary64) : String :=
  let sign := if x.isNegative then "-" else ""
  if x.isNaN then "nan"
  else if x.isInfinite then sign ++ "inf"
  else if x.isZero then sign ++ (if l.keepsPoint then "0.0" else "0")
  else sign ++ l.write (shortest x)

end Covenant.Number
