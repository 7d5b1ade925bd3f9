import Covenant.Tree.Expr

/-! # The value of a number literal -/

namespace Covenant.Grammar

open Number Covenant.Tree

/-- The value of a digit in any base up to sixteen. -/
def digitValue (c : Char) : Nat :=
  if c.isDigit then c.toNat - '0'.toNat
  else if 'a' ≤ c ∧ c ≤ 'f' then c.toNat - 'a'.toNat + 10
  else if 'A' ≤ c ∧ c ≤ 'F' then c.toNat - 'A'.toNat + 10
  else 0

/-- A natural number in a base. -/
def natOf (base : Nat) (cs : List Char) : Nat :=
  cs.foldl (fun n c => n * base + digitValue c) 0

/-- How many decimal digits a whole number may have. -/
def maxDecimalDigits : Nat := 4300

/-- A number with point or exponent: its digits and its power of ten. -/
def decimalOf (cs : List Char) : Nat × Int :=
  let (mantissa, expo) := cs.span fun c => c != 'e' && c != 'E'
  let (whole, fraction) := mantissa.span (· != '.')
  let digits := whole ++ fraction.drop 1
  let shift : Int := match expo.drop 1 with
    | '-' :: ds => -(natOf 10 ds : Int)
    | '+' :: ds => natOf 10 ds
    | ds => natOf 10 ds
  (natOf 10 digits, shift - (fraction.drop 1).length)

/-- The nearest number to a literal with point or exponent. -/
def floatOf (cs : List Char) : Binary64 :=
  let (m, s) := decimalOf cs
  Binary64.ofDecimal false m s

/-- The constant that a scanned number literal stands for; whole numbers beyond the limit
    on decimal digits are refused. -/
def numberConstant (text : List Char) : Option Constant :=
  let cs := text.filter (· != '_')
  let mark := (cs.drop 1).head?.map Char.toLower
  if cs.head? = some '0' ∧ mark = some 'x' then some (.int (natOf 16 (cs.drop 2)))
  else if cs.head? = some '0' ∧ mark = some 'o' then some (.int (natOf 8 (cs.drop 2)))
  else if cs.head? = some '0' ∧ mark = some 'b' then some (.int (natOf 2 (cs.drop 2)))
  else
    match cs.reverse with
    | 'j' :: rest | 'J' :: rest => some (.imaginary (floatOf rest.reverse))
    | _ =>
      if cs.all Char.isDigit then
        if cs.length ≤ maxDecimalDigits then some (.int (natOf 10 cs)) else none
      else some (.float (floatOf cs))

end Covenant.Grammar
