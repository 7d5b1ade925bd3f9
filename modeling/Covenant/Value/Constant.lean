import Covenant.Condition.Parse
import Covenant.Value.Datum

/-! # Literal values — expressions that are values by themselves

    A literal is built from constants, signs, brackets and the empty set; its
    value needs no evaluation.  A sum of a real and an imaginary number is a
    literal as well. -/

namespace Covenant.Value

open Number Text Covenant.Tree

/-- The value of a constant. -/
def Datum.ofConstant : Constant → Datum
  | .none => .none
  | .ellipsis => .ellipsis
  | .bool b => .bool b
  | .int n => .int n
  | .float x => .float x
  | .imaginary x => .complex ⟨0⟩ x
  | .str s _ => .str s
  | .bytes bs => .bytes bs

/-- The opposite of a number with the sign bit flipped. -/
def negated (x : Binary64) : Binary64 := ⟨x.bits ^^^ 0x8000000000000000⟩

/-- A number under a sign. -/
def Datum.signed (minus : Bool) : Datum → Option Datum
  | .int n => some (.int (if minus then -n else n))
  | .float x => some (.float (if minus then negated x else x))
  | .complex re im => some (if minus then .complex (negated re) (negated im) else .complex re im)
  | _ => Option.none

/-- A real or complex number written as a constant. -/
def number? : Expr → Option Datum
  | .constant _ c =>
    match Datum.ofConstant c with
    | .int n => some (.int n)
    | .float x => some (.float x)
    | .complex re im => some (.complex re im)
    | _ => none
  | _ => none

/-- A number that may have a sign. -/
def signedNumber? : Expr → Option Datum
  | .compound _ (.unaryOp .plus) [e] => (number? e).bind (Datum.signed false)
  | .compound _ (.unaryOp .minus) [e] => (number? e).bind (Datum.signed true)
  | e => number? e

/-- The floating number nearest to a real one. -/
def Datum.toBinary64? : Datum → Option Binary64
  | .int n => some (Binary64.ofInt n)
  | .float x => some x
  | _ => Option.none

/-- A real number plus or minus an imaginary one. -/
def Datum.joined (minus : Bool) (real : Datum) (re im : Binary64) : Option Datum := do
  let r := (← real.toBinary64?).toFloat
  let zero := re.toFloat
  some (.complex (Binary64.ofFloat (if minus then r - zero else r + zero))
    (Binary64.ofFloat (if minus then 0.0 - im.toFloat else 0.0 + im.toFloat)))

/-- A mapping from keys and values in order; every key has to be fit for one. -/
def mappingOf? : List Datum → List Datum → List (Datum × Datum) → Option Datum
  | [], [], seen => some (.dict seen)
  | k :: ks, v :: vs, seen => if k.isKey then mappingOf? ks vs (Datum.setItem seen k v) else none
  | _, _, _ => none

/-- A set of values, all of them fit for one. -/
def setOf? (items : List Datum) : Option Datum :=
  if Datum.areKeys items then some (.set (items.foldl Datum.addItem [])) else none

mutual

/-- The value of a literal; `none` for any other expression. -/
def literal? : Expr → Option Datum
  | .constant _ c => some (Datum.ofConstant c)
  | .compound _ (.tuple _) ps => (literals? ps).map .tuple
  | .compound _ (.list _) ps => (literals? ps).map .list
  | .compound _ .set ps => (literals? ps).bind setOf?
  | .compound _ (.dict keyed) ps =>
    if keyed.all id then do
      let items ← literals? ps
      mappingOf? (items.take keyed.length) (items.drop keyed.length) []
    else none
  | .call _ (.name _ "set" _) [] [] => some (.set [])
  | .compound _ (.binOp .add) [l, r] => sum? false l r
  | .compound _ (.binOp .sub) [l, r] => sum? true l r
  | .compound _ (.unaryOp .plus) [e] => (number? e).bind (Datum.signed false)
  | .compound _ (.unaryOp .minus) [e] => (number? e).bind (Datum.signed true)
  | _ => none

/-- The values of several literals. -/
def literals? : List Expr → Option (List Datum)
  | [] => some []
  | e :: es => do
    let d ← literal? e
    let ds ← literals? es
    some (d :: ds)

/-- A sum whose left operand is real and whose right one is complex. -/
def sum? (minus : Bool) (l r : Expr) : Option Datum :=
  match signedNumber? l, number? r with
  | some real, some (.complex re im) =>
    match real with
    | .complex .. => none
    | real => real.joined minus re im
  | _, _ => none

end

/-- The value a text spells, blanks and tabs before it aside. -/
def readLiteral? (text : String) : Option Datum := do
  let inside := text.toList.dropWhile fun c => c = ' ' || c = '\t'
  let e ← Grammar.readExpression? inside
  literal? e

/-! ## Numbers from their texts -/

/-- The number a sequence of digits stands for. -/
def numberOf (ds : List Char) : Nat := ds.foldl (fun n c => n * 10 + (c.toNat - '0'.toNat)) 0

/-- A whole number with an optional sign. -/
def wholeNumber? : List Char → Option Int
  | '-' :: ds => if !ds.isEmpty && ds.all Char.isDigit then some (-(numberOf ds : Int)) else none
  | '+' :: ds => if !ds.isEmpty && ds.all Char.isDigit then some (numberOf ds) else none
  | ds => if !ds.isEmpty && ds.all Char.isDigit then some (numberOf ds) else none

/-- A decimal number with the digits of a text. -/
def decimal? (text : String) : Option Datum := do
  let (negative, body) := match text.toList with
    | '-' :: cs => (true, cs)
    | '+' :: cs => (false, cs)
    | cs => (false, cs)
  let mantissa := body.takeWhile fun c => c != 'e' && c != 'E'
  let power ← match body.drop mantissa.length with
    | [] => some 0
    | _ :: cs => wholeNumber? cs
  let whole := mantissa.takeWhile (· != '.')
  let places := mantissa.drop (whole.length + 1)
  let digits := whole ++ places
  if digits.isEmpty || !digits.all Char.isDigit then none
  else
    let significant := digits.dropWhile (· == '0')
    some (.decimal negative (numberOf digits) (max 1 significant.length)
      (power - places.length))

/-- A fraction in lowest terms. -/
def fraction? (text : String) : Option Datum := do
  let cs := text.toList
  let top := cs.takeWhile (· != '/')
  let num ← wholeNumber? top
  let den ← match cs.drop top.length with
    | [] => some 1
    | _ :: ds => wholeNumber? ds
  if den ≤ 0 then none
  else
    let g := Nat.gcd num.natAbs den.natAbs
    some (.fraction (num / g) (den.natAbs / g))

/-- A floating number in any of its texts. -/
def float? (text : String) : Option Binary64 :=
  match text with
  | "nan" => some ⟨0x7FF8000000000000⟩
  | "inf" => some ⟨0x7FF0000000000000⟩
  | "-inf" => some ⟨0xFFF0000000000000⟩
  | _ => (readLiteral? text).bind Datum.toBinary64?

/-- A complex number in any of its texts. -/
def complex? (text : String) : Option Datum :=
  match readLiteral? text with
  | some (.complex re im) => some (.complex re im)
  | some d => d.toBinary64?.map fun x => .complex x ⟨0⟩
  | none => none

end Covenant.Value
