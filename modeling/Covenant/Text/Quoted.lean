import Covenant.Text.Printable

/-! # Quoted text — a text as a literal, and a literal read back

    Writing puts a text between quotes: single ones, unless the text holds a
    single quote and no double one.  Reading undoes the escapes of the inside
    of a literal; it knows more escapes than writing uses. -/

namespace Covenant.Text

/-! ## Writing -/

/-- A hexadecimal digit. -/
def hexDigit (n : Nat) : Char :=
  if n < 10 then Char.ofNat ('0'.toNat + n) else Char.ofNat ('a'.toNat + n - 10)

/-- The last `width` hexadecimal digits of a number. -/
def hexDigits : Nat → Nat → List Char
  | 0, _ => []
  | width + 1, n => hexDigits width (n / 16) ++ [hexDigit (n % 16)]

/-- The quote around a text. -/
def quoteFor (hasSingle hasDouble : Bool) : Char :=
  if hasSingle && !hasDouble then '"' else '\''

/-- An escape for a character that is not shown as itself. -/
def numericEscape (n : Nat) : List Char :=
  if n < 0x100 then '\\' :: 'x' :: hexDigits 2 n
  else if n < 0x10000 then '\\' :: 'u' :: hexDigits 4 n
  else '\\' :: 'U' :: hexDigits 8 n

/-- A character inside quotes. -/
def encodeChar (quote c : Char) : List Char :=
  if c = quote ∨ c = '\\' then ['\\', c]
  else if c = '\t' then ['\\', 't']
  else if c = '\n' then ['\\', 'n']
  else if c = '\r' then ['\\', 'r']
  else if isPrintable c then [c]
  else numericEscape c.toNat

/-- A text as a literal. -/
def quote (s : String) : String :=
  let cs := s.toList
  let q := quoteFor (cs.contains '\'') (cs.contains '"')
  String.ofList (q :: cs.flatMap (encodeChar q) ++ [q])

/-- A byte inside quotes. -/
def encodeByte (quote : Char) (b : UInt8) : List Char :=
  let c := Char.ofNat b.toNat
  if c = quote ∨ c = '\\' then ['\\', c]
  else if c = '\t' then ['\\', 't']
  else if c = '\n' then ['\\', 'n']
  else if c = '\r' then ['\\', 'r']
  else if 32 ≤ b.toNat ∧ b.toNat < 127 then [c]
  else '\\' :: 'x' :: hexDigits 2 b.toNat

/-- Bytes as a literal. -/
def quoteBytes (bs : List UInt8) : String :=
  let q := quoteFor (bs.contains 39) (bs.contains 34)
  String.ofList ('b' :: q :: bs.flatMap (encodeByte q) ++ [q])

/-! ## Reading -/

/-- The value of a hexadecimal digit. -/
def hexValue (c : Char) : Option Nat :=
  if '0' ≤ c ∧ c ≤ '9' then some (c.toNat - '0'.toNat)
  else if 'a' ≤ c ∧ c ≤ 'f' then some (c.toNat - 'a'.toNat + 10)
  else if 'A' ≤ c ∧ c ≤ 'F' then some (c.toNat - 'A'.toNat + 10)
  else none

/-- Exactly `width` hexadecimal digits, and what follows them. -/
def readHex : Nat → Nat → List Char → Option (Nat × List Char)
  | 0, acc, cs => some (acc, cs)
  | _ + 1, _, [] => none
  | width + 1, acc, c :: cs => (hexValue c).bind fun d => readHex width (acc * 16 + d) cs

/-- Up to `width` octal digits, and what follows them. -/
def readOctal : Nat → Nat → List Char → Nat × List Char
  | 0, acc, cs => (acc, cs)
  | _ + 1, acc, [] => (acc, [])
  | width + 1, acc, c :: cs =>
    if '0' ≤ c ∧ c ≤ '7' then readOctal width (acc * 8 + (c.toNat - '0'.toNat)) cs
    else (acc, c :: cs)

/-- A code point, with the replacement character where there is none. -/
def charOf (n : Nat) : Char := if n.isValidChar then Char.ofNat n else '\uFFFD'

/-- The characters that an escape of one letter stands for. -/
def simpleEscape : Char → Option Char
  | '\\' => some '\\'
  | '\'' => some '\''
  | '"' => some '"'
  | 'a' => some '\x07'
  | 'b' => some '\x08'
  | 'f' => some '\x0c'
  | 'n' => some '\n'
  | 'r' => some '\r'
  | 't' => some '\t'
  | 'v' => some '\x0b'
  | _ => none

/-- Whether escapes of Unicode code points are known: in text they are, in bytes not. -/
inductive Alphabet where
  | text | bytes
  deriving DecidableEq

/-- The inside of a literal with its escapes undone, as code points; an escape that is not
    known stays as it is.  One that is broken rejects the literal, and so does one that names
    its character, since names of characters are not known here. -/
def unescape (alphabet : Alphabet) : Nat → List Char → Option (List Nat)
  | 0, _ => none
  | _ + 1, [] => some []
  | fuel + 1, '\\' :: c :: rest =>
    match simpleEscape c with
    | some d => (unescape alphabet fuel rest).map (d.toNat :: ·)
    | none =>
      if c = '\n' then unescape alphabet fuel rest
      else if c = 'N' ∧ alphabet = .text then none
      else if '0' ≤ c ∧ c ≤ '7' then
        let (n, more) := readOctal 3 0 (c :: rest)
        let n := if alphabet = .bytes then n % 256 else n
        (unescape alphabet fuel more).map (n :: ·)
      else
        let width := if c = 'x' then 2
          else if alphabet = .bytes then 0
          else if c = 'u' then 4
          else if c = 'U' then 8
          else 0
        if width = 0 then (unescape alphabet fuel rest).map fun ns => 92 :: c.toNat :: ns
        else (readHex width 0 rest).bind fun (n, more) =>
          if n < 0x110000 then (unescape alphabet fuel more).map (n :: ·) else none
  | fuel + 1, c :: rest => (unescape alphabet fuel rest).map (c.toNat :: ·)

/-- The text that the inside of a text literal stands for. -/
def readText (cs : List Char) : Option (List Char) :=
  (unescape .text (cs.length + 1) cs).map (·.map charOf)

/-- The bytes that the inside of a bytes literal stands for. -/
def readBytes (cs : List Char) : Option (List UInt8) :=
  if cs.all (·.toNat < 128) then
    (unescape .bytes (cs.length + 1) cs).map (·.map Nat.toUInt8)
  else none

end Covenant.Text
