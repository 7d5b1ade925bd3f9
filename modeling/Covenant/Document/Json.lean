import Covenant.Number.Shortest
import Covenant.Text.Quoted

/-! # JSON documents

    Documents keep the order of the keys of an object.  The reader takes what
    is common in practice: besides the standard it knows `NaN` and the
    infinities, and of two equal keys the last one gives the value. -/

namespace Covenant.Document

open Number Text

/-- A JSON value. -/
inductive Json where
  | null
  | bool (b : Bool)
  | int (n : Int)
  | float (x : Binary64)
  | str (s : String)
  | arr (items : List Json)
  | obj (fields : List (String × Json))

instance : Inhabited Json := ⟨.null⟩

namespace Json

/-- The value of a key of an object. -/
def get? (key : String) : Json → Option Json
  | .obj fields => fields.lookup key
  | _ => none

/-- Sets a key to a value; a new key comes last. -/
def setField (fields : List (String × Json)) (key : String) (value : Json) :
    List (String × Json) :=
  if fields.any (·.1 == key) then fields.map fun p => if p.1 == key then (key, value) else p
  else fields ++ [(key, value)]

/-- A text or null. -/
def ofOption : Option String → Json
  | some s => .str s
  | none => .null

/-- An array of texts. -/
def ofTexts (ts : List String) : Json := .arr (ts.map .str)

/-! ## Writing -/

/-- A character inside a string, where all but printable ASCII may be escaped. -/
def escapeChar (asciiOnly : Bool) (c : Char) : List Char :=
  if c = '"' then ['\\', '"']
  else if c = '\\' then ['\\', '\\']
  else if c = '\n' then ['\\', 'n']
  else if c = '\r' then ['\\', 'r']
  else if c = '\t' then ['\\', 't']
  else if c = '\x08' then ['\\', 'b']
  else if c = '\x0c' then ['\\', 'f']
  else if c.toNat < 32 then '\\' :: 'u' :: hexDigits 4 c.toNat
  else if asciiOnly && 127 ≤ c.toNat then
    if c.toNat < 0x10000 then '\\' :: 'u' :: hexDigits 4 c.toNat
    else
      -- beyond sixteen bits: two halves
      let n := c.toNat - 0x10000
      '\\' :: 'u' :: hexDigits 4 (0xD800 + n / 0x400)
        ++ '\\' :: 'u' :: hexDigits 4 (0xDC00 + n % 0x400)
  else [c]

/-- A string with its quotes. -/
def stringText (asciiOnly : Bool) (s : String) : String :=
  String.ofList ('"' :: s.toList.flatMap (escapeChar asciiOnly) ++ ['"'])

/-- A number with a point or an exponent. -/
def floatText (x : Binary64) : String :=
  if x.isNaN then "NaN"
  else if x.isInfinite then (if x.isNegative then "-Infinity" else "Infinity")
  else valueLayout.text x

mutual

/-- The text of a value without blanks. -/
def compactWith (asciiOnly : Bool) : Json → String
  | .null => "null"
  | .bool b => if b then "true" else "false"
  | .int n => toString n
  | .float x => floatText x
  | .str s => stringText asciiOnly s
  | .arr items => "[" ++ ",".intercalate (compactAll asciiOnly items) ++ "]"
  | .obj fields => "\x7b" ++ ",".intercalate (compactFields asciiOnly fields) ++ "\x7d"

/-- The texts of several values. -/
def compactAll (asciiOnly : Bool) : List Json → List String
  | [] => []
  | j :: js => j.compactWith asciiOnly :: compactAll asciiOnly js

/-- The texts of the fields of an object. -/
def compactFields (asciiOnly : Bool) : List (String × Json) → List String
  | [] => []
  | (k, v) :: fs =>
    (stringText asciiOnly k ++ ":" ++ v.compactWith asciiOnly) :: compactFields asciiOnly fs

end

/-- The text of a value without blanks, characters as they are. -/
def compact (j : Json) : String := j.compactWith false

mutual

/-- The text of a value over several lines, indented by two blanks a level. -/
def pretty (level : Nat) : Json → String
  | .arr [] => "[]"
  | .obj [] => "\x7b\x7d"
  | .arr items =>
    let pad := String.ofList (List.replicate (2 * level + 2) ' ')
    "[\n" ++ ",\n".intercalate ((prettyAll (level + 1) items).map (pad ++ ·)) ++ "\n"
      ++ String.ofList (List.replicate (2 * level) ' ') ++ "]"
  | .obj fields =>
    let pad := String.ofList (List.replicate (2 * level + 2) ' ')
    "\x7b\n" ++ ",\n".intercalate ((prettyFields (level + 1) fields).map (pad ++ ·)) ++ "\n"
      ++ String.ofList (List.replicate (2 * level) ' ') ++ "\x7d"
  | .null => "null"
  | .bool b => if b then "true" else "false"
  | .int n => toString n
  | .float x => floatText x
  | .str s => stringText true s

/-- The texts of several values. -/
def prettyAll (level : Nat) : List Json → List String
  | [] => []
  | j :: js => j.pretty level :: prettyAll level js

/-- The texts of the fields of an object. -/
def prettyFields (level : Nat) : List (String × Json) → List String
  | [] => []
  | (k, v) :: fs => (stringText true k ++ ": " ++ v.pretty level) :: prettyFields level fs

end

/-! ## Reading -/

/-- The blanks between the parts of a document. -/
def isGap (c : Char) : Bool := c = ' ' || c = '\n' || c = '\r' || c = '\t'

/-- Drops blanks. -/
def skipGap (cs : List Char) : List Char := cs.dropWhile isGap

/-- The character of one letter behind a backslash. -/
def letterEscape : Char → Option Char
  | '"' => some '"'
  | '\\' => some '\\'
  | '/' => some '/'
  | 'b' => some '\x08'
  | 'f' => some '\x0c'
  | 'n' => some '\n'
  | 'r' => some '\r'
  | 't' => some '\t'
  | _ => none

/-- The inside of a string up to its quote; two halves of a pair are one character. -/
def readString : Nat → List Char → Option (List Char × List Char)
  | 0, _ => none
  | _ + 1, [] => none
  | _ + 1, '"' :: rest => some ([], rest)
  | fuel + 1, '\\' :: 'u' :: rest => do
    let (n, more) ← readHex 4 0 rest
    let pair : Option (Nat × List Char) :=
      if 0xD800 ≤ n ∧ n < 0xDC00 then
        match more with
        | '\\' :: 'u' :: low =>
          match readHex 4 0 low with
          | some (m, after) =>
            if 0xDC00 ≤ m ∧ m < 0xE000 then
              some (0x10000 + (n - 0xD800) * 0x400 + (m - 0xDC00), after)
            else none
          | none => none
        | _ => none
      else none
    let (n, more) := pair.getD (n, more)
    let (cs, rest) ← readString fuel more
    some (charOf n :: cs, rest)
  | fuel + 1, '\\' :: c :: rest => do
    let d ← letterEscape c
    let (cs, rest) ← readString fuel rest
    some (d :: cs, rest)
  | fuel + 1, c :: rest =>
    if c.toNat < 32 then none
    else (readString fuel rest).map fun r => (c :: r.1, r.2)

/-- A natural number from digits. -/
def natOfDigits (cs : List Char) : Nat :=
  cs.foldl (fun n c => n * 10 + (c.toNat - '0'.toNat)) 0

/-- The digits behind an exponent mark. -/
def readExponent : List Char → Option (Int × List Char)
  | e :: rest =>
    if e = 'e' ∨ e = 'E' then
      let (negative, digits) := match rest with
        | '-' :: ds => (true, ds)
        | '+' :: ds => (false, ds)
        | ds => (false, ds)
      let taken := digits.takeWhile Char.isDigit
      if taken.isEmpty then none
      else
        let n : Int := natOfDigits taken
        some (if negative then -n else n, digits.drop taken.length)
    else none
  | [] => none

/-- The digits in front of a point; a zero at the front stands alone. -/
def wholeDigits : List Char → List Char
  | '0' :: _ => ['0']
  | cs => cs.takeWhile Char.isDigit

/-- The digits behind a point. -/
def fractionDigits : List Char → List Char
  | '.' :: ds => ds.takeWhile Char.isDigit
  | _ => []

/-- A number behind its sign; with a point or an exponent it is a floating one. -/
def readUnsigned (negative : Bool) (cs : List Char) : Option (Json × List Char) :=
  let whole := wholeDigits cs
  if whole.isEmpty then none
  else
    let rest := cs.drop whole.length
    let fraction := fractionDigits rest
    let rest := if fraction.isEmpty then rest else rest.drop (fraction.length + 1)
    match readExponent rest with
    | some (e, rest) =>
      some (.float (Binary64.ofDecimal negative (natOfDigits (whole ++ fraction))
        (e - fraction.length)), rest)
    | none =>
      if fraction.isEmpty then
        let n : Int := natOfDigits whole
        some (.int (if negative then -n else n), rest)
      else
        some (.float (Binary64.ofDecimal negative (natOfDigits (whole ++ fraction))
          (-fraction.length)), rest)

/-- A number with or without a sign. -/
def readNumber : List Char → Option (Json × List Char)
  | '-' :: rest => readUnsigned true rest
  | cs => readUnsigned false cs

/-- The words that are values. -/
def words : List (String × Json) :=
  [("null", .null), ("true", .bool true), ("false", .bool false),
   ("NaN", .float ⟨0x7FF8000000000000⟩),
   ("Infinity", .float ⟨0x7FF0000000000000⟩), ("-Infinity", .float ⟨0xFFF0000000000000⟩)]

mutual

/-- A value, and what follows it. -/
def readValue : Nat → List Char → Option (Json × List Char)
  | 0, _ => none
  | _ + 1, [] => none
  | _ + 1, '"' :: rest => (readString (rest.length + 1) rest).map fun r =>
      (.str (String.ofList r.1), r.2)
  | fuel + 1, '[' :: rest =>
    match skipGap rest with
    | ']' :: more => some (.arr [], more)
    | more => (readItems fuel more).map fun r => (.arr r.1, r.2)
  | fuel + 1, '{' :: rest =>
    match skipGap rest with
    | '}' :: more => some (.obj [], more)
    | more => (readFields fuel [] more).map fun r => (.obj r.1, r.2)
  | _ + 1, cs =>
    match words.find? fun w => w.1.toList.isPrefixOf cs with
    | some (w, v) => some (v, cs.drop w.length)
    | none => readNumber cs

/-- The items of an array up to its bracket. -/
def readItems : Nat → List Char → Option (List Json × List Char)
  | 0, _ => none
  | fuel + 1, cs => do
    let (v, rest) ← readValue fuel cs
    match skipGap rest with
    | ']' :: more => some ([v], more)
    | ',' :: more => (readItems fuel (skipGap more)).map fun r => (v :: r.1, r.2)
    | _ => none

/-- The fields of an object up to its bracket, behind those read before. -/
def readFields : Nat → List (String × Json) → List Char →
    Option (List (String × Json) × List Char)
  | 0, _, _ => none
  | fuel + 1, seen, '"' :: cs => do
    let (k, rest) ← readString (cs.length + 1) cs
    match skipGap rest with
    | ':' :: more =>
      let (v, rest) ← readValue fuel (skipGap more)
      let seen := setField seen (String.ofList k) v
      match skipGap rest with
      | '}' :: more => some (seen, more)
      | ',' :: more => readFields fuel seen (skipGap more)
      | _ => none
    | _ => none
  | _ + 1, _, _ => none

end

/-- The value a whole text stands for. -/
def parse? (text : String) : Option Json := do
  let cs := text.toList
  let (v, rest) ← readValue (2 * cs.length + 2) (skipGap cs)
  if (skipGap rest).isEmpty then some v else none

end Json

end Covenant.Document
