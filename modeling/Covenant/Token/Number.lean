import Covenant.Text.Identifier

/-! # Number literals — where one ends

    Scanning a number is a run over its characters that either finds the end
    of the literal or rejects the text.  Each scanner returns the characters
    it took and what follows them. -/

namespace Covenant.Token

open Text

/-- The characters taken, and the rest. -/
abbrev Cut := List Char × List Char

/-- Puts one more character in front of what was taken. -/
def Cut.push (c : Char) (t : Cut) : Cut := (c :: t.1, t.2)

/-- Puts several characters in front of what was taken. -/
def Cut.pushAll (cs : List Char) (t : Cut) : Cut := (cs ++ t.1, t.2)

/-- A digit of the given base. -/
def isDigitOf (base : Nat) (c : Char) : Bool :=
  if base = 16 then c.isDigit || ('a' ≤ c && c ≤ 'f') || ('A' ≤ c && c ≤ 'F')
  else c.isDigit && c.toNat - '0'.toNat < base

/-- Digits with single underscores between them; the flag says whether the last character
    taken was a digit.  Anything after an underscore but a digit is rejected. -/
def digitRun (base : Nat) : Bool → List Char → Option Cut
  | _, [] => some ([], [])
  | afterDigit, c :: rest =>
    if isDigitOf base c then (digitRun base true rest).map (Cut.push c)
    else if c = '_' ∧ afterDigit = true then
      match rest with
      | d :: _ => if isDigitOf base d then (digitRun base false rest).map (Cut.push c) else none
      | [] => none
    else some ([], c :: rest)

/-- Whether one of the words that may follow a number directly starts here. -/
def startsFollower (cs : List Char) : Bool :=
  ["and", "else", "for", "if", "in", "is", "or", "not"].any fun w => w.toList.isPrefixOf cs

/-- A literal ends before a character that cannot continue a name, or before one of the
    words that may follow. -/
def endsHere (t : Cut) : Option Cut :=
  match t.2 with
  | [] => some t
  | c :: _ => if startsFollower t.2 || !mayContinueName c then some t else none

/-- After the digits: an imaginary mark or the end. -/
def imaginaryTail (t : Cut) : Option Cut :=
  match t.2 with
  | c :: rest =>
    if c = 'j' ∨ c = 'J' then (endsHere ([], rest)).map (Cut.pushAll (t.1 ++ [c])) else endsHere t
  | [] => some t

/-- After the fraction: an exponent, if one is written, and the end. -/
def exponentTail (t : Cut) : Option Cut :=
  match t.2 with
  | e :: rest =>
    if e = 'e' ∨ e = 'E' then
      match rest with
      | s :: d :: more =>
        if (s = '+' ∨ s = '-') then
          if d.isDigit then
            (digitRun 10 false (d :: more)).bind fun u =>
              imaginaryTail (t.1 ++ e :: s :: u.1, u.2)
          else none
        else if s.isDigit then
          (digitRun 10 false rest).bind fun u => imaginaryTail (t.1 ++ e :: u.1, u.2)
        else endsHere t
      | [s] =>
        if s.isDigit then imaginaryTail (t.1 ++ [e, s], [])
        else if s = '+' ∨ s = '-' then none
        else endsHere t
      | [] => endsHere t
    else imaginaryTail t
  | [] => some t

/-- After a point: digits, if there are any, and the exponent. -/
def fractionTail (t : Cut) : Option Cut :=
  match t.2 with
  | c :: _ =>
    if c.isDigit then (digitRun 10 false t.2).bind fun u => exponentTail (t.1 ++ u.1, u.2)
    else exponentTail t
  | [] => some t

/-- After the whole digits: a fraction, an exponent or the end. -/
def decimalTail (t : Cut) : Option Cut :=
  match t.2 with
  | '.' :: rest => fractionTail (t.1 ++ ['.'], rest)
  | _ => exponentTail t

/-- A literal with a base mark; an underscore may stand between mark and digits. -/
def basedNumber (base : Nat) (mark : List Char) (cs : List Char) : Option Cut :=
  let started : Option Cut := match cs with
    | '_' :: d :: _ => if isDigitOf base d then digitRun base true cs else none
    | d :: _ => if isDigitOf base d then digitRun base false cs else none
    | [] => none
  started.bind fun t =>
    match t.2 with
    -- a decimal digit too large for the base
    | c :: _ => if c.isDigit then none else (endsHere t).map (Cut.pushAll mark)
    | [] => some (mark ++ t.1, [])

/-- Whether all digits of the characters are zeros. -/
def allZeros (cs : List Char) : Bool := cs.all fun c => c = '0' || c = '_'

/-- Whether the characters form a whole number so far. -/
def isWhole (cs : List Char) : Bool := cs.all fun c => c.isDigit || c = '_'

/-- A number literal at the start of the characters, which is a digit or a point before a
    digit.  A whole number other than zero does not start with zero. -/
def scanNumber : List Char → Option Cut
  | '0' :: c :: rest =>
    if c = 'x' ∨ c = 'X' then basedNumber 16 ['0', c] rest
    else if c = 'o' ∨ c = 'O' then basedNumber 8 ['0', c] rest
    else if c = 'b' ∨ c = 'B' then basedNumber 2 ['0', c] rest
    else
      (digitRun 10 false ('0' :: c :: rest)).bind fun t =>
        (decimalTail t).bind fun u =>
          if isWhole u.1 ∧ ¬ allZeros u.1 then none else some u
  | '.' :: rest => fractionTail (['.'], rest)
  | cs => (digitRun 10 false cs).bind decimalTail

end Covenant.Token
