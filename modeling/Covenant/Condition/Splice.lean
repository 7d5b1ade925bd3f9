import Covenant.Tree.Span

/-! # Splicing — replacing spans of a text

    Edits are applied from left to right over the UTF-8 bytes of the text.  A
    place is found through the table of line starts, where only a line feed
    starts a new line. -/

namespace Covenant.Condition

open Covenant.Tree

/-- A span to be replaced by a text. -/
structure Edit where
  span : Span
  text : String
  deriving DecidableEq, Repr

/-- Why edits cannot be applied. -/
inductive SpliceFault where
  /-- A line that the text does not have. -/
  | noSuchLine
  /-- The result is cut inside a character. -/
  | brokenCharacter
  deriving DecidableEq, Repr

/-- The offsets at which lines start. -/
def lineStarts (bytes : List UInt8) : List Nat :=
  0 :: (bytes.zipIdx.filter (fun p => p.1 = 10)).map (·.2 + 1)

/-- The offset of a place.  Line zero counts from the end: it is the last line. -/
def offset? (starts : List Nat) (p : Pos) : Option Nat :=
  if p.line = 0 then starts.getLast?.map (· + p.col)
  else starts[p.line - 1]?.map (· + p.col)

/-- Inserts an edit behind all that do not start after it. -/
def insertEdit (e : Edit) : List Edit → List Edit
  | [] => [e]
  | x :: xs => if e.span.start.before x.span.start then e :: x :: xs else x :: insertEdit e xs

/-- Edits by their starts; those that start at one place keep their order. -/
def sortEdits (es : List Edit) : List Edit :=
  es.foldl (fun acc e => insertEdit e acc) []

/-- The bytes from one offset up to another, none if the second is not after the first. -/
def slice (bytes : List UInt8) (start stop : Nat) : List UInt8 :=
  (bytes.drop start).take (stop - start)

/-- The pieces of the result behind an offset. -/
def spliceFrom (bytes : List UInt8) (starts : List Nat) :
    Nat → List Edit → Except SpliceFault (List UInt8)
  | cursor, [] => .ok (bytes.drop cursor)
  | cursor, e :: es =>
    match offset? starts e.span.start, offset? starts e.span.stop with
    | some start, some stop =>
      (spliceFrom bytes starts stop es).map fun rest =>
        slice bytes cursor start ++ e.text.toUTF8.toList ++ rest
    | _, _ => .error .noSuchLine

/-- The text with every edited span replaced. -/
def splice (source : String) (edits : List Edit) : Except SpliceFault String := do
  let bytes := source.toUTF8.toList
  let result ← spliceFrom bytes (lineStarts bytes) 0 (sortEdits edits)
  match String.fromUTF8? (ByteArray.mk result.toArray) with
  | some s => .ok s
  | none => .error .brokenCharacter

end Covenant.Condition
