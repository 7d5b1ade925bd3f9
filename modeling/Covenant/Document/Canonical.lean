import Covenant.Document.Json
import Covenant.Value.Datum

/-! # Canonical documents — equal data, equal text

    The canonical text of a document has no blanks, only ASCII characters and
    the keys of every object in ascending order, so that the order in which
    keys were inserted leaves no trace.

    * `Json.sorted` puts the keys of a document in order at every level.
    * `arranged?` makes such a document from any value.  Keys that are numbers
      or truth values are spelled out; keys of different kinds have no order,
      and other keys no text.  What is no document is represented by its
      spelling. -/

namespace Covenant.Document

open Number Value

/-! ## Documents -/

/-- Inserts a field before the first one with a greater key. -/
def insertField (key : String) (value : Json) : List (String × Json) → List (String × Json)
  | [] => [(key, value)]
  | (k, v) :: rest =>
    if key < k then (key, value) :: (k, v) :: rest else (k, v) :: insertField key value rest

mutual

/-- The document with all keys in ascending order. -/
def Json.sorted : Json → Json
  | .arr items => .arr (sortedAll items)
  | .obj fields => .obj (sortedFields fields)
  | j => j

/-- Sorts several documents. -/
def sortedAll : List Json → List Json
  | [] => []
  | j :: js => j.sorted :: sortedAll js

/-- Sorts fields and the documents in them. -/
def sortedFields : List (String × Json) → List (String × Json)
  | [] => []
  | (k, v) :: fs => insertField k v.sorted (sortedFields fs)

end

/-- The canonical text of a document. -/
def canonicalText (j : Json) : String := j.sorted.compactWith true

/-! ## Values -/

/-- The text of a key; `none` if it cannot be one. -/
def keyText : Datum → Option String
  | .str s => some s
  | .bool b => some (if b then "true" else "false")
  | .none => some "null"
  | .int n => some (toString n)
  | .float x => some (Json.floatText x)
  | _ => none

/-- Whether a key comes before another; `none` if their kinds have no common order. -/
def keyBefore (a b : Datum) : Option Bool :=
  match a, b with
  | .str s, .str t => some (s < t)
  | a, b =>
    match a.ratio?, b.ratio? with
    | some x, some y => some (x.1 * y.2 < y.1 * x.2)
    | _, _ =>
      match a, b with
      | .float x, .int _ | .float x, .bool _ => some (x.isInfinite && x.isNegative)
      | .int _, .float y | .bool _, .float y => some (y.isInfinite && !y.isNegative)
      | .float x, .float y => some (x.toFloat < y.toFloat)
      | _, _ => none

/-- Inserts an item before the first one with a greater key. -/
def insertItem {α : Type} (key : Datum) (value : α) :
    List (Datum × α) → Option (List (Datum × α))
  | [] => some [(key, value)]
  | (k, v) :: rest => do
    if ← keyBefore key k then some ((key, value) :: (k, v) :: rest)
    else (insertItem key value rest).map ((k, v) :: ·)

/-- The fields for items that are in order. -/
def fieldsOf? : List (Datum × Json) → Option (List (String × Json))
  | [] => some []
  | (k, v) :: rest => do
    let key ← keyText k
    let fields ← fieldsOf? rest
    some ((key, v) :: fields)

mutual

/-- The document of a value, with all keys in ascending order. -/
def arranged? : Datum → Option Json
  | .none => some .null
  | .bool b => some (.bool b)
  | .int n => some (.int n)
  | .float x => some (.float x)
  | .str s => some (.str s)
  | .list items => (arrangedAll? items).map .arr
  | .tuple items => (arrangedAll? items).map .arr
  | .dict items => do
    let sorted ← arrangedItems? items
    (fieldsOf? sorted).map .obj
  | d => some (.str d.spell)

/-- The documents of several values. -/
def arrangedAll? : List Datum → Option (List Json)
  | [] => some []
  | d :: ds => do
    let j ← arranged? d
    let js ← arrangedAll? ds
    some (j :: js)

/-- The documents of items, ordered by their keys. -/
def arrangedItems? : List (Datum × Datum) → Option (List (Datum × Json))
  | [] => some []
  | (k, v) :: rest => do
    let j ← arranged? v
    let items ← arrangedItems? rest
    insertItem k j items

end

/-- The canonical text of a value; `none` if its keys have no order or no text. -/
def canonicalText? (d : Datum) : Option String := (arranged? d).map (·.compactWith true)

end Covenant.Document
