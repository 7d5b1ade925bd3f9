import Covenant.Machine.Operators
import Covenant.Text.Blank
import Covenant.Text.Case

/-! # Methods of basic types

    What texts, lists, sets, mappings and captured values do when one of their
    methods is called.  Lists, sets and mappings change in place. -/

namespace Covenant.Machine

open Covenant.Value (Datum)
open Covenant.Machine.Comp Text

/-! ## Texts -/

/-- The text that a value is. -/
def textOf (v : Value) : Comp String :=
  match v with
  | .atom (.str s) => pure s
  | _ => fail .wrongType

/-- The whole number that a value is. -/
def wholeOf (v : Value) : Comp Int := ofOption .wrongType (indexOf? v)

/-- The words of a text, at most so many cuts; the last piece keeps what is left. -/
def words : Nat → Option Nat → List Char → List (List Char)
  | 0, _, _ => []
  | fuel + 1, limit, cs =>
    let cs := cs.dropWhile isBlank
    if cs.isEmpty then []
    else if limit = some 0 then [dropEndWhile isBlank cs]
    else
      let word := cs.takeWhile fun c => !isBlank c
      word :: words fuel (limit.map (· - 1)) (cs.drop word.length)

/-- The pieces of a text between separators, at most so many cuts. -/
def pieces (sep : List Char) : Nat → Option Nat → List Char → List Char → List (List Char)
  | 0, _, piece, cs => [piece.reverse ++ cs]
  | _ + 1, _, piece, [] => [piece.reverse]
  | fuel + 1, limit, piece, c :: cs =>
    if limit ≠ some 0 ∧ sep.isPrefixOf (c :: cs) = true then
      piece.reverse :: pieces sep fuel (limit.map (· - 1)) [] ((c :: cs).drop sep.length)
    else pieces sep fuel limit (c :: piece) cs

/-- The first place of a text inside another. -/
def placeOfText (part : List Char) : Nat → List Char → Option Nat
  | i, [] => if part.isEmpty then some i else none
  | i, c :: cs => if part.isPrefixOf (c :: cs) then some i else placeOfText part (i + 1) cs

/-- A limit on cuts: a negative number is none. -/
def limitOf (v : Option Value) : Comp (Option Nat) :=
  match v with
  | none => pure none
  | some v => do
    let n ← wholeOf v
    pure (if n < 0 then none else some n.toNat)

/-- Removes characters at the ends of a text. -/
def trimmed (start stop : Bool) (p : Char → Bool) (s : String) : String :=
  let cs := s.toList
  let cs := if start then cs.dropWhile p else cs
  String.ofList (if stop then dropEndWhile p cs else cs)

/-- A method that removes characters at the ends of a text. -/
def trimMethod (start stop : Bool) (s : String) : List Value → Comp Value
  | [] | [.atom .none] => pure (.str (trimmed start stop isBlank s))
  | [.atom (.str cs)] => pure (.str (trimmed start stop (cs.toList.contains ·) s))
  | _ => fail .wrongType

/-- A method that fills a text up to a width. -/
def fillMethod (side : Side) (s : String) : List Value → Comp Value
  | [width] => do
    let n ← wholeOf width
    pure (.str (Layout.fillUp { width := n.toNat, side := some side } side "" s))
  | [width, .atom (.str f)] => do
    let n ← wholeOf width
    match f.toList with
    | [c] =>
      pure (.str (Layout.fillUp { width := n.toNat, side := some side, fill := c } side "" s))
    | _ => fail .wrongType
  | _ => fail .wrongType

/-- Whether a text has one of some texts at one of its ends. -/
def endMethod (test : List Char → Bool) : List Value → Comp Value
  | [.atom (.str t)] => pure (.bool (test t.toList))
  | [v] => do
    match ← object? v with
    | some (.tuple vs) => do
      let ts ← vs.mapM textOf
      pure (.bool (ts.any fun t => test t.toList))
    | _ => fail .wrongType
  | _ => fail .wrongType

/-- The pieces of a text as a list. -/
def splitMethod (s : String) (sep : Value) (limit : Option Nat) : Comp Value := do
  let fuel := s.length + 1
  let found ← match sep with
    | .atom .none => pure (words fuel limit s.toList)
    | .atom (.str t) =>
      if t.isEmpty then fail .wrongValue else pure (pieces t.toList fuel limit [] s.toList)
    | _ => fail .wrongType
  Comp.list (found.map fun cs => .str (String.ofList cs))

/-- Calls a method of a text. -/
def textMethod (host : Host) (s : String) (name : String) (args : List Value)
    (kwargs : Names Value) : Comp Value :=
  let cs := s.toList
  match name, args with
  | "upper", [] => pure (.str (capitals s))
  | "lower", [] => pure (.str (smalls s))
  | "isdigit", [] => pure (.bool (!s.isEmpty && cs.all Char.isDigit))
  | "strip", args => trimMethod true true s args
  | "lstrip", args => trimMethod true false s args
  | "rstrip", args => trimMethod false true s args
  | "rjust", args => fillMethod .right s args
  | "ljust", args => fillMethod .left s args
  | "startswith", args => endMethod (fun t => t.isPrefixOf cs) args
  | "endswith", args => endMethod (fun t => t.isSuffixOf cs) args
  | "split", args => do
    let sep := (args[0]?.or (kwargs.lookup "sep")).getD .none
    splitMethod s sep (← limitOf (args[1]?.or (kwargs.lookup "maxsplit")))
  | "join", [v] => do
    let ts ← (← itemsOf host v).mapM textOf
    pure (.str (s.intercalate ts))
  | "replace", [.atom (.str old), .atom (.str new)] =>
    if old.isEmpty then
      pure (.str (new ++ String.join (cs.map fun c => String.singleton c ++ new)))
    else
      pure (.str (new.intercalate
        ((pieces old.toList (s.length + 1) none [] cs).map String.ofList)))
  | "count", [.atom (.str t)] =>
    pure (.int (if t.isEmpty then s.length + 1
      else (pieces t.toList (s.length + 1) none [] cs).length - 1))
  | "find", [.atom (.str t)] =>
    pure (.int (match placeOfText t.toList 0 cs with
      | some i => i
      | none => -1))
  | _, _ => fail .wrongType

/-! ## Lists -/

/-- Sorts by keys; values of equal keys keep their order. -/
def insertSorted (h : Heap) (down : Bool) (x : Value × Value) :
    List (Value × Value) → Except Mistake (List (Value × Value))
  | [] => .ok [x]
  | y :: ys => do
    let first ← if down then h.relate .less y.1 x.1 else h.relate .less x.1 y.1
    if first then .ok (x :: y :: ys)
    else do
      let rest ← insertSorted h down x ys
      .ok (y :: rest)

/-- Values sorted by keys, in either direction. -/
def sortedBy (host : Host) (key : Value) (down : Bool) (vs : List Value) : Comp (List Value) := do
  let keyed ← vs.mapM fun v => do
    if key.isNone then pure (v, v) else pure (← host.call key [v] [], v)
  let h ← heap
  let sorted ← ofExcept (keyed.foldlM (fun done x => insertSorted h down x done) [])
  pure (sorted.map (·.2))

/-- The first place of an equal value. -/
def placeOfValue (v : Value) : Nat → List Value → Comp (Option Nat)
  | _, [] => pure none
  | i, x :: xs => do if ← same x v then pure (some i) else placeOfValue v (i + 1) xs

/-- How many values are equal to one. -/
def countOf (v : Value) : List Value → Comp Nat
  | [] => pure 0
  | x :: xs => do
    let n ← countOf v xs
    pure (if ← same x v then n + 1 else n)

/-- Calls a method of a list. -/
def listMethod (host : Host) (a : Address) (items : List Value) (name : String)
    (args : List Value) (kwargs : Names Value) : Comp Value := do
  let become (items : List Value) : Comp Value := do
    put a (.list items)
    pure .none
  match name, args with
  | "append", [v] => become (items ++ [v])
  | "extend", [v] => do become (items ++ (← itemsOf host v))
  | "clear", [] => become []
  | "copy", [] => Comp.list items
  | "reverse", [] => become items.reverse
  | "insert", [i, v] => do
    let i ← wholeOf i
    let n : Int := items.length
    let place := (max 0 (min n (if i < 0 then i + n else i))).toNat
    become (items.take place ++ v :: items.drop place)
  | "pop", args => do
    let i ← match args with
      | [] => pure (-1)
      | [i] => wholeOf i
      | _ => fail .wrongType
    let place ← ofOption .noItem (placeOf items.length i)
    let v ← ofOption .noItem items[place]?
    put a (.list (items.eraseIdx place))
    pure v
  | "remove", [v] => do
    match ← placeOfValue v 0 items with
    | some place => become (items.eraseIdx place)
    | none => fail .wrongValue
  | "index", [v] => do
    let place ← ofOption .wrongValue (← placeOfValue v 0 items)
    pure (.int place)
  | "count", [v] => do pure (.int (← countOf v items))
  | "sort", [] => do
    let down ← isTrue ((kwargs.lookup "reverse").getD (.bool false))
    become (← sortedBy host ((kwargs.lookup "key").getD .none) down items)
  | _, _ => fail .wrongType

/-! ## Sets and mappings -/

/-- The items of several values one after the other. -/
def itemsOfAll (host : Host) : List Value → Comp (List (List Value))
  | [] => pure []
  | v :: vs => do
    let items ← itemsOf host v
    pure (items :: (← itemsOfAll host vs))

/-- Calls a method of a set. -/
def setMethod (host : Host) (v : Value) (items : List Value) (canChange : Bool) (name : String)
    (args : List Value) : Comp Value := do
  let h ← heap
  let again (items : List Value) : Comp Value :=
    make (if canChange then .set items else .frozenset items)
  let become (items : List Value) : Comp Value := do
    match v with
    | .ref a => do
      put a (.set items)
      pure .none
    | _ => pure .none
  match name, args with
  | "copy", [] => again items
  | "union", args => do
    let more ← itemsOfAll host args
    again (← decided (addItems h.same items more.flatten))
  | "intersection", args => do
    let more ← itemsOfAll host args
    again (← more.foldlM (fun items bs => kept h true items bs) items)
  | "difference", args => do
    let more ← itemsOfAll host args
    again (← kept h false items more.flatten)
  | "issubset", [w] => do pure (.bool (← decided (allIn h.same items (← itemsOf host w))))
  | "issuperset", [w] => do pure (.bool (← decided (allIn h.same (← itemsOf host w) items)))
  | "add", [x] =>
    if h.isKey x then do become (← decided (addItems h.same items [x])) else fail .wrongType
  | "update", args => do
    let more ← itemsOfAll host args
    if more.flatten.all h.isKey then do
      become (← decided (addItems h.same items more.flatten))
    else fail .wrongType
  | "discard", [x] => do become (← kept h false items [x])
  | "remove", [x] => do
    if ← decided (isIn h.same x items) then do become (← kept h false items [x])
    else fail .noKey
  | "clear", [] => become []
  | "pop", [] =>
    match setOrder items with
    | [] => fail .noKey
    | x :: xs => do
      let _ ← become xs
      pure x
  | _, _ => fail .wrongType

/-- The items that a value adds to a mapping: those of a mapping, or pairs. -/
def itemsToAdd (host : Host) (v : Value) : Comp (List (Value × Value)) := do
  match (← object? v).bind mapping? with
  | some ps => pure ps
  | none => do (← itemsOf host v).mapM (pairOf host)

/-- Calls a method of a mapping. -/
def dictMethod (host : Host) (a : Address) (items : List (Value × Value)) (name : String)
    (args : List Value) (kwargs : Names Value) : Comp Value := do
  let h ← heap
  let become (items : List (Value × Value)) : Comp Unit :=
    match h.get? a with
    | some (.names _) => put a (.names (items.filterMap fun
        | (.atom (.str s), v) => some (s, v)
        | _ => none))
    | _ => put a (.dict items)
  let find (k : Value) : Comp (Option Value) :=
    if h.isKey k then decided (lookupKey h.same k items) else fail .wrongType
  match name, args with
  | "get", [k] => do pure ((← find k).getD .none)
  | "get", [k, d] => do pure ((← find k).getD d)
  | "keys", [] => Comp.list (items.map (·.1))
  | "values", [] => Comp.list (items.map (·.2))
  | "items", [] => do
    let pairs ← items.mapM fun p => Comp.tuple [p.1, p.2]
    Comp.list pairs
  | "copy", [] => make (.dict items)
  | "clear", [] => do
    become []
    pure .none
  | "pop", k :: rest => do
    match ← find k, rest with
    | some v, _ => do
      let left ← decided (eraseKey h.same k items)
      become (left.getD items)
      pure v
    | none, [d] => pure d
    | none, _ => fail .noKey
  | "setdefault", k :: rest => do
    match ← find k with
    | some v => pure v
    | none => do
      let v := rest.headD .none
      become (← withKey items k v)
      pure v
  | "update", args => do
    let more ← args.mapM (itemsToAdd host)
    become (← withKeys items (more.flatten ++ itemsOfNames kwargs))
    pure .none
  | _, _ => fail .wrongType

/-! ## Captured values -/

/-- What a store has for the field that is its only argument. -/
def lookupCaptured (c : Captures Value) : List Value → Comp Value
  | [.atom (.str field)] =>
    match c.lookup field with
    | some v => pure v
    | none => throw (.notCaptured field)
  | _ => fail .wrongType

/-! ## All together -/

/-- Calls a method of a value of a basic type. -/
def callMethod (host : Host) (receiver : Value) (name : String) (args : List Value)
    (kwargs : Names Value) : Comp Value := do
  let h ← heap
  match receiver, h.object? receiver, name with
  | _, _, "__init__" => pure .none
  | v, _, "__new__" =>
    match args with
    | c :: _ => make (.record c [])
    | [] => if h.isType v then make (.record v []) else fail .wrongType
  | .type _, _, name =>
    -- a method of the type itself takes its receiver as first argument
    match args with
    | v :: args => do
      if !((h.lineOf (h.typeOf v)).any (sameThing receiver)) then fail .wrongType
      let method ← getField host v name
      host.call method args kwargs
    | [] => fail .wrongType
  | .atom (.str s), _, name => textMethod host s name args kwargs
  | .atom d, _, "bit_length" =>
    match whole? d with
    | some n => pure (.int (if n = 0 then 0 else n.natAbs.log2 + 1))
    | none => fail .wrongType
  | .ref a, some (.list vs), name => listMethod host a vs name args kwargs
  | v, some (.set vs), name => setMethod host v vs true name args
  | v, some (.frozenset vs), name => setMethod host v vs false name args
  | .ref a, some (.dict ps), name => dictMethod host a ps name args kwargs
  | .ref a, some (.names ns), name => dictMethod host a (itemsOfNames ns) name args kwargs
  | _, some (.tuple vs), "count" =>
    match args with
    | [v] => do pure (.int (← countOf v vs))
    | _ => fail .wrongType
  | _, some (.tuple vs), "index" =>
    match args with
    | [v] => do
      let place ← ofOption .wrongValue (← placeOfValue v 0 vs)
      pure (.int place)
    | _ => fail .wrongType
  | _, some (.captures c), "lookup" => lookupCaptured c args
  | _, some (.found text), "group" => pure (.str text)
  | _, _, _ => fail .wrongType

end Covenant.Machine
