import Covenant.Machine.Method

/-! # Standard routines and types

    The routines that have a name everywhere, and what the basic types make
    when they are called.  What needs the scope of the caller is not here. -/

namespace Covenant.Machine

open Covenant.Value (Datum)
open Covenant.Machine.Comp Number

/-! ## Arguments -/

/-- An argument given by position or by name. -/
def argument (args : List Value) (kwargs : Names Value) (place : Nat) (name : String) :
    Option Value :=
  args[place]?.or (kwargs.lookup name)

/-- The number of arguments lies within bounds and only some names are used. -/
def expect (args : List Value) (kwargs : Names Value) (least most : Nat)
    (names : List String) : Comp Unit :=
  if least ≤ args.length ∧ args.length ≤ most ∧ kwargs.all (names.contains ·.1) then pure ()
  else fail .wrongType

/-! ## Numbers from texts -/

/-- Digits in which single underscores stand between digits. -/
def withoutMarks : List Char → Option (List Char)
  | [] => some []
  | '_' :: _ => none
  | [c] => some [c]
  | c :: '_' :: d :: rest => if d = '_' then none else (withoutMarks (d :: rest)).map (c :: ·)
  | c :: rest => (withoutMarks rest).map (c :: ·)

/-- The value of a digit in bases up to 36. -/
def digitValue (c : Char) : Option Nat :=
  if c.isDigit then some (c.toNat - '0'.toNat)
  else if 'a' ≤ c ∧ c ≤ 'z' then some (c.toNat - 'a'.toNat + 10)
  else if 'A' ≤ c ∧ c ≤ 'Z' then some (c.toNat - 'A'.toNat + 10)
  else none

/-- The whole number that digits in some base spell. -/
def wholeInBase (base : Nat) (ds : List Char) : Option Nat :=
  if ds.isEmpty then none
  else ds.foldlM (fun n c => do
    let d ← digitValue c
    if d < base then some (n * base + d) else none) 0

/-- A sign and what follows it. -/
def signOf : List Char → Bool × List Char
  | '-' :: cs => (true, cs)
  | '+' :: cs => (false, cs)
  | cs => (false, cs)

/-- The base that the mark in front of digits names, and the digits after it. -/
def markedBase : List Char → Option (Nat × List Char)
  | '0' :: c :: cs =>
    match c.toLower with
    | 'x' => some (16, cs)
    | 'o' => some (8, cs)
    | 'b' => some (2, cs)
    | _ => none
  | _ => none

/-- The whole number that a text spells in some base; in base zero, the mark in front of the
    digits tells which one it is. -/
def wholeOfText (base : Nat) (s : String) : Option Int := do
  let (negative, cs) := signOf (Text.strip s).toList
  let (base, ds) := match markedBase cs with
    | some (b, ds) =>
      if base = b ∨ base = 0 then (b, if ds.head? = some '_' then ds.drop 1 else ds)
      else (base, cs)
    | none => (if base = 0 then 10 else base, cs)
  let n ← wholeInBase base (← withoutMarks ds)
  some (if negative then -(n : Int) else n)

/-- The floating number that a text spells. -/
def floatOfText (s : String) : Option Binary64 := do
  let (negative, cs) := signOf (Text.strip s).toList
  let word := (String.ofList cs).toLower
  if word = "inf" ∨ word = "infinity" then
    some (Binary64.ofParts negative Binary64.infinityMagnitude)
  else if word = "nan" then some notANumber
  else if cs.head?.any fun c => c = '+' || c = '-' then none
  else
    match Covenant.Value.decimal? (String.ofList (← withoutMarks cs)) with
    | some (.decimal _ digits _ scale) => some (Binary64.ofDecimal negative digits scale)
    | _ => none

/-! ## Making values -/

/-- The number that a value is turned into. -/
def makeWhole (args : List Value) : Comp Value :=
  match args with
  | [] => pure (.int 0)
  | [.atom (.str s)] => do pure (.int (← ofOption .wrongValue (wholeOfText 10 s)))
  | [.atom (.bytes bs)] => do
    let s := String.ofList (bs.map fun b => Char.ofNat b.toNat)
    pure (.int (← ofOption .wrongValue (wholeOfText 10 s)))
  | [.atom (.str s), base] => do
    let b ← wholeOf base
    if b = 0 ∨ (2 ≤ b ∧ b ≤ 36) then
      pure (.int (← ofOption .wrongValue (wholeOfText b.toNat s)))
    else fail .wrongValue
  | [.atom d] => do pure (.atom (← ofExcept (truncated d)))
  | _ => fail .wrongType

/-- The floating number that a value is turned into. -/
def makeFloat (args : List Value) : Comp Value :=
  match args with
  | [] => pure (.atom (.float ⟨0⟩))
  | [.atom (.str s)] => do pure (.atom (.float (← ofOption .wrongValue (floatOfText s))))
  | [.atom (.bytes bs)] => do
    let s := String.ofList (bs.map fun b => Char.ofNat b.toNat)
    pure (.atom (.float (← ofOption .wrongValue (floatOfText s))))
  | [.atom (.fraction p q)] => pure (.atom (.float (Binary64.ofRatio (p < 0) p.natAbs q)))
  | [.atom (.decimal n d _ s)] => pure (.atom (.float (Binary64.ofDecimal n d s)))
  | [.atom d] => do
    let x ← ofOption .wrongType (← ofExcept (floating? d))
    pure (.atom (.float x))
  | _ => fail .wrongType

/-- A range from its bounds. -/
def makeRange (args : List Value) : Comp Value := do
  let ns ← args.mapM wholeOf
  match ns with
  | [b] => pure (.atom (.range 0 b 1))
  | [a, b] => pure (.atom (.range a b 1))
  | [a, b, c] => if c = 0 then fail .wrongValue else pure (.atom (.range a b c))
  | _ => fail .wrongType

/-- The items of the one argument a collection is made from, if there is one. -/
def initialItems (host : Host) (args : List Value) : Comp (List Value) :=
  match args with
  | [] => pure []
  | [v] => itemsOf host v
  | _ => fail .wrongType

/-- The bytes that numbers are. -/
def bytesOf (vs : List Value) : Comp (List UInt8) :=
  vs.mapM fun v => do
    let n ← wholeOf v
    if 0 ≤ n ∧ n < 256 then pure (UInt8.ofNat n.toNat) else fail .wrongValue

/-- A value seen as one of the classes after some class, which has to be one of its own. -/
def makeSuper (after receiver : Value) : Comp Value := do
  let h ← heap
  let follows (v : Value) : Bool := (h.lineOf v).any (sameThing after)
  if h.isType after && (follows (h.typeOf receiver) || (h.isType receiver && follows receiver))
  then make (.super after receiver) else fail .wrongType

/-- The value that a basic type makes when it is called. -/
def makeBasic (host : Host) (t : BasicType) (args : List Value) (kwargs : Names Value) :
    Comp Value :=
  match t, args with
  | .exception name, _ => make (.record (.type (.exception name)) [])
  | .dict, _ :: _ :: _ => fail .wrongType
  | .dict, args => do
    let items ← args.mapM (itemsToAdd host)
    Comp.dict (items.flatten ++ itemsOfNames kwargs)
  | .int, args =>
    if kwargs.all (·.1 == "base") then makeWhole (args ++ (kwargs.lookup "base").toList)
    else fail .wrongType
  | .super, [after, receiver] => makeSuper after receiver
  | .property, args =>
    make (.property ((argument args kwargs 0 "fget").getD .none)
      ((argument args kwargs 1 "fset").getD .none))
  | t, args =>
    if !kwargs.isEmpty then fail .wrongType
    else
      match t, args with
      | .object, [] => make (.record (.type .object) [])
      | .type, [v] => do pure ((← heap).typeOf v)
      | .bool, [] => pure (.bool false)
      | .bool, [v] => do pure (.bool (← isTrue v))
      | .float, args => makeFloat args
      | .str, [] => pure (.str "")
      | .str, [v] => do pure (.str ((← heap).text v))
      | .bytes, [] => pure (.atom (.bytes []))
      | .bytes, [.atom (.bytes bs)] => pure (.atom (.bytes bs))
      | .bytes, [v] => do pure (.atom (.bytes (← bytesOf (← itemsOf host v))))
      | .bytearray, args => do make (.bytearray (← bytesOf (← initialItems host args)))
      | .list, args => do Comp.list (← initialItems host args)
      | .tuple, [v] => do
        match ← object? v with
        | some (.tuple _) => pure v
        | _ => Comp.tuple (← itemsOf host v)
      | .tuple, [] => Comp.tuple []
      | .set, args => do Comp.set (← initialItems host args)
      | .frozenset, args => do make (.frozenset (← setItems (← initialItems host args)))
      | .range, args => makeRange args
      | .slice, [b] => make (.slice .none b .none)
      | .slice, [a, b] => make (.slice a b .none)
      | .slice, [a, b, c] => make (.slice a b c)
      | .staticMethod, [f] => make (.static f)
      | .classMethod, [f] => make (.classMethod f)
      | _, _ => fail .wrongType

/-! ## Searching -/

/-- A class of characters, as far as it is read. -/
def inClass (c : Char) : List Char → Bool
  | '\\' :: 'd' :: rest => c.isDigit || inClass c rest
  | '\\' :: 'w' :: rest => c.isAlphanum || c = '_' || inClass c rest
  | '\\' :: 's' :: rest => Text.isBlank c || inClass c rest
  | a :: '-' :: b :: rest => (a ≤ c && c ≤ b) || inClass c rest
  | a :: rest => a = c || inClass c rest
  | [] => false

/-- The first character that a pattern finds; patterns are one class of characters, or a
    character on its own. -/
def findCharacter (pattern : List Char) (s : List Char) : Option (Option Char) :=
  let isSpecial (c : Char) : Bool := ".^$*+?|()[]\\".toList.contains c || c = '\x7b'
  match pattern with
  | '[' :: '^' :: rest =>
    if rest.getLast? = some ']' then some (s.find? fun c => !inClass c rest.dropLast) else none
  | '[' :: rest =>
    if rest.getLast? = some ']' then some (s.find? fun c => inClass c rest.dropLast) else none
  | ['\\', 'd'] => some (s.find? Char.isDigit)
  | ['\\', 's'] => some (s.find? Text.isBlank)
  | [c] => if isSpecial c then none else some (s.find? (· = c))
  | _ => none

/-! ## Routines -/

/-- The key by which a value is compared. -/
def keyOf (host : Host) (key v : Value) : Comp Value :=
  if key.isNone then pure v else host.call key [v] []

/-- The least or greatest of values by their keys, of which the best so far is known. -/
def extreme (host : Host) (r : Relation) (key : Value) (best bestKey : Value) :
    List Value → Comp Value
  | [] => pure best
  | v :: vs => do
    let k ← keyOf host key v
    if ← ofExcept ((← heap).relate r k bestKey) then extreme host r key v k vs
    else extreme host r key best bestKey vs

/-- The least or greatest of the arguments, or of the items of the only one. -/
def extremeOf (host : Host) (r : Relation) (args : List Value) (kwargs : Names Value) :
    Comp Value := do
  let key := (kwargs.lookup "key").getD .none
  let items ← match args with
    | [] => fail .wrongType
    | [v] => itemsOf host v
    | vs => pure vs
  match items, kwargs.lookup "default" with
  | v :: vs, _ => do extreme host r key v (← keyOf host key v) vs
  | [], some d => if args.length = 1 then pure d else fail .wrongType
  | [], none => fail .wrongValue

/-- Whether a value is an instance of a type, or a type is one of its kinds. -/
def isOfType (line : List Value) (t : Value) : Comp Bool := do
  let h ← heap
  match h.object? t with
  | some (.tuple ts) =>
    if ts.all h.isType then pure (ts.any fun u => line.any fun c => sameThing c u)
    else fail .wrongType
  | _ => if h.isType t then pure (line.any fun c => sameThing c t) else fail .wrongType

/-- Whether a value can be called. -/
def isCallable (h : Heap) (v : Value) : Bool :=
  match v with
  | .type _ | .routine _ => true
  | v =>
    match h.object? v with
    | some (.cls _) | some (.function _) | some (.bound ..) | some (.method ..)
    | some (.decorator _) | some (.captures _) | some (.static _) | some (.parametric _) => true
    | some (.record c _) => (h.fieldInLine "__call__" (h.lineOf c)).isSome
    | _ => false

/-- Values in tuples with those of the other lists at their place. -/
def zipped : Nat → List (List Value) → List (List Value)
  | 0, _ => []
  | fuel + 1, ls =>
    if ls.isEmpty || ls.any (·.isEmpty) then []
    else ls.filterMap (·.head?) :: zipped fuel (ls.map (·.drop 1))

/-- Calls a routine that has a name everywhere. -/
def callStandard (host : Host) (r : Routine) (args : List Value) (kwargs : Names Value) :
    Comp Value := do
  match r, args with
  | .max, args => extremeOf host .greater args kwargs
  | .min, args => extremeOf host .less args kwargs
  | .sorted, [v] => do
    let down ← isTrue ((kwargs.lookup "reverse").getD (.bool false))
    Comp.list (← sortedBy host ((kwargs.lookup "key").getD .none) down (← itemsOf host v))
  | .round, args => do
    expect args kwargs 0 2 ["number", "ndigits"]
    match argument args kwargs 0 "number", argument args kwargs 1 "ndigits" with
    | some (.atom d), some (.atom .none) | some (.atom d), none => do
      pure (.atom (← ofExcept (rounded d none)))
    | some (.atom d), some places => do
      pure (.atom (← ofExcept (rounded d (some (← wholeOf places)))))
    | _, _ => fail .wrongType
  | .sum, args => do
    expect args kwargs 1 2 ["start"]
    let start := (argument args kwargs 1 "start").getD (.int 0)
    match args, start with
    | _, .atom (.str _) | _, .atom (.bytes _) => fail .wrongType
    | v :: _, start => do (← itemsOf host v).foldlM (fun total x => binary .add total x) start
    | [], _ => fail .wrongType
  | .enumerate, args => do
    expect args kwargs 1 2 ["start"]
    let start ← wholeOf ((argument args kwargs 1 "start").getD (.int 0))
    let items ← initialItems host (args.take 1)
    let pairs ← items.zipIdx.mapM fun p => Comp.tuple [.int (start + p.2), p.1]
    Comp.list pairs
  | .zip, args => do
    let lists ← itemsOfAll host args
    let fuel := (lists.headD []).length + 1
    Comp.list (← (zipped fuel lists).mapM Comp.tuple)
  | r, args =>
    if !kwargs.isEmpty then fail .wrongType
    else
      match r, args with
      | .abs, [.atom d] => do pure (.atom (← ofExcept (magnitude d)))
      | .all, [v] => do pure (.bool (← iterate host v isTrue))
      | .any, [v] => do
        let none_ ← iterate host v fun x => do pure !(← isTrue x)
        pure (.bool !none_)
      | .callable, [v] => do pure (.bool (isCallable (← heap) v))
      | .divmod, [a, b] => do
        let q ← binary .floorDiv a b
        let m ← binary .mod a b
        Comp.tuple [q, m]
      | .getattr, [v, .atom (.str name)] => getField host v name
      | .getattr, [v, .atom (.str name), d] => do
        match ← attempt (getField host v name) with
        | .ok x => pure x
        | .error (.mistake .noAttribute) => pure d
        | .error e => throw e
      | .hasattr, [v, .atom (.str name)] => do pure (.bool (← hasField host v name))
      | .setattr, [v, .atom (.str name), x] => do
        setField host v name x
        pure .none
      | .isinstance, [v, t] => do
        let h ← heap
        pure (.bool (← isOfType (h.lineOf (h.typeOf v)) t))
      | .issubclass, [c, t] => do
        let h ← heap
        if h.isType c then pure (.bool (← isOfType (h.lineOf c) t)) else fail .wrongType
      | .len, [v] => do pure (.int (← sizeOf v))
      | .repr, [v] => do pure (.str ((← heap).spell v))
      | .reversed, [v] => do Comp.list (← itemsOf host v).reverse
      | .cachedProperty, [f] => make (.cachedProperty f)
      | .sleep, _ => make (.coroutine .turn false)
      | .search, [.atom (.str pattern), .atom (.str s)] =>
        match findCharacter pattern.toList s.toList with
        | some (some c) => make (.found (String.singleton c))
        | some none => pure .none
        | none => fail (.custom "error")
      | _, _ => fail .wrongType

end Covenant.Machine
