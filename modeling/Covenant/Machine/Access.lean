import Covenant.Machine.Import
import Covenant.Machine.Scope

/-! # Access — fields of values

    A field of an instance is looked for among the data descriptors of its
    class, then in the instance, then in the class.  Functions of a class
    become methods when they are read from an instance.  Reading a property
    calls it, so access needs someone who can call. -/

namespace Covenant.Machine

open Covenant.Value (Datum)
open Covenant.Tree Covenant.Machine.Comp

/-- What evaluation asks of the calls below it. -/
structure Host where
  /-- Calls a value with positional and named arguments. -/
  call : Value → List Value → Names Value → Comp Value
  /-- Does what is left to do of a coroutine. -/
  resume : Pending → Comp Value
  /-- Goes through what a comprehension produces until told to stop; tells whether it came to
      the end. -/
  produce : List Expr → List Generator → Value → Scope → (Value → Comp Bool) → Comp Bool

/-! ## Methods of basic types -/

/-- The methods of a basic type. -/
def basicMethods : BasicType → List String
  | .object => ["__init__", "__new__"]
  | .list => ["append", "clear", "copy", "count", "extend", "index", "insert", "pop", "remove",
      "reverse", "sort"]
  | .tuple => ["count", "index"]
  | .set => ["add", "clear", "copy", "difference", "discard", "intersection", "issubset",
      "issuperset", "pop", "remove", "union", "update"]
  | .frozenset => ["copy", "difference", "intersection", "issubset", "issuperset", "union"]
  | .dict => ["clear", "copy", "get", "items", "keys", "pop", "setdefault", "update", "values"]
  | .str => ["count", "endswith", "find", "isdigit", "join", "ljust", "lower", "lstrip",
      "replace", "rjust", "rstrip", "split", "startswith", "strip", "upper"]
  | .int => ["bit_length"]
  | .captures => ["capture", "lookup"]
  | .found => ["group"]
  | _ => []

/-- Whether a type or one that it inherits from has a method. -/
def hasMethod (t : BasicType) (name : String) : Bool :=
  t.line.any fun u => (basicMethods u).contains name

/-! ## Looking up in classes -/

/-- The field of the first class in a line that has it. -/
def Heap.fieldInLine (h : Heap) (name : String) : List Value → Option Value
  | [] => none
  | c :: cs =>
    match h.classInfo? c with
    | some info => (info.fields.lookup name).or (h.fieldInLine name cs)
    | none => h.fieldInLine name cs

/-- Whether one of the basic types in a line has a method. -/
def lineHasMethod (line : List Value) (name : String) : Bool :=
  line.any fun
    | .type t => (basicMethods t).contains name
    | _ => false

/-- A field of a class as it is read from an instance. -/
def bindTo (host : Host) (receiver cls field : Value) : Comp Value := do
  match ← object? field with
  | some (.function _) => make (.bound receiver field)
  | some (.classMethod f) => make (.bound cls f)
  | some (.static f) => pure f
  | some (.property getter _) =>
    if getter.isNone then fail .noAttribute else host.call getter [receiver] []
  | _ => pure field

/-- A field of a class as it is read from the class itself. -/
def bindToClass (cls field : Value) : Comp Value := do
  match ← object? field with
  | some (.classMethod f) => make (.bound cls f)
  | some (.static f) => pure f
  | _ => pure field

/-! ## Reading -/

/-- A field of a function, or one of its standing properties. -/
def functionField (f : FunctionInfo) (name : String) : Comp Value :=
  match f.fields.lookup name with
  | some v => pure v
  | none =>
    match name, f.code with
    | "__name__", _ => pure (.str f.name)
    | "__qualname__", _ => pure (.str f.qualname)
    | "__module__", _ => pure f.module
    | "__doc__", _ => pure f.doc
    | "__wrapped__", .checked _ implementation _ => pure implementation
    | "__contract__", .checked .. => pure (.routine (.other "WrapperDescriptor"))
    | "__signature__", .checked .. => pure (.routine (.other "Signature"))
    | "__annotations__", _ => make (.names f.hints)
    | "__globals__", .block _ s _ | "__globals__", .result _ s => pure (.ref s.globals)
    | "__contract_specs__", _ =>
      match f.specs with
      | some _ => pure (.routine (.other "ContractSpecs"))
      | none => fail .noAttribute
    | _, _ => fail .noAttribute

/-- A field of a class, or one of its standing properties. -/
def classField (v : Value) (c : ClassInfo) (name : String) : Comp Value := do
  match (← heap).fieldInLine name c.line with
  | some field => bindToClass v field
  | none =>
    match name with
    | "__name__" => pure (.str c.name)
    | "__qualname__" => pure (.str c.qualname)
    | "__module__" => pure c.module
    | "__doc__" => pure c.doc
    | "__class__" => pure (.type .type)
    | "__mro__" => Comp.tuple c.line
    | "__bases__" => Comp.tuple c.bases
    | "__annotations__" => make (.names c.hints)
    | "__dict__" => make (.names c.fields)
    | "__contract_type__" =>
      let h ← heap
      if c.line.any fun b => ((h.classInfo? b).bind (·.contract)).isSome then
        pure (.routine (.other "ContractedType"))
      else fail .noAttribute
    | name => if lineHasMethod c.line name then make (.method v name) else fail .noAttribute

/-- A field that is computed once and then kept by the instance. -/
def keptField (host : Host) (receiver : Value) (name : String) (function : Value) :
    Comp Value := do
  let v ← host.call function [receiver] []
  match receiver, ← object? receiver with
  | .ref a, some (.record c fields) =>
    match (← heap).classInfo? c with
    | some info =>
      if info.isOpen then do
        put a (.record c (Names.set fields name v))
        pure v
      else fail .wrongType
    | none => fail .wrongType
  | _, _ => pure v

/-- A field of an instance. -/
def instanceField (host : Host) (v cls : Value) (fields : Names Value) (name : String) :
    Comp Value := do
  let h ← heap
  let line := h.lineOf cls
  let inClass := h.fieldInLine name line
  match inClass.bind h.object?, fields.lookup name, inClass with
  | some (.property getter _), _, _ =>
    if getter.isNone then fail .noAttribute else host.call getter [v] []
  | some (.slot slot), _, _ => ofOption .noAttribute (fields.lookup slot)
  | _, some field, _ => pure field
  | some (.cachedProperty f), none, _ => keptField host v name f
  | _, none, some field => bindTo host v cls field
  | _, none, none =>
    match name, h.classInfo? cls with
    | "__class__", _ => pure cls
    | "__dict__", _ => make (.names fields)
    | "__module__", some info => pure info.module
    | "__doc__", some info => pure info.doc
    | "__contract_type__", some info => classField cls info name
    | name, _ => if lineHasMethod line name then make (.method v name) else fail .noAttribute

/-- The fields that values of basic types have besides their methods. -/
def basicField (h : Heap) (v : Value) (name : String) : Option Value :=
  match v, name with
  | .type t, "__name__" | .type t, "__qualname__" => some (.str t.name)
  | .type _, "__module__" => some (.str "builtins")
  | .routine r, "__name__" => (Routine.named.find? (·.2 == r)).map fun p => .str p.1
  | v, "__class__" => some (h.typeOf v)
  | .atom (.float x), "real" => some (.atom (.float x))
  | .atom (.float _), "imag" => some (.atom (.float ⟨0⟩))
  | .atom d, "real" => (whole d).map .int
  | .atom d, "imag" => (whole d).map fun _ => .int 0
  | _, _ => none
where
  /-- A whole number; truth values count as zero and one. -/
  whole : Datum → Option Int
    | .bool b => some (if b then 1 else 0)
    | .int n => some n
    | _ => none

/-- Reads a field. -/
def getField (host : Host) (v : Value) (name : String) : Comp Value := do
  let h ← heap
  match h.object? v, v with
  | some (.record c fields), _ => instanceField host v c fields name
  | some (.cls info), _ => classField v info name
  | some (.function f), _ => functionField f name
  | some (.bound r f), _ =>
    match name, h.object? f with
    | "__self__", _ => pure r
    | "__func__", _ => pure f
    | name, some (.function info) => functionField info name
    | _, _ => fail .noAttribute
  | some (.super after receiver), _ =>
    let cls := if h.isType receiver then receiver else h.typeOf receiver
    let later := ((h.lineOf cls).dropWhile fun c => !sameThing c after).drop 1
    match h.fieldInLine name later with
    | some field =>
      if h.isType receiver then bindToClass receiver field else bindTo host receiver cls field
    | none => if lineHasMethod later name then make (.method receiver name) else fail .noAttribute
  | some (.property getter setter), _ =>
    match name with
    | "setter" => make (.decorator (.setter getter setter))
    | "fget" => pure getter
    | "fset" => pure setter
    | _ => fail .noAttribute
  | some (.static f), _ | some (.classMethod f), _ =>
    match name with
    | "__func__" | "__wrapped__" => pure f
    | _ =>
      match h.object? f with
      | some (.function info) => functionField info name
      | _ => fail .noAttribute
  | _, .module module => ofOption .noAttribute ((provided module).bind (·.lookup name))
  | _, v =>
    match basicField h v name with
    | some field => pure field
    | none =>
      let t := match v with
        | .type t => some t
        | v =>
          match h.typeOf v with
          | .type t => some t
          | _ => none
      if t.any fun t => hasMethod t name then make (.method v name) else fail .noAttribute

/-- Whether a value has a field. -/
def hasField (host : Host) (v : Value) (name : String) : Comp Bool := do
  match ← attempt (getField host v name) with
  | .ok _ => pure true
  | .error (.mistake .noAttribute) => pure false
  | .error e => throw e

/-! ## Writing -/

/-- Sets a field. -/
def setField (host : Host) (v : Value) (name : String) (x : Value) : Comp Unit := do
  let h ← heap
  match v, h.object? v with
  | .ref a, some (.record c fields) =>
    match (h.fieldInLine name (h.lineOf c)).bind h.object? with
    | some (.property _ setter) =>
      if setter.isNone then fail .noAttribute
      else do
        let _ ← host.call setter [v, x] []
        pure ()
    | some (.slot slot) => put a (.record c (Names.set fields slot x))
    | _ =>
      let hasRoom : Bool := match c with
        | .type t => t != .object
        | c => ((h.classInfo? c).map (·.isOpen)).getD true
      if hasRoom then put a (.record c (Names.set fields name x)) else fail .noAttribute
  | .ref a, some (.cls info) =>
    put a (.cls { info with fields := Names.set info.fields name x })
  | .ref a, some (.function f) =>
    match name, x with
    | "__name__", .atom (.str s) => put a (.function { f with name := s })
    | "__qualname__", .atom (.str s) => put a (.function { f with qualname := s })
    | "__doc__", x => put a (.function { f with doc := x })
    | "__module__", x => put a (.function { f with module := x })
    | name, x => put a (.function { f with fields := Names.set f.fields name x })
  | .type _, _ => fail .wrongType
  | _, _ => fail .noAttribute

/-- Removes a field. -/
def deleteField (v : Value) (name : String) : Comp Unit := do
  let h ← heap
  match v, h.object? v with
  | .ref a, some (.record c fields) =>
    match (h.fieldInLine name (h.lineOf c)).bind h.object? with
    | some (.property ..) => fail .noAttribute
    | some (.slot slot) =>
      if (fields.lookup slot).isSome then put a (.record c (Names.erase slot fields))
      else fail .noAttribute
    | _ =>
      if (fields.lookup name).isSome then put a (.record c (Names.erase name fields))
      else fail .noAttribute
  | .ref a, some (.cls info) =>
    if (info.fields.lookup name).isSome then
      put a (.cls { info with fields := Names.erase name info.fields })
    else fail .noAttribute
  | .ref a, some (.function f) =>
    if (f.fields.lookup name).isSome then
      put a (.function { f with fields := Names.erase name f.fields })
    else fail .noAttribute
  | _, _ => fail .noAttribute

end Covenant.Machine
