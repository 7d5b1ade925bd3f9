import Covenant.Machine.Describe

/-! # Contracts put on classes and functions

    Decorators record clauses and marks on functions.  Weaving a class or a
    function turns the records into wrappers.  A class is woven as a whole:
    nothing is installed unless every member is accepted.  The wrapper of a
    function is published beside it under its public name, unless that name
    stands for something else. -/

namespace Covenant.Machine

open Covenant.Machine.Comp Declaration Signature Covenant.Tree Weaving Wrapper

/-! ## Records -/

/-- The record of a function with clauses put in front; decorators are applied from the
    innermost to the outermost, so the clauses end up in the order of the text. -/
def Specs.withConditions (s : Specs) (preconditions postconditions : List Clause) : Specs :=
  { s with
    preconditions := preconditions ++ s.preconditions
    postconditions := postconditions ++ s.postconditions }

/-- The clauses of a mapping from conditions to messages; nothing gives none. -/
def clausesOf (v : Value) : Comp (List Clause) := do
  let h ← heap
  if !h.isTrue v then pure []
  else
    match (h.object? v).bind mapping? with
    | some ps => pure (ps.map fun p => { text := h.text p.1, message := h.text p.2 })
    | none => fail .noAttribute

/-- Changes the record of a function, or of the function that a descriptor binds. -/
def changeSpecs (v : Value) (change : Specs → Specs) : Comp Unit := do
  let h ← heap
  let changeAt (a : Address) (f : FunctionInfo) : Comp Unit :=
    put a (.function { f with specs := some (change (f.specs.getD {})) })
  match v, h.object? v with
  | .ref a, some (.function f) => changeAt a f
  | _, some (.static g) | _, some (.classMethod g) =>
    match g, h.object? g with
    | .ref a, some (.function f) => changeAt a f
    | _, _ => pure ()
  | _, some (.cls _) | _, some (.record ..) => pure ()
  | _, _ => fail .noAttribute

/-- Puts clauses on a function; the function has a record even if the clauses are no
    mapping. -/
def addConditions (v preconditions postconditions : Value) : Comp Unit := do
  changeSpecs v id
  let pre ← clausesOf preconditions
  changeSpecs v fun s => s.withConditions pre []
  let post ← clausesOf postconditions
  changeSpecs v fun s => s.withConditions [] post

/-! ## Wrappers -/

/-- The wrapper that a value is, with its descriptor. -/
def Heap.contract? (h : Heap) (v : Value) : Option (Descriptor Value) :=
  let ofFunction (f : Value) : Option (Descriptor Value) :=
    match h.object? f with
    | some (.function { code := .checked d _ _, .. }) => some d
    | _ => none
  match h.object? v with
  | some (.bound _ f) => ofFunction f
  | _ => ofFunction v

/-- What stands before the last point of a full name, with the point. -/
def ownerPath (qualname : String) : String :=
  let cs := qualname.toList
  String.ofList (cs.take (cs.length - (cs.reverse.takeWhile (· ≠ '.')).length))

/-- The function of a wrapper around an implementation, unless its parameters make no
    signature. -/
def wrapperInfo (d : Descriptor Value) (implementation : Value) (f : FunctionInfo) :
    Except SlotFault FunctionInfo := do
  let slots ← d.signature.slots false
  let published ← d.signature.slots true
  pure {
    name := d.publicName
    qualname := ownerPath f.qualname ++ d.publicName
    module := f.module
    doc := f.doc
    slots := published
    hints := f.hints
    isAsync := d.isAsync && d.role ≠ .constructor
    code := .checked d implementation slots }

/-- The mistake that parameters without a signature are. -/
def SlotFault.mistake : SlotFault → Mistake
  | .emptyName => .noItem
  | _ => .wrongValue

/-- Makes the wrapper of a descriptor. -/
def makeWrapper (d : Descriptor Value) : Comp Value := do
  let implementation ← ofOption .wrongValue d.implementation
  match ← object? implementation with
  | some (.function f) =>
    match wrapperInfo d implementation f with
    | .error fault => fail (SlotFault.mistake fault)
    | .ok info => do
      let w ← make (.function info)
      if d.isFactory then make (.classMethod w) else pure w
  | _ => fail .wrongType

/-- The mistake that ends weaving without a result. -/
def escapeMistake : Escape → Mistake
  | .unsoundClause => .unreadable
  | .splice .noSuchLine => .noItem
  | .splice .brokenCharacter => .custom "UnicodeDecodeError"

/-! ## Classes -/

/-- Gives a class a field. -/
def setClassField (cls : Value) (name : String) (v : Value) : Comp Unit := do
  match cls, ← object? cls with
  | .ref a, some (.cls c) => put a (.cls { c with fields := Names.set c.fields name v })
  | _, _ => fail .wrongType

/-- Installs the wrappers of a class one after the other under their public names. -/
def install (cls : Value) : List (Descriptor Value) → Comp Unit
  | [] => pure ()
  | d :: ds => do
    let w ← makeWrapper d
    setClassField cls d.publicName w
    install cls ds

/-- The descriptors of a declaration, if all its members are accepted. -/
def acceptAll (t : TypeDecl Value) : Except Thrown (List (Descriptor Value)) :=
  match weaveType t with
  | .error e => .error (.mistake (escapeMistake e))
  | .ok outcomes =>
    let result := Result.ofOutcomes [] outcomes
    if result.ok then .ok result.descriptors else .error (.rejected result.errors)

/-- Weaves a class with some invariants and gives it back. -/
def weaveClass (program : List Stmt) (cls invariants : Value) : Comp Value := do
  let clauses ← clausesOf invariants
  let h ← heap
  match h.classInfo? cls with
  | none => fail .wrongType
  | some c =>
    match describeClass h program c clauses with
    | .error e => throw (.generation e)
    | .ok declaration =>
      match acceptAll declaration with
      | .error e => throw e
      | .ok descriptors => do
        install cls descriptors
        match cls, ← object? cls with
        | .ref a, some (.cls c) => put a (.cls { c with contract := some declaration })
        | _, _ => pure ()
        pure cls

/-- Refuses to weave something that is no class. -/
def refuseTarget (v : Value) : Comp Value := do
  let h ← heap
  let name := match h.object? v with
    | some (.function f) => f.name
    | some (.bound _ f) =>
      match h.object? f with
      | some (.function f) => f.name
      | _ => h.text v
    | _ => h.text v
  throw (.generation { cause := .placement (.markerOffType name) })

/-! ## Functions -/

/-- The public names of a module that a new wrapper would take away: the wrapper of a function
    of the same name may be replaced. -/
def takenNames (h : Heap) (names : Names Value) (internal : String) : List String :=
  let publicName := publicName internal .method
  match names.lookup publicName with
  | none => []
  | some v =>
    if (h.contract? v).any fun d => d.internalName == internal then [] else [publicName]

/-- The descriptor of a function in a module, nothing if it has no contract. -/
def acceptFunction (h : Heap) (names : Names Value) (declaration : Callable Value) :
    Except Thrown (Option (Descriptor Value)) :=
  let registry : Registry :=
    { owner := declaration.module, taken := takenNames h names declaration.name }
  match weaveCallable declaration none [] registry with
  | .error e => .error (.mistake (escapeMistake e))
  | .ok (some (.rejected e), _) => .error (.rejected [e])
  | .ok (some (.woven d), _) => .ok (some d)
  | .ok (none, _) => .ok none

/-- Weaves a function, publishes its wrapper, and gives the function back. -/
def weaveFunction (v preconditions postconditions : Value) : Comp Value := do
  addConditions v preconditions postconditions
  let h ← heap
  match h.object? v with
  | some (.function f) =>
    let globals := match f.code with
      | .block _ s _ | .result _ s => some s.globals
      | .checked .. => none
    let a ← ofOption .noAttribute globals
    let marked := (f.specs.getD {}).isInvariant
    let declaration := describeFunction h v f f.name .function marked
    match acceptFunction h (← namesAt a) declaration with
    | .error e => throw e
    | .ok none => pure v
    | .ok (some d) => do
      let w ← makeWrapper d
      setNameAt a d.publicName w
      pure v
  | _ => fail .noAttribute

/-! ## Decorators -/

/-- Applies a decorator that still waits for its target. -/
def applyDecorator (program : List Stmt) (d : Decorator) (v : Value) : Comp Value := do
  match d with
  | .contract invariants =>
    if (← heap).isType v then weaveClass program v invariants else refuseTarget v
  | .precondition conditions => do
    addConditions v conditions .none
    pure v
  | .postcondition conditions => do
    addConditions v .none conditions
    pure v
  | .invariant => do
    changeSpecs v fun s => { s with isInvariant := true }
    pure v
  | .constructor => do
    changeSpecs v fun s => { s with isConstructor := true }
    pure v
  | .functionContract pre post => weaveFunction v pre post
  | .setter getter _ => make (.property getter v)

/-- A decorator that is called with a function, or without one. -/
def markOr (program : List Stmt) (d : Decorator) (target : Option Value) : Comp Value :=
  match target with
  | some v => if v.isNone then make (.decorator d) else applyDecorator program d v
  | none => make (.decorator d)

/-- Calls a routine that declares contracts; nothing if the routine is another one. -/
def callDeclaring (program : List Stmt) (r : Routine) (args : List Value)
    (kwargs : Names Value) : Option (Comp Value) :=
  let get (place : Nat) (name : String) : Value :=
    (argument args kwargs place name).getD .none
  match r with
  | .contract => some do
    expect args kwargs 0 1 ["invariants"]
    let v := get 0 "invariants"
    let h ← heap
    if h.isType v then weaveClass program v .none
    else if isCallable h v then refuseTarget v
    else make (.decorator (.contract v))
  | .precondition => some do
    expect args kwargs 0 1 ["asserts"]
    let v ← ofOption .wrongType (argument args kwargs 0 "asserts")
    make (.decorator (.precondition v))
  | .postcondition => some do
    expect args kwargs 0 1 ["asserts"]
    let v ← ofOption .wrongType (argument args kwargs 0 "asserts")
    make (.decorator (.postcondition v))
  | .invariant => some do
    expect args kwargs 0 1 ["func"]
    markOr program .invariant (argument args kwargs 0 "func")
  | .constructor => some do
    expect args kwargs 0 1 ["func"]
    markOr program .constructor (argument args kwargs 0 "func")
  | .functionContract => some do
    expect args kwargs 0 2 ["preconditions", "postconditions"]
    make (.decorator (.functionContract (get 0 "preconditions") (get 1 "postconditions")))
  | .weaveClass => some do
    expect args kwargs 0 2 ["cls", "invariants"]
    let cls ← ofOption .wrongType (argument args kwargs 0 "cls")
    weaveClass program cls (get 1 "invariants")
  | .isContracted => some do
    expect args kwargs 0 1 ["obj"]
    let v ← ofOption .wrongType (argument args kwargs 0 "obj")
    let h ← heap
    pure (.bool (isContracted h v))
  | _ => none
where
  /-- Whether a value is a wrapper, a woven class or an instance of one. -/
  isContracted (h : Heap) (v : Value) : Bool :=
    let t := if h.isType v then v else h.typeOf v
    (h.contract? v).isSome
      || (h.lineOf t).any fun c => ((h.classInfo? c).bind (·.contract)).isSome

end Covenant.Machine
