import Covenant.Machine.Standard
import Covenant.Source.Field
import Covenant.Tree.Preorder
import Covenant.Weaving

/-! # Describing classes and functions

    The declaration of a class that is there: its members that decorators have
    marked, the fields that its instances can be read, and the public names it
    has.  Fields that only methods assign are found in the text of the class,
    if there is one. -/

namespace Covenant.Machine

open Covenant.Machine.Comp Declaration Signature Covenant.Tree

/-! ## Declared types -/

/-- The text of a declared type as it is shown in a signature. -/
def Heap.hintText (h : Heap) (v : Value) : String :=
  match v, h.object? v with
  | .type t, _ => t.name
  | _, some (.cls c) => c.fullName
  | v, _ => h.spell v

/-- The text of a declared type in a declaration, where a text stands for itself. -/
def Heap.declaredText (h : Heap) (v : Value) : String :=
  match v with
  | .atom (.str s) => s
  | v => h.hintText v

/-! ## Callables -/

/-- The kind of a parameter that is passed in some way. -/
def kindOf (s : Slot Value) : ParameterKind :=
  match s.passing, s.default.isSome with
  | .variadic, _ => .variadicPositional
  | .variadicNamed, _ => .variadicNamed
  | .namedOnly, true => .optionalNamed
  | .namedOnly, false => .requiredNamed
  | _, true => .optionalPositional
  | _, false => .requiredPositional

/-- The declared parameter for a slot. -/
def describeSlot (h : Heap) (hints : Names Value) (s : Slot Value) : Parameter Value where
  name := s.name
  kind := kindOf s
  typeText := (hints.lookup s.name).map h.declaredText
  default := s.default
  positionalOnly := s.passing = .positionalOnly

/-- A text, if a value is one. -/
def text? (v : Value) : Option String :=
  match v with
  | .atom (.str s) => some s
  | _ => none

/-- The declaration of a function. -/
def describeFunction (h : Heap) (implementation : Value) (f : FunctionInfo) (name : String)
    (role : Role) (applyInvariants : Bool) : Callable Value :=
  let specs := f.specs.getD {}
  { name := name
    role := role
    parameters := (f.slots.drop (if role = .function then 0 else 1)).map (describeSlot h f.hints)
    isAsync := f.isAsync
    preconditions := specs.preconditions
    postconditions := specs.postconditions
    applyInvariants := applyInvariants
    implementation := some implementation
    returns := (f.hints.lookup "return").map h.declaredText
    module := text? f.module }

/-! ## Fields -/

mutual

/-- The class of a full name in a statement. -/
def classIn (qualname path : String) : Stmt → Option Stmt
  | .cls h b =>
    if path ++ h.name = qualname then some (.cls h b)
    else classInBlock qualname (path ++ h.name ++ ".") b
  | .function h b => classInBlock qualname (path ++ h.name ++ ".<locals>.") b
  | .forEach _ _ _ b o | .loop _ b o | .branch _ b o =>
    (classInBlock qualname path b).or (classInBlock qualname path o)
  | .within _ _ b => classInBlock qualname path b
  | _ => none

/-- The first class of a full name in a block. -/
def classInBlock (qualname path : String) : List Stmt → Option Stmt
  | [] => none
  | s :: ss => (classIn qualname path s).or (classInBlock qualname path ss)

end

/-- The fields of instances that the text of a class assigns to, in the order of the text. -/
def assignedFields (program : List Stmt) (c : ClassInfo) : List String :=
  match classInBlock c.qualname "" program with
  | some s => s.preorder Source.assignedField?
  | none => []

/-- Whether a field of a class can be read from instances as a value. -/
def isReadable (h : Heap) (v : Value) : Bool :=
  match h.object? v with
  | some (.property ..) => true
  | some (.static _) | some (.classMethod _) => false
  | some (.cachedProperty _) => true
  | _ => !isCallable h v

/-- The fields that one class of a line contributes. -/
def ownFields (h : Heap) (program : List Stmt) (v : Value) : List String :=
  match v, h.classInfo? v with
  | .type (.exception "BaseException"), _ => ["args"]
  | _, some c =>
    c.hints.map (·.1) ++ c.slots
      ++ (c.fields.filter fun p => isReadable h p.2).map (·.1)
      ++ assignedFields program c
  | _, none => []

/-- The readable fields of a class, those of the most general class first. -/
def fieldsOf (h : Heap) (program : List Stmt) (c : ClassInfo) : List String :=
  (c.line.dropLast.reverse.map (ownFields h program)).foldl Source.addFields []

/-! ## Classes -/

/-- A private name as it was written in its class. -/
def writtenName (cls name : String) : String :=
  let front := "_" ++ String.ofList (cls.toList.dropWhile (· = '_')) ++ "__"
  if front.isPrefixOf name && front.length < name.length then
    String.ofList (name.toList.drop (front.length - 2))
  else name

/-- The clauses and marks of a function. -/
def specsOf (h : Heap) (v : Value) : Option Specs :=
  match h.object? v with
  | some (.function f) => f.specs
  | _ => none

/-- What a member of a class declares: nothing, a callable or a mistake. -/
def describeMember (h : Heap) (c : ClassInfo) (field : String × Value) :
    Except GenerationError (Option (Callable Value)) :=
  let name := writtenName c.name field.1
  let bound (f : Value) (kind : String) : Except GenerationError (Option (Callable Value)) :=
    if (specsOf h f).isSome then
      .error { cause := .placement (.boundMember name kind), typeName := some c.name,
               callableName := some name }
    else .ok none
  match h.object? field.2 with
  | some (.static f) => bound f "staticmethod"
  | some (.classMethod f) => bound f "classmethod"
  | some (.function f) =>
    -- the initializer takes part without being marked
    if f.specs.isNone && name != initializerName then .ok none
    else
      let isConstructor := name == initializerName || (f.specs.getD {}).isConstructor
      let role : Role := if isConstructor then .constructor else .method
      .ok (some (describeFunction h field.2 f name role true))
  | _ => .ok none

/-- The declaration of a class with some invariants. -/
def describeClass (h : Heap) (program : List Stmt) (c : ClassInfo) (invariants : List Clause) :
    Except GenerationError (TypeDecl Value) := do
  let members ← c.fields.mapM (describeMember h c)
  pure {
    name := c.name
    invariants := invariants
    callables := members.filterMap id
    fields := fieldsOf h program c
    members := (c.fields.map (·.1)).filter Source.isPublicMember
    module := text? c.module }

end Covenant.Machine
