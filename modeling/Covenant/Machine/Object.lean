import Covenant.Capture
import Covenant.Machine.Run
import Covenant.Machine.Value
import Covenant.Signature.Binding
import Covenant.Tree.Stmt
import Covenant.Wrapper.Descriptor

/-! # Objects — what addresses stand for

    Everything that has an identity or can change is an object: collections,
    namespaces, classes, functions and their wrappers, instances.  Code is
    kept as the tree it was read from with the scope it was found in. -/

namespace Covenant.Machine

open Declaration Signature Covenant.Tree Wrapper

/-! ## Scopes -/

/-- A namespace of a call, with the names that are local to it. -/
structure Frame where
  names : Address
  locals : List String

/-- Where a piece of code looks names up. -/
structure Scope where
  /-- The namespace of the module. -/
  globals : Address
  /-- The namespaces of the enclosing calls, the innermost first. -/
  frames : List Frame := []
  /-- The namespace of the class whose body this is. -/
  body : Option Address := none
  /-- The class whose private names are meant. -/
  owner : Option String := none
  /-- What stands before the names of definitions made here. -/
  path : String := ""

/-! ## Functions -/

/-- The clauses and marks that decorators have put on a function. -/
structure Specs where
  preconditions : List Clause := []
  postconditions : List Clause := []
  isInvariant : Bool := false
  isConstructor : Bool := false

/-- What a function does when it is called. -/
inductive Code where
  | block (body : List Stmt) (scope : Scope) (locals : List String)
  | result (value : Expr) (scope : Scope)
  /-- A wrapper: the implementation it calls, and the slots that take the arguments. -/
  | checked (descriptor : Descriptor Value) (implementation : Value) (slots : List (Slot Value))

/-- A function. -/
structure FunctionInfo where
  name : String
  qualname : String
  module : Value := .none
  doc : Value := .none
  slots : List (Slot Value)
  /-- The declared types of the parameters, and of the result under `return`. -/
  hints : Names Value := []
  isAsync : Bool := false
  code : Code
  specs : Option Specs := none
  fields : Names Value := []

/-! ## Classes -/

/-- A class. -/
structure ClassInfo where
  name : String
  qualname : String
  module : Value := .none
  doc : Value := .none
  bases : List Value
  /-- The class and all that it inherits from, in the order of look-up. -/
  line : List Value
  fields : Names Value
  hints : Names Value := []
  slots : List String := []
  /-- Whether instances have room for any field, or only for the slots. -/
  isOpen : Bool := true
  /-- What the class declares by contract. -/
  contract : Option (TypeDecl Value) := none

/-! ## Objects -/

/-- What a decorator that was called with arguments still has to do. -/
inductive Decorator where
  | contract (invariants : Value)
  | precondition (conditions : Value)
  | postcondition (conditions : Value)
  | invariant
  | constructor
  | functionContract (preconditions postconditions : Value)
  | setter (getter : Value) (setter : Value)

/-- What is left to do when a coroutine is awaited. -/
inductive Pending where
  /-- Runs a function whose parameters are bound. -/
  | call (function : Address) (names : Names Value)
  /-- Runs a wrapper. -/
  | checked (function : Address) (receiver? : Option Value) (args : List Value)
      (kwargs : Names Value)
  /-- Lets the others have a turn. -/
  | turn

/-- An object. -/
inductive Object where
  | list (items : List Value)
  | tuple (items : List Value)
  | set (items : List Value)
  | frozenset (items : List Value)
  | dict (items : List (Value × Value))
  | bytearray (bytes : List UInt8)
  | names (entries : Names Value)
  | record (cls : Value) (fields : Names Value)
  | cls (info : ClassInfo)
  | function (info : FunctionInfo)
  /-- A function with its first argument. -/
  | bound (receiver function : Value)
  /-- A method of a basic type with its receiver. -/
  | method (receiver : Value) (name : String)
  | property (getter setter : Value)
  | static (function : Value)
  | classMethod (function : Value)
  | cachedProperty (function : Value)
  /-- The place for a field of instances without room for any field. -/
  | slot (name : String)
  /-- An instance seen as one of the classes after some class. -/
  | super (after : Value) (receiver : Value)
  | slice (lower upper step : Value)
  | decorator (d : Decorator)
  | generator (elements : List Expr) (parts : List Generator) (first : Value) (scope : Scope)
      (isSpent : Bool)
  | coroutine (pending : Pending) (isSpent : Bool)
  | captures (store : Captures Value)
  /-- A type with parameters, by its text. -/
  | parametric (text : String)
  /-- The place where a pattern was found. -/
  | found (text : String)

/-! ## The heap -/

/-- All objects by address. -/
structure Heap where
  objects : Array Object := #[]

namespace Heap

/-- The object at an address. -/
def get? (h : Heap) (a : Address) : Option Object := h.objects[a]?

/-- A new object with its address. -/
def add (h : Heap) (o : Object) : Address × Heap := (h.objects.size, ⟨h.objects.push o⟩)

/-- Replaces the object at an address. -/
def put (h : Heap) (a : Address) (o : Object) : Heap := ⟨h.objects.setIfInBounds a o⟩

/-- The object a value stands for. -/
def object? (h : Heap) : Value → Option Object
  | .ref a => h.get? a
  | _ => none

/-- A new object is found at its address. -/
theorem get?_add_self (h : Heap) (o : Object) : (h.add o).2.get? (h.add o).1 = some o := by
  simp [add, get?]

/-- Adding an object leaves the others as they are. -/
theorem get?_add_of_lt (h : Heap) (o : Object) {a : Address} (ha : a < h.objects.size) :
    (h.add o).2.get? a = h.get? a := by
  simp [add, get?, Array.getElem?_push, Nat.ne_of_lt ha]

/-- Replacing an object leaves the others as they are. -/
theorem get?_put_of_ne (h : Heap) (o : Object) {a b : Address} (hab : a ≠ b) :
    (h.put a o).get? b = h.get? b := by
  simp [put, get?, hab]

end Heap

/-! ## Computations -/

/-- A computation on the heap. -/
def Comp (α : Type) := Heap → Run Heap Thrown α

namespace Comp

variable {α β : Type}

instance : Monad Comp where
  pure a := fun s => .done a s
  bind x f := fun s => (x s).bind f

/-- Throws. -/
def throw (t : Thrown) : Comp α := fun s => .thrown t s

/-- Reports a mistake. -/
def fail (m : Mistake) : Comp α := throw (.mistake m)

/-- Turns what is thrown into a value. -/
def attempt (x : Comp α) : Comp (Except Thrown α) := fun s => (x s).attempt

/-- The heap of this moment. -/
def heap : Comp Heap := fun s => .done s s

/-- Makes an object. -/
def make (o : Object) : Comp Value := fun s =>
  let (a, s) := s.add o
  .done (.ref a) s

/-- Makes an object and gives its address. -/
def makeAt (o : Object) : Comp Address := fun s =>
  let (a, s) := s.add o
  .done a s

/-- Replaces an object. -/
def put (a : Address) (o : Object) : Comp Unit := fun s => .done () (s.put a o)

/-- The object a value stands for, if it is one. -/
def object? (v : Value) : Comp (Option Object) := fun s => .done (s.object? v) s

/-- Lets the others have a turn. -/
def turn : Comp Unit := fun s => .paused s fun t => .done () t

/-- Runs two computations by turns. -/
def together (x : Comp α) (y : Comp β) : Comp (α × β) := fun s => (x s).together y

/-- Runs computations by turns, the first one first. -/
def allTogether : List (Comp α) → Comp (List α)
  | [] => pure []
  | x :: xs => do
    let (a, rest) ← together x (allTogether xs)
    pure (a :: rest)

/-- Runs a computation to its end, whatever pauses there are. -/
def finish (x : Comp α) : Comp α := fun s =>
  match (x s).finish with
  | (.ok a, t) => .done a t
  | (.error e, t) => .thrown e t

/-- A value or a mistake. -/
def ofOption (m : Mistake) : Option α → Comp α
  | some a => pure a
  | none => fail m

/-- A list. -/
def list (items : List Value) : Comp Value := make (.list items)

/-- A tuple. -/
def tuple (items : List Value) : Comp Value := make (.tuple items)

end Comp

end Covenant.Machine
