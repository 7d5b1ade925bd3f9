import Covenant.Names
import Covenant.Value.Datum

/-! # Values of the machine

    A value is an atom without identity, a type or a routine that is there
    from the start, or the address of an object.  Two values are the same
    thing exactly when they are equal as data. -/

namespace Covenant.Machine

open Covenant.Value (Datum)

/-- The place of an object. -/
abbrev Address := Nat

/-- The types that are there from the start. -/
inductive BasicType where
  | object | type | none | ellipsis | bool | int | float | complex | str | bytes | bytearray
  | list | tuple | set | frozenset | dict | range | slice | decimal | fraction
  | function | method | routine | property | staticMethod | classMethod | cachedProperty
  | super | generator | coroutine | module | parametric | found | captures
  /-- An exception, by its name. -/
  | exception (name : String)
  deriving DecidableEq, Repr

namespace BasicType

/-- The name of a type. -/
def name : BasicType → String
  | object => "object"
  | type => "type"
  | none => "NoneType"
  | ellipsis => "ellipsis"
  | bool => "bool"
  | int => "int"
  | float => "float"
  | complex => "complex"
  | str => "str"
  | bytes => "bytes"
  | bytearray => "bytearray"
  | list => "list"
  | tuple => "tuple"
  | set => "set"
  | frozenset => "frozenset"
  | dict => "dict"
  | range => "range"
  | slice => "slice"
  | decimal => "Decimal"
  | fraction => "Fraction"
  | function => "function"
  | method => "method"
  | routine => "builtin_function_or_method"
  | property => "property"
  | staticMethod => "staticmethod"
  | classMethod => "classmethod"
  | cachedProperty => "cached_property"
  | super => "super"
  | generator => "generator"
  | coroutine => "coroutine"
  | module => "module"
  | parametric => "GenericAlias"
  | found => "Match"
  | captures => "CaptureStore"
  | exception name => name

/-- The types that have a name everywhere. -/
def named : List BasicType :=
  [object, type, bool, int, float, complex, str, bytes, bytearray, list, tuple, set, frozenset,
   dict, range, slice, property, staticMethod, classMethod, super]

end BasicType

/-- Each exception with the one it is a kind of. -/
def exceptionParents : List (String × String) :=
  [("Exception", "BaseException"), ("ArithmeticError", "Exception"),
   ("AssertionError", "Exception"), ("AttributeError", "Exception"),
   ("EOFError", "Exception"), ("ImportError", "Exception"),
   ("LookupError", "Exception"), ("MemoryError", "Exception"), ("NameError", "Exception"),
   ("OSError", "Exception"), ("RuntimeError", "Exception"), ("StopIteration", "Exception"),
   ("StopAsyncIteration", "Exception"), ("SyntaxError", "Exception"), ("TypeError", "Exception"),
   ("ValueError", "Exception"), ("Warning", "Exception"),
   ("FloatingPointError", "ArithmeticError"), ("OverflowError", "ArithmeticError"),
   ("ZeroDivisionError", "ArithmeticError"), ("ModuleNotFoundError", "ImportError"),
   ("IndexError", "LookupError"), ("KeyError", "LookupError"),
   ("UnboundLocalError", "NameError"), ("FileNotFoundError", "OSError"),
   ("PermissionError", "OSError"), ("TimeoutError", "OSError"), ("ConnectionError", "OSError"),
   ("NotImplementedError", "RuntimeError"), ("RecursionError", "RuntimeError"),
   ("IndentationError", "SyntaxError"), ("TabError", "IndentationError"),
   ("UnicodeError", "ValueError"), ("UnicodeDecodeError", "UnicodeError"),
   ("UserWarning", "Warning"), ("KeyboardInterrupt", "BaseException"),
   ("SystemExit", "BaseException"), ("GeneratorExit", "BaseException")]

/-- The exceptions of contracts with those they are kinds of. -/
def contractExceptionParents : List (String × String) :=
  [("ContractError", "Exception"), ("GenerationError", "ContractError"),
   ("GenerationFailed", "ContractError"), ("MalformedExpression", "GenerationError"),
   ("InvalidOldArity", "GenerationError"), ("InvalidOldOperand", "GenerationError"),
   ("UnknownOldField", "GenerationError"), ("ContractPlacementError", "GenerationError"),
   ("DuplicatePublicName", "GenerationError"), ("ContractViolation", "AssertionError"),
   ("InvariantViolation", "ContractViolation"), ("PreconditionViolation", "ContractViolation"),
   ("PostconditionViolation", "ContractViolation")]

/-- An exception with all it is a kind of; the length of the line bounds the search. -/
def exceptionLine : Nat → String → List String
  | 0, name => [name]
  | fuel + 1, name =>
    match (exceptionParents ++ contractExceptionParents).lookup name with
    | some parent => name :: exceptionLine fuel parent
    | none => [name]

/-- A basic type with all it is a kind of, the nearest first. -/
def BasicType.line : BasicType → List BasicType
  | .object => [.object]
  | .bool => [.bool, .int, .object]
  | .exception name => (exceptionLine 8 name).map .exception ++ [.object]
  | t => [t, .object]

/-- The routines that are there from the start or can be imported. -/
inductive Routine where
  | abs | all | any | callable | divmod | enumerate | getattr | globals | hasattr | isinstance
  | issubclass | len | max | min | repr | reversed | round | setattr | sorted | sum | zip
  | cachedProperty | search | sleep
  | contract | precondition | postcondition | invariant | constructor | functionContract
  | weaveClass | isContracted
  /-- A name that can be imported and passed on; it cannot be called. -/
  | other (name : String)
  deriving DecidableEq, Repr

namespace Routine

/-- The routines that have a name everywhere. -/
def named : List (String × Routine) :=
  [("abs", abs), ("all", all), ("any", any), ("callable", callable), ("divmod", divmod),
   ("enumerate", enumerate), ("getattr", getattr), ("globals", globals), ("hasattr", hasattr),
   ("isinstance", isinstance), ("issubclass", issubclass), ("len", len), ("max", max),
   ("min", min), ("repr", repr), ("reversed", reversed), ("round", round), ("setattr", setattr),
   ("sorted", sorted), ("sum", sum), ("zip", zip)]

/-- The routines that declare contracts. -/
def declaring : List (String × Routine) :=
  [("contract", contract), ("precondition", precondition), ("postcondition", postcondition),
   ("invariant", invariant), ("constructor", constructor),
   ("function_contract", functionContract), ("weave_class", weaveClass)]

end Routine

/-- A value. -/
inductive Value where
  /-- A value without identity and without parts: a number, a text, nothing, … -/
  | atom (d : Datum)
  | type (t : BasicType)
  | routine (r : Routine)
  | module (name : String)
  | ref (address : Address)

instance : Inhabited Value := ⟨.atom .none⟩

namespace Value

/-- The absence of a value. -/
def none : Value := .atom .none

/-- A truth value. -/
def bool (b : Bool) : Value := .atom (.bool b)

/-- A whole number. -/
def int (n : Int) : Value := .atom (.int n)

/-- A text. -/
def str (s : String) : Value := .atom (.str s)

/-- Whether a value is the absence of one. -/
def isNone : Value → Bool
  | .atom .none => true
  | _ => false

end Value

/-- The names that are known everywhere. -/
def builtinNames : Names Value :=
  BasicType.named.map (fun t => (t.name, .type t))
    ++ ("BaseException" :: exceptionParents.map (·.1)).map (fun n => (n, .type (.exception n)))
    ++ Routine.named.map (fun p => (p.1, .routine p.2))
    ++ [("Ellipsis", .atom .ellipsis), ("__name__", .str "builtins")]

end Covenant.Machine
