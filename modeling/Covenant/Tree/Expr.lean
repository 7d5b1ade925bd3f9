import Covenant.Number.Binary64
import Covenant.Tree.Span

/-! # Expression trees

    The expressions of the condition language.

    * The forms that bind names, `lambda` and `comprehension`, and those that
      the analyses look at, `name`, `field` and `call`, are constructors
      of their own.
    * Every other form evaluates its parts in the scope that surrounds it;
      these are `compound`, told apart by a `Form`, with their parts in the
      order in which the parts are visited. -/

namespace Covenant.Tree

open Covenant.Number

/-- What an expression is used for at its place. -/
inductive Access where
  | load | store | delete
  deriving DecidableEq, Repr

/-- Constants written in a text. -/
inductive Constant where
  | none
  | ellipsis
  | bool (b : Bool)
  | int (n : Nat)
  | float (x : Binary64)
  /-- A number with only an imaginary part. -/
  | imaginary (x : Binary64)
  /-- `marked` records that the literal was written with the mark for Unicode text. -/
  | str (s : String) (marked : Bool)
  | bytes (bs : List UInt8)
  deriving DecidableEq

/-- Connectives that stop at the deciding operand. -/
inductive BoolOp where
  | and | or
  deriving DecidableEq

/-- Operators with two operands. -/
inductive BinOp where
  | add | sub | mult | matMult | div | mod | pow | shiftLeft | shiftRight
  | bitOr | bitXor | bitAnd | floorDiv
  deriving DecidableEq

/-- Operators with one operand. -/
inductive UnaryOp where
  | invert | not | plus | minus
  deriving DecidableEq

/-- Comparisons. -/
inductive CmpOp where
  | eq | notEq | lt | ltE | gt | gtE | is | isNot | member | notMember
  deriving DecidableEq

/-- The forms whose parts are all evaluated in the surrounding scope. -/
inductive Form where
  /-- Parts: the operands. -/
  | boolOp (op : BoolOp)
  /-- Parts: the target, the value. -/
  | namedExpr
  /-- Parts: the left and the right operand. -/
  | binOp (op : BinOp)
  /-- Parts: the operand. -/
  | unaryOp (op : UnaryOp)
  /-- Parts: the test, the value if it holds, the value if not. -/
  | ifExp
  /-- Parts: the keys of the items that have one, then the values of all items. -/
  | dict (keyed : List Bool)
  /-- Parts: the elements. -/
  | set
  /-- Parts: the awaited value. -/
  | await
  /-- Parts: the value, if any. -/
  | yield
  /-- Parts: the delegate. -/
  | yieldFrom
  /-- Parts: the operands, one more than the operators. -/
  | compare (ops : List CmpOp)
  /-- Parts: the value and, if there is one, the layout of the field. -/
  | formattedValue (conversion : Option Char)
  /-- Parts: constants and formatted values. -/
  | joinedStr
  /-- Parts: the container, the index. -/
  | subscript (access : Access)
  /-- Parts: the unpacked value. -/
  | starred (access : Access)
  /-- Parts: the elements. -/
  | list (access : Access)
  /-- Parts: the elements. -/
  | tuple (access : Access)
  /-- Parts: those of lower bound, upper bound and step that are present. -/
  | slice (lower upper step : Bool)
  deriving DecidableEq

/-- What a comprehension builds. -/
inductive ComprehensionKind where
  | list | set | dict | generator
  deriving DecidableEq

/-- A parameter name of a `lambda`. -/
structure Binder where
  span : Span
  name : String
  deriving DecidableEq

/-- The parameter names of a `lambda`; a named parameter says whether it has a default. -/
structure Binders where
  positionalOnly : List Binder
  positional : List Binder
  variadic : Option Binder
  named : List (Binder × Bool)
  variadicNamed : Option Binder
  deriving DecidableEq

/-- Every name that the parameters bind. -/
def Binders.names (b : Binders) : List String :=
  (b.positionalOnly ++ b.positional ++ b.named.map (·.1)
    ++ b.variadic.toList ++ b.variadicNamed.toList).map (·.name)

mutual

/-- An expression with the span it was read from. -/
inductive Expr where
  | name (span : Span) (id : String) (access : Access)
  | constant (span : Span) (value : Constant)
  | field (span : Span) (value : Expr) (attr : String) (access : Access)
  | call (span : Span) (func : Expr) (args : List Expr) (keywords : List Keyword)
  /-- Defaults of the named parameters that have one, then of the last positional ones. -/
  | lambda (span : Span) (binders : Binders) (namedDefaults defaults : List Expr) (body : Expr)
  /-- A comprehension of mappings has two elements, key and value; the others have one. -/
  | comprehension (span : Span) (kind : ComprehensionKind) (elements : List Expr)
      (generators : List Generator)
  | compound (span : Span) (form : Form) (parts : List Expr)

/-- A keyword argument; without a name it unpacks a mapping. -/
inductive Keyword where
  | mk (span : Span) (name : Option String) (value : Expr)

/-- One `for` part of a comprehension with its filters. -/
inductive Generator where
  | mk (target iter : Expr) (filters : List Expr) (isAsync : Bool)

end

instance : Inhabited Expr := ⟨.constant default .none⟩

namespace Expr

/-- The span of an expression. -/
def span : Expr → Span
  | .name s .. | .constant s _ | .field s .. | .call s .. | .lambda s ..
  | .comprehension s .. | .compound s .. => s

end Expr

/-- The value of a keyword argument. -/
def Keyword.value : Keyword → Expr
  | .mk _ _ v => v

/-- The name of a keyword argument. -/
def Keyword.name : Keyword → Option String
  | .mk _ n _ => n

/-! ## Equality up to positions -/

/-- The span that stands for "somewhere". -/
def nowhere : Span := ⟨⟨0, 0⟩, ⟨0, 0⟩⟩

/-- A parameter name without its place. -/
def Binder.unplaced (b : Binder) : Binder := { b with span := nowhere }

/-- Parameter names without their places. -/
def Binders.unplaced (b : Binders) : Binders where
  positionalOnly := b.positionalOnly.map Binder.unplaced
  positional := b.positional.map Binder.unplaced
  variadic := b.variadic.map Binder.unplaced
  named := b.named.map fun p => (p.1.unplaced, p.2)
  variadicNamed := b.variadicNamed.map Binder.unplaced

mutual

/-- The tree with every span forgotten; two trees are equal up to positions when these are. -/
def Expr.unplaced : Expr → Expr
  | .name _ id a => .name nowhere id a
  | .constant _ v => .constant nowhere v
  | .field _ v n a => .field nowhere v.unplaced n a
  | .call _ f as ks => .call nowhere f.unplaced (unplacedAll as) (unplacedKeywords ks)
  | .lambda _ b kd ds e =>
    .lambda nowhere b.unplaced (unplacedAll kd) (unplacedAll ds) e.unplaced
  | .comprehension _ k es gs =>
    .comprehension nowhere k (unplacedAll es) (unplacedGenerators gs)
  | .compound _ f ps => .compound nowhere f (unplacedAll ps)

/-- Forgets the spans of a list of trees. -/
def unplacedAll : List Expr → List Expr
  | [] => []
  | e :: es => e.unplaced :: unplacedAll es

/-- Forgets the spans of keyword arguments. -/
def unplacedKeywords : List Keyword → List Keyword
  | [] => []
  | .mk _ n v :: ks => .mk nowhere n v.unplaced :: unplacedKeywords ks

/-- Forgets the spans of the parts of a comprehension. -/
def unplacedGenerators : List Generator → List Generator
  | [] => []
  | .mk t i fs a :: gs =>
    .mk t.unplaced i.unplaced (unplacedAll fs) a :: unplacedGenerators gs

end

/-- Forgetting spans one by one is mapping over the list. -/
theorem unplacedAll_eq_map (es : List Expr) : unplacedAll es = es.map Expr.unplaced := by
  induction es with
  | nil => rfl
  | cons e es ih => simp [unplacedAll, ih]

/-- Two trees are equal up to positions. -/
def Expr.SameShape (a b : Expr) : Prop := a.unplaced = b.unplaced

end Covenant.Tree
