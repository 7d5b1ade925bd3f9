import Covenant.Declaration.Basic
import Covenant.Value.Constant

/-! # Signatures — the parameters of a wrapper

    A wrapper declares the parameters of its implementation, the required
    positional ones first, then optional ones, the variadic one, the named
    ones in their order, and the mapping of further names.  It passes
    positional arguments by position and named ones by name. -/

namespace Covenant

open Declaration Value

/-- The declared parameters of a wrapper with its type parameters and its receiver. -/
structure Signature (α : Type) where
  declaration : List (Parameter α)
  typeParameters : List String := []
  receiver : Option String := none

namespace Signature

/-- The place of a kind in a declaration. -/
def rank : ParameterKind → Nat
  | .requiredPositional => 0
  | .optionalPositional => 1
  | .variadicPositional => 2
  | .requiredNamed => 3
  | .optionalNamed => 3
  | .variadicNamed => 4

variable {α : Type}

/-- The parameters grouped by rank; within a group they keep their order. -/
def reconstruct (parameters : List (Parameter α)) (typeParameters : List String)
    (receiver : Option String) : Signature α where
  declaration := parameters.mergeSort fun p q => rank p.kind ≤ rank q.kind
  typeParameters := typeParameters
  receiver := receiver

/-- The signature with other values for defaults. -/
protected def map {β : Type} (f : α → β) (s : Signature α) : Signature β :=
  { s with declaration := s.declaration.map (·.map f) }

/-! ## Text -/

/-- A parameter as an argument of the forwarding call. -/
def forwarded (p : Parameter α) : String :=
  match p.kind with
  | .variadicPositional => "*" ++ p.name
  | .variadicNamed => "**" ++ p.name
  | .requiredNamed | .optionalNamed => p.name ++ "=" ++ p.name
  | _ => p.name

/-- The text of a default: as written, or as its value is spelled. -/
def defaultText (p : Parameter Datum) : String :=
  match p.defaultText with
  | some t => t
  | none =>
    match p.default with
    | some d => d.spell
    | none => "MISSING"

/-- Whether the default reads the same in any module. -/
def hasLiteralDefault (p : Parameter Datum) : Bool :=
  (readLiteral? (defaultText p)).isSome

/-- A parameter as it is declared.  A placeholder stands for a default that is no literal. -/
def parameterText (placeholder : Option String) (p : Parameter Datum) : String :=
  let star := match p.kind with
    | .variadicPositional => "*"
    | .variadicNamed => "**"
    | _ => ""
  let typeText := present p.typeText
  let typed := match typeText with
    | some a => ": " ++ a
    | none => ""
  let default :=
    if p.kind.isOptional then
      let equals := if typeText.isSome then " = " else "="
      let text := match present placeholder with
        | some t => if hasLiteralDefault p then defaultText p else t
        | none => defaultText p
      equals ++ text
    else ""
  star ++ p.name ++ typed ++ default

/-- The parts of a declaration with the marks between its groups.  The arguments are the
    number of parameters up to the last one that is only positional, and whether the star
    has been written. -/
def declarationParts (placeholder : Option String) :
    Nat → Bool → List (Parameter Datum) → List String
  | _, _, [] => []
  | slash, starred, p :: ps =>
    let opens := p.kind.isNamed && !starred
    (if opens then ["*"] else []) ++ [parameterText placeholder p]
      ++ (if slash = 1 then ["/"] else [])
      ++ declarationParts placeholder (slash - 1) (starred || opens) ps

/-- How many parameters there are up to the last one that is only positional. -/
def slashAfter (ps : List (Parameter α)) : Nat :=
  (ps.reverse.dropWhile fun p => !p.positionalOnly).length

/-- The parameter list of the wrapper's definition. -/
def declarationText (s : Signature Datum) (withReceiver : Bool) (placeholder : Option String) :
    String :=
  let hasVariadic := s.declaration.any (·.kind = .variadicPositional)
  ", ".intercalate
    ((if withReceiver then (present s.receiver).toList else [])
      ++ declarationParts placeholder (slashAfter s.declaration) hasVariadic s.declaration)

/-- The argument list of the call into the implementation. -/
def forwardingText (s : Signature α) : String :=
  ", ".intercalate (s.declaration.map forwarded)

/-- The type parameters in brackets. -/
def typeParameterText (s : Signature α) : String :=
  if s.typeParameters.isEmpty then "" else "[" ++ ", ".intercalate s.typeParameters ++ "]"

/-- The parameters whose defaults only the implementation can resolve. -/
def deferredDefaults (s : Signature Datum) : List (Parameter Datum) :=
  s.declaration.filter fun p => p.kind.isOptional && !hasLiteralDefault p

end Signature

end Covenant
