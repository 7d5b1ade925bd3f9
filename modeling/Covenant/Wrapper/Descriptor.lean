import Covenant.Condition.Rewrite
import Covenant.Condition.Soundness
import Covenant.Declaration.Validation
import Covenant.Digest
import Covenant.Document.Canonical
import Covenant.Signature.Basic
import Covenant.Wrapper.Plan

/-! # Descriptors — the complete plan of one wrapper

    A descriptor names the implementation and its public entry point, holds
    the signature, and every clause rewritten for the place where it is
    checked.  The wrapper that runs and the text that is emitted are both made
    from it. -/

namespace Covenant.Wrapper

open Condition Declaration Document Signature Covenant.Tree Value

/-- A clause rewritten for the place where it is checked, as text and as a tree. -/
structure EnforcedClause where
  text : String
  message : String
  enforced : String
  tree : Expr

/-- The plan of one wrapper. -/
structure Descriptor (α : Type) where
  owner : Option String
  internalName : String
  publicName : String
  role : Role
  isAsync : Bool
  signature : Signature α
  invariants : List EnforcedClause
  preconditions : List EnforcedClause
  postconditions : List EnforcedClause
  capturedFields : List String
  returns : Option String
  module : Option String
  implementation : Option α

variable {α β : Type}

/-- The name of an entry point within its owner. -/
def qualifiedName (owner : Option String) (publicName : String) : String :=
  match present owner with
  | some o => o ++ "." ++ publicName
  | none => publicName

namespace Descriptor

/-- The name of the entry point within its owner. -/
def qualname (d : Descriptor α) : String := qualifiedName d.owner d.publicName

/-- A constructor under a name of its own makes the instance itself. -/
def isFactory (d : Descriptor α) : Bool :=
  d.role = .constructor && d.publicName != publicInitializerName

/-- The steps in the order in which they are taken. -/
def steps (d : Descriptor α) : List Step :=
  plan d.role (!d.invariants.isEmpty) (!d.preconditions.isEmpty) (!d.capturedFields.isEmpty)
    (!d.postconditions.isEmpty)

/-- The descriptor with other values for defaults and implementation. -/
def map (f : α → β) (d : Descriptor α) : Descriptor β :=
  { d with
    signature := d.signature.map f
    implementation := d.implementation.map f }

end Descriptor

/-! ## Making a descriptor -/

/-- Why a clause cannot be enforced. -/
inductive EnforcementFault where
  | old (fault : OldFault)
  | splice (fault : SpliceFault)
  /-- The rewritten tree cannot be evaluated. -/
  | unsound
  deriving DecidableEq

/-- Rewrites a clause. -/
def enforce (s : Strategy) (c : ParsedClause) : Except EnforcementFault EnforcedClause := do
  let (tree, edits) ← (rewriteWithEdits s c.tree).mapError .old
  let text ← (splice (Text.strip c.text) edits).mapError .splice
  if sound false tree then .ok ⟨c.text, c.message, text, tree⟩ else .error .unsound

/-- The name of the receiver, if there is one. -/
def receiverOf (role : Role) (publicName : String) : Option String :=
  if role = .method ∨ publicName = publicInitializerName then some selfName
  else if role = .constructor then some "cls"
  else none

/-- The descriptor of a validated callable.  The parameters hide fields of their names, and
    in postconditions so does the result. -/
def describe (v : Validated α) (enclosing : Option (TypeDecl α)) :
    Except EnforcementFault (Descriptor α) := do
  let c := v.declaration
  let publicName := publicName c.name c.role
  let fields := match enclosing with
    | some t => t.fields
    | none => []
  let parameters := c.parameterNames ++ [selfName]
  let invariants ← v.invariants.mapM (enforce (Strategy.memberScope fields []))
  let preconditions ← v.preconditions.mapM (enforce (Strategy.memberScope fields parameters))
  let postconditions ← v.postconditions.mapM
    (enforce (Strategy.memberScope fields (parameters ++ [resultName])))
  pure {
    owner := enclosing.map (·.name)
    internalName := c.name
    publicName := publicName
    role := c.role
    isAsync := c.isAsync
    signature := reconstruct c.parameters c.typeParameters (receiverOf c.role publicName)
    invariants := invariants
    preconditions := preconditions
    postconditions := postconditions
    capturedFields := distinctFields v.references
    returns := c.returns
    module := (present c.module).or (enclosing.bind (·.module))
    implementation := c.implementation }

/-! ## Documents -/

/-- A clause as a document. -/
def EnforcedClause.toJson (c : EnforcedClause) : Json :=
  .obj [("condition", .str c.text), ("message", .str c.message), ("enforced", .str c.enforced)]

namespace Descriptor

/-- The texts of the defaults by name. -/
def defaultTexts (d : Descriptor Datum) : List (String × Json) :=
  (d.signature.declaration.filter (·.kind.isOptional)).foldl
    (fun fields p => Json.setField fields p.name (.str (defaultText p))) []

/-- The descriptor as a document. -/
def toJson (d : Descriptor Datum) : Json :=
  .obj [
    ("owner", Json.ofOption d.owner),
    ("module", Json.ofOption d.module),
    ("internal_name", .str d.internalName),
    ("public_name", .str d.publicName),
    ("role", .str d.role.text),
    ("async", .bool d.isAsync),
    ("signature", .obj [
      ("declaration", .str (d.signature.declarationText true none)),
      ("forwarding", .str d.signature.forwardingText),
      ("type_parameters", Json.ofTexts d.signature.typeParameters),
      ("defaults", .obj d.defaultTexts)]),
    ("returns", Json.ofOption d.returns),
    ("steps", Json.ofTexts (d.steps.map Step.text)),
    ("invariants", .arr (d.invariants.map EnforcedClause.toJson)),
    ("preconditions", .arr (d.preconditions.map EnforcedClause.toJson)),
    ("postconditions", .arr (d.postconditions.map EnforcedClause.toJson)),
    ("captured_fields", Json.ofTexts d.capturedFields)]

/-- The digest of the document. -/
def fingerprint (d : Descriptor Datum) : String := Digest.ofText (canonicalText d.toJson)

end Descriptor

end Covenant.Wrapper
