import Covenant.Text.Blank
import Covenant.Wrapper.Body

/-! # Emission — the text of a module of wrappers

    The wrappers of a type are the methods of a class, indented; those of
    functions stand alone.  Clause texts are pasted as they were rewritten;
    messages are written as literals on one line. -/

namespace Covenant.Wrapper

open Declaration Signature Text Value

/-- A private member is named through its owner, and there is none. -/
inductive EmissionFault where
  | noOwner
  deriving DecidableEq, Repr

/-- The default that stands for one only the implementation can resolve. -/
def placeholder : String := "UNSET"

/-- The first lines of an emitted module. -/
def moduleHeader : List String :=
  ["# Generated by contractweave. Do not edit by hand.",
   "",
   "from __future__ import annotations",
   "",
   "from contractweave.core.errors import InvariantViolation, PostconditionViolation, PreconditionViolation",
   "from contractweave.runtime import UNSET, CaptureStore, implementation_default"]

/-- Indents every line of a text that has more than blanks by four blanks. -/
def indentBlock (text : String) : String :=
  String.ofList ((layoutLines text.toList).flatMap fun line =>
    if line.all isBlank then line else ' ' :: ' ' :: ' ' :: ' ' :: line)

/-- A name with the name of its owner in front, as a class stores it. -/
def mangled (owner name : String) : String :=
  "_" ++ String.ofList (owner.toList.dropWhile (· = '_')) ++ name

namespace Descriptor

/-- The expression for the implementation. -/
def implementationText {α : Type} (d : Descriptor α) : Except EmissionFault String :=
  if d.role = .function then .ok d.internalName
  else if "__".isPrefixOf d.internalName then
    match d.owner with
    | some owner => .ok (selfName ++ "." ++ mangled owner d.internalName)
    | none => .error .noOwner
  else .ok (selfName ++ "." ++ d.internalName)

/-- The call of the implementation. -/
def invocationText {α : Type} (d : Descriptor α) : Except EmissionFault String := do
  let called ← d.implementationText
  let call := called ++ "(" ++ d.signature.forwardingText ++ ")"
  pure (if d.isAsync then "await " ++ call else call)

/-- The lines of a statement that raises a violation unless a clause holds. -/
def checkLines {α : Type} (d : Descriptor α) (kind : ViolationKind) (c : EnforcedClause) :
    List String :=
  ["if not (" ++ c.enforced ++ "):",
   "    raise " ++ kind.name ++ "(" ++ quote c.message ++ ", clause=" ++ quote c.text
     ++ ", qualname=" ++ quote d.qualname ++ ")"]

/-- The lines of a statement. -/
def statementLines {α : Type} (d : Descriptor α) :
    Statement → Except EmissionFault (List String)
  | .makeInstance => .ok [selfName ++ " = cls.__new__(cls)"]
  | .resolveDefault name => do
    let called ← d.implementationText
    .ok ["if " ++ name ++ " is " ++ placeholder ++ ":",
      "    " ++ name ++ " = implementation_default(" ++ called ++ ", " ++ quote name ++ ")"]
  | .check kind c => .ok (d.checkLines kind c)
  | .openStore => .ok [lookupName ++ " = CaptureStore()"]
  | .capture field =>
    .ok [lookupName ++ ".capture(" ++ quote field ++ ", " ++ selfName ++ "." ++ field ++ ")"]
  | .invoke .receiver => do
    let call ← d.invocationText
    .ok [call, resultName ++ " = " ++ selfName]
  | .invoke .outcome => do
    let call ← d.invocationText
    .ok [resultName ++ " = " ++ call]
  | .returnResult => .ok ["return " ++ resultName]
  | .returnInstance => .ok ["return " ++ selfName]

/-- The lines up to the body. -/
def headLines (d : Descriptor Datum) : List String :=
  let keyword := if d.isAsync then "async def " else "def "
  let returns := match present d.returns with
    | some r => " -> " ++ r
    | none => ""
  (if d.isFactory then ["@classmethod"] else [])
    ++ [keyword ++ d.publicName ++ d.signature.typeParameterText ++ "("
      ++ d.signature.declarationText true (some placeholder) ++ ")" ++ returns ++ ":"]

/-- The text of a wrapper. -/
def render (d : Descriptor Datum) : Except EmissionFault String := do
  let opening := "\"\"\"Contract-checked entry point for " ++ d.internalName ++ ".\"\"\""
  let body ← d.body.mapM d.statementLines
  let block := indentBlock ("\n".intercalate (opening :: body.flatten))
  pure ("\n".intercalate (d.headLines ++ [block]))

end Descriptor

/-- The text of the class that holds the wrappers of a type. -/
def renderType (owner : String) (ds : List (Descriptor Datum)) : Except EmissionFault String := do
  let opening := "\"\"\"Contract-checked public entry points for " ++ owner ++ ".\"\"\""
  let members ← ds.mapM Descriptor.render
  pure ("\n".intercalate
    (("class " ++ mixinName owner ++ ":") :: indentBlock opening
      :: members.flatMap fun m => ["", indentBlock m]))

/-- The owners of descriptors, each once, in the order in which they come up. -/
def owners (ds : List (Descriptor Datum)) : List String :=
  (ds.filterMap (·.owner)).foldl (fun seen o => if seen.contains o then seen else seen ++ [o]) []

/-- The text of a module with all wrappers.  The implementations of functions are imported
    from their module if it is known. -/
def renderModule (ds : List (Descriptor Datum)) (sourceModule : Option String) :
    Except EmissionFault String := do
  let functions := ds.filter (·.owner.isNone)
  let importing := match present sourceModule with
    | some m =>
      if functions.isEmpty then []
      else ["from " ++ m ++ " import " ++ ", ".intercalate (functions.map (·.internalName))]
    | none => []
  let types ← (owners ds).mapM fun o => renderType o (ds.filter (·.owner == some o))
  let wrappers ← functions.mapM Descriptor.render
  let blocks := (types ++ wrappers).flatMap fun block => ["", "", block]
  pure ("\n".intercalate (moduleHeader ++ importing ++ blocks) ++ "\n")

end Covenant.Wrapper
