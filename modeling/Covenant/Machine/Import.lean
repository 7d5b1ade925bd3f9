import Covenant.Machine.Object

/-! # Imports — what modules provide -/

namespace Covenant.Machine

open Covenant.Machine.Comp

/-- What the module of contracts provides to those who ask for everything. -/
def contractNames : Names Value :=
  Routine.declaring.map (fun p => (p.1, .routine p.2))
    ++ ["weave", "render_module", "WeaveResult", "ConditionClause", "Parameter",
        "ContractedCallable", "ContractedType", "DeclarationTable"].map
      (fun n => (n, .routine (.other n)))
    ++ ["GenerationError", "GenerationFailed", "MalformedExpression", "InvalidOldArity",
        "InvalidOldOperand", "UnknownOldField", "ContractPlacementError", "DuplicatePublicName",
        "ContractViolation", "InvariantViolation", "PreconditionViolation",
        "PostconditionViolation"].map
      (fun n => (n, .type (.exception n)))

/-- What a module provides; nothing if there is no such module. -/
def provided (module : String) : Option (Names Value) :=
  match module with
  | "asyncio" => some [("sleep", .routine .sleep)]
  | "functools" => some [("cached_property", .routine .cachedProperty)]
  | "re" => some [("search", .routine .search)]
  | "contractweave" => some contractNames
  | "contractweave.decorators" =>
    some (contractNames ++ [("is_contracted", .routine .isContracted)])
  | "contractweave.core.errors" =>
    some (contractNames ++ [("ContractError", .type (.exception "ContractError")),
      ("MissingCapturedValue", .type (.exception "MissingCapturedValue"))])
  | _ => none

/-- The names that an import brings, with their values. -/
def imported (module : String) (names : List Tree.Alias) : Comp (Names Value) := do
  let available ← ofOption .noModule (provided module)
  let found ← names.mapM fun a =>
    if a.name = "*" then pure available
    else do
      let v ← ofOption .noImport (available.lookup a.name)
      pure [(a.asName.getD a.name, v)]
  pure found.flatten

end Covenant.Machine
