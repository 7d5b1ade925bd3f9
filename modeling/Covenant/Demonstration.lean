import Covenant.Machine.Session
import Covenant.Wrapper.Emission

/-! # Demonstrations — three short runs with what they print

    A declared ledger is emitted as text; the same ledger, written as a
    program, has a wrong implementation that its wrapper catches; and a
    declaration that refers to no field is rejected. -/

namespace Covenant.Demonstration

open Declaration Machine Weaving Wrapper
open Covenant.Value (Datum)

/-- The demonstrations. -/
inductive Which where
  | emit | live | rejected
  deriving DecidableEq, Repr

/-- The demonstration of a name. -/
def Which.ofText? : String → Option Which
  | "emit" => some .emit
  | "live" => some .live
  | "rejected" => some .rejected
  | _ => none

/-- The head of a demonstration. -/
def banner (number : Nat) (title : String) : String :=
  let rule := String.ofList (List.replicate 70 '=')
  s!"\n{rule}\nExample {number}: {title}\n{rule}\n"

/-! ## A declared ledger -/

/-- A ledger whose total stays above zero and grows by what is added. -/
def ledger : TypeDecl Datum where
  name := "Ledger"
  invariants := [⟨"total >= 0", "total must be non-negative"⟩]
  fields := ["total"]
  callables := [{
    name := "_add"
    preconditions := [⟨"amount > 0", "amount must be positive"⟩]
    postconditions := [⟨"result == old(total) + amount", "total must grow by amount"⟩]
    applyInvariants := true }]

/-- The module emitted for the ledger. -/
def emitted : String :=
  match weave { types := [ledger] } with
  | .ok r =>
    match renderModule r.descriptors none with
    | .ok text => text ++ "\n"
    | .error _ => ""
  | .error _ => ""

/-! ## Programs -/

/-- Lines as a program text. -/
def program (lines : List String) : String := String.join (lines.map (· ++ "\n"))

/-- A ledger that adds twice what it is asked to. -/
def wrongLedger : String := program [
  "from contractweave import *",
  "@contract(\x7b'total >= 0': 'total must be non-negative'\x7d)",
  "class Ledger:",
  "    total: int",
  "    def __init__(self, total=0):",
  "        self.total = total",
  "    @postcondition(\x7b'result == old(total) + amount': 'total must grow by amount'\x7d)",
  "    def _add(self, amount):",
  "        self.total += amount * 2",
  "        return self.total"]

/-- A ledger whose postcondition refers to the old value of a sum. -/
def rejectedLedger : String := program [
  "from contractweave import *",
  "@contract",
  "class Ledger:",
  "    total: int",
  "    @postcondition(\x7b'result == old(total + 1)': 'never valid'\x7d)",
  "    def _bump(self):",
  "        return self.total"]

/-- What ends the statements of a program text, each with what follows it. -/
def outcomes (text : String) : List (Except Thrown Unit) × Session :=
  match Grammar.readProgram? text.toList with
  | some stmts => (Session.start "__main__" stmts).executeEach stmts
  | none => ([], Session.start "__main__" [])

/-- What is printed about a broken promise. -/
def caught : Except Thrown Value → String
  | .error (.violation v) => s!"\nCaught: {v.message} (clause: {v.clause})\n"
  | _ => ""

/-- What is printed about rejected declarations. -/
def rejections : Except Thrown Unit → String
  | .error (.rejected es) => String.join (es.map fun e => "\n" ++ e.text ++ "\n")
  | _ => ""

/-- What a demonstration prints. -/
def printed : Which → String
  | .emit => banner 1 "Generated Source" ++ emitted
  | .live =>
    let (_, s) := outcomes wrongLedger
    banner 2 "Live Wrappers" ++ caught (s.perform (s.evaluateText "Ledger(10).add(5)")).1
  | .rejected =>
    banner 3 "Rejected Declaration" ++ String.join ((outcomes rejectedLedger).1.map rejections)

end Covenant.Demonstration
