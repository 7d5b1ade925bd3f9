import Covenant.Enforcement
import Covenant.Machine.Contract
import Covenant.Machine.Execute
import Covenant.Machine.Snapshot

/-! # Calls — what happens when a value is called

    A function binds its arguments and runs its body; a wrapper runs the plan
    of its descriptor; a class makes an instance and initializes it.  A call of
    a coroutine function gives a coroutine, whose body runs when it is awaited.

    Calls nest: `level n` can nest them `n` deep, each with the help of the
    level below, and reports that a program goes too deep beyond that. -/

namespace Covenant.Machine

open Covenant.Machine.Comp Declaration Signature Covenant.Tree Wrapper

/-! ## Functions -/

/-- What a parameter is bound to, as a value. -/
def boundValue : Bound Value → Comp Value
  | .one v => pure v
  | .many vs => Comp.tuple vs
  | .named ps => make (.dict (itemsOfNames ps))

/-- The names of a binding with their values. -/
def boundNamesOf (b : Binding Value) : Comp (Names Value) :=
  b.mapM fun p => do pure (p.1, ← boundValue p.2)

/-- A binding with the defaults for slots that are not bound; one that failed is a mistake. -/
def completed (slots : List (Slot Value)) (b : Except BindFault (Binding Value)) :
    Comp (Binding Value) :=
  match b with
  | .ok b => pure (applyDefaults slots b)
  | .error _ => fail .wrongType

/-- Runs the body of a function whose parameters are bound. -/
def runBody (host : Host) (f : FunctionInfo) (names : Names Value) : Comp Value := do
  match f.code with
  | .block body s locals => do
    let a ← makeAt (.names names)
    match ← executeAll host (s.inside a locals) body with
    | .returned v => pure v
    | _ => pure .none
  | .result e s => do
    let a ← makeAt (.names names)
    evaluate host (s.inside a (names.map (·.1))) e
  | .checked .. => fail .wrongType

/-! ## Wrappers -/

/-- The module namespace in which the clauses of an implementation are evaluated. -/
def globalsOf (h : Heap) (implementation : Value) : Option Address :=
  match h.object? implementation with
  | some (.function { code := .block _ s _, .. }) | some (.function { code := .result _ s, .. }) =>
    some s.globals
  | some (.function { code := .checked _ inner _, .. }) =>
    match h.object? inner with
    | some (.function { code := .block _ s _, .. })
    | some (.function { code := .result _ s, .. }) => some s.globals
    | _ => none
  | _ => none

/-- The names that a clause sees, with the reserved ones: the instance, and in postconditions the
    result and what was captured. -/
def withReserved (kind : ViolationKind) (a : Activation Value) (names : Names Value) :
    Comp (Names Value) := do
  let names := match a.receiver? with
    | some v => Names.set names selfName v
    | none => names
  if kind = .postcondition then do
    let store ← make (.captures (a.captures.getD {}))
    pure (Names.set (Names.set names resultName (a.result.getD .none)) lookupName store)
  else pure names

/-- The names that a clause of some kind sees: those of the module, then the arguments, then the
    reserved ones. -/
def clauseNames (implementation : Value) (kind : ViolationKind) (a : Activation Value) :
    Comp (Names Value) := do
  let module ← match globalsOf (← heap) implementation with
    | some g => namesAt g
    | none => pure []
  let names ← if kind = .invariant then pure module
    else do pure (Names.setAll module (← boundNamesOf a.arguments))
  withReserved kind a names

/-- How a wrapper asks the machine. -/
def surroundings (host : Host) (d : Descriptor Value) (implementation : Value) :
    Surroundings Comp Value where
  holds kind clause a := do
    let names ← makeAt (.names (← clauseNames implementation kind a))
    isTrue (← evaluate host { globals := names } clause.tree)
  preserve a field := do Comp.snapshot (← getField host (a.receiver?.getD .none) field)
  invoke a := do
    let (args, kwargs) := forward d.signature.declaration a.arguments
    let v ← host.call implementation (a.receiver?.toList ++ args) kwargs
    if d.isAsync then awaitValue host v else pure v
  violate v := throw (.violation v)

/-- Runs a wrapper around its implementation. -/
def runWrapper (host : Host) (d : Descriptor Value) (implementation : Value)
    (slots : List (Slot Value)) (receiver? : Option Value) (args : List Value)
    (kwargs : Names Value) : Comp Value := do
  let b ← completed slots (bindArguments slots args kwargs)
  let result ← (surroundings host d implementation).run d
    { receiver? := receiver?, arguments := b }
  pure (result.getD .none)

/-- The instance that a first argument is; the absence of a value is none. -/
def instanceOf (v : Value) : Option Value := if v.isNone then none else some v

/-- Calls a wrapper: a method takes its instance first, a factory its class, a function neither
    of them. -/
def callWrapper (host : Host) (a : Address) (d : Descriptor Value) (implementation : Value)
    (slots : List (Slot Value)) (args : List Value) (kwargs : Names Value) : Comp Value := do
  let start (receiver? : Option Value) (args : List Value) : Comp Value :=
    if d.isAsync then make (.coroutine (.checked a receiver? args kwargs) false)
    else runWrapper host d implementation slots receiver? args kwargs
  let receiver := if d.isFactory then "cls" else selfName
  match d.role, args with
  | .function, args => start none args
  | _, [] => fail .wrongType
  | role, v :: args =>
    if (kwargs.lookup receiver).isSome then fail .wrongType
    else if d.isFactory then do
      let made ← make (.record v [])
      runWrapper host d implementation slots (some made) args kwargs
    else if role = .constructor then do
      let _ ← runWrapper host d implementation slots (instanceOf v) args kwargs
      pure .none
    else start (instanceOf v) args

/-! ## Calling -/

/-- Calls a function. -/
def callFunction (host : Host) (a : Address) (f : FunctionInfo) (args : List Value)
    (kwargs : Names Value) : Comp Value := do
  match f.code with
  | .checked d implementation slots => callWrapper host a d implementation slots args kwargs
  | _ => do
    let names ← boundNamesOf (← completed f.slots (bindCall f.slots args kwargs))
    if f.isAsync then make (.coroutine (.call a names) false) else runBody host f names

/-- Makes an instance of a class and initializes it. -/
def makeInstance (host : Host) (v : Value) (c : ClassInfo) (args : List Value)
    (kwargs : Names Value) : Comp Value := do
  let h ← heap
  let made ← make (.record v [])
  match h.fieldInLine publicInitializerName c.line with
  | some field => do
    let method ← bindTo host made v field
    let result ← host.call method args kwargs
    if result.isNone then pure made else fail .wrongType
  | none =>
    let isException := c.line.any fun b => sameThing b (.type (.exception "BaseException"))
    if (args.isEmpty && kwargs.isEmpty) || isException then pure made else fail .wrongType

/-- Calls a value. -/
def callValue (host : Host) (program : List Stmt) (f : Value) (args : List Value)
    (kwargs : Names Value) : Comp Value := do
  let h ← heap
  match f, h.object? f with
  | .routine r, _ => (callDeclaring program r args kwargs).getD (callStandard host r args kwargs)
  | .type t, _ => makeBasic host t args kwargs
  | .ref a, some (.function info) => callFunction host a info args kwargs
  | _, some (.bound r g) =>
    match g, h.object? g with
    | .ref b, some (.function info) => callFunction host b info (r :: args) kwargs
    | g, _ => host.call g (r :: args) kwargs
  | _, some (.method r name) => callMethod host r name args kwargs
  | v, some (.cls c) => makeInstance host v c args kwargs
  | _, some (.decorator d) =>
    match args, kwargs with
    | [v], [] => applyDecorator program d v
    | _, _ => fail .wrongType
  | _, some (.captures c) => lookupCaptured c args
  | _, some (.static g) => host.call g args kwargs
  | v, some (.record c _) =>
    match h.fieldInLine "__call__" (h.lineOf c) with
    | some field => do host.call (← bindTo host v c field) args kwargs
    | none => fail .wrongType
  | _, _ => fail .wrongType

/-- Does what is left to do of a coroutine. -/
def resumePending (host : Host) : Pending → Comp Value
  | .turn => do
    turn
    pure .none
  | .call a names => do
    match (← heap).get? a with
    | some (.function f) => runBody host f names
    | _ => fail .wrongType
  | .checked a receiver? args kwargs => do
    match (← heap).get? a with
    | some (.function { code := .checked d implementation slots, .. }) =>
      runWrapper host d implementation slots receiver? args kwargs
    | _ => fail .wrongType

/-- Goes through what a comprehension produces, its first iterable being known. -/
def produceAll (host : Host) (elements : List Expr) (parts : List Generator) (first : Value)
    (s : Scope) (sink : Value → Comp Bool) : Comp Bool :=
  match parts with
  | [] => pure true
  | .mk t _ fs _ :: gs =>
    iterate host first fun v => do
      assign host s t v
      if ← allTrue host s fs then
        eachIn host s gs do
          match ← evaluateItems host s elements with
          | [x] => sink x
          | xs => do sink (← Comp.tuple xs)
      else pure true

/-! ## Levels -/

/-- Calls that nest up to some depth; the program is the text that classes are looked up
    in. -/
def level (program : List Stmt) : Nat → Host
  | 0 => {
      call := fun _ _ _ => fail .tooDeep
      resume := fun _ => fail .tooDeep
      produce := fun _ _ _ _ _ => fail .tooDeep }
  | n + 1 =>
    let host := level program n
    { call := callValue host program
      resume := resumePending host
      produce := produceAll host }

/-- How deep the calls of a program may nest. -/
def depthLimit : Nat := 900

end Covenant.Machine
