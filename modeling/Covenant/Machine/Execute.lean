import Covenant.Machine.Evaluate
import Covenant.Machine.Line

/-! # Execution of statements

    A block is executed statement by statement until one of them returns or
    leaves a loop.  A definition evaluates its decorators, then its defaults
    and declared types, and applies the decorators from the innermost to the
    outermost.  The body of a class is executed in a namespace of its own. -/

namespace Covenant.Machine

open Covenant.Value (Datum)
open Covenant.Machine.Comp Signature Covenant.Tree

/-- How a statement ends. -/
inductive Flow where
  | next
  | returned (value : Value)
  | left
  | again

/-! ## Definitions -/

/-- The text that stands at the start of a body. -/
def docOf : List Stmt → Value
  | .expr (.constant _ (.str t _)) :: _ => .str t
  | _ => .none

/-- Whether a scope is that of a call. -/
def Scope.isCall (s : Scope) : Bool := s.body.isNone && !s.frames.isEmpty

/-- The function that a definition makes. -/
def makeFunction (s : Scope) (h : FunctionHead) (body : List Stmt) (defaults : List Value)
    (namedValues : List (Option Value)) (hints : Names Value) : Comp Value := do
  let fs := h.formals
  let nameOf (f : Formal) : String := s.nameHere f.name
  let qualname := s.path ++ h.name
  let slots := slotsOf (fs.positionalOnly.map nameOf) (fs.positional.map nameOf) defaults
    (fs.variadic.map nameOf) ((fs.named.map fun p => nameOf p.1).zip namedValues)
    (fs.variadicNamed.map nameOf)
  let locals := localNames (slots.map (·.name)) body
  make (.function {
    name := h.name
    qualname := qualname
    module := ← moduleName s
    doc := docOf body
    slots := slots
    hints := hints
    isAsync := h.isAsync
    code := .block body { s with body := none, path := qualname ++ ".<locals>." }
      (locals.map s.nameHere) })

/-- Applies decorators from the last to the first. -/
def decorate (host : Host) (decorators : List Value) (v : Value) : Comp Value :=
  decorators.foldrM (fun d v => host.call d [v] []) v

/-- The names that a class gives to its slots, as far as it has any. -/
def slotNamesOf (host : Host) (fields : Names Value) : Comp (Option (List String)) :=
  match fields.lookup "__slots__" with
  | none => pure none
  | some (.atom (.str s)) => pure (some [s])
  | some v => do pure (some (← (← itemsOf host v).mapM textOf))

/-- Whether a class without slots of its own could be a base, and whether its instances have
    room for any field. -/
def isOpenBase (h : Heap) (v : Value) : Bool :=
  match v with
  | .type (.exception _) => true
  | .type _ => false
  | v => ((h.classInfo? v).map (·.isOpen)).getD true

/-- The class that a body has filled a namespace for. -/
def makeClass (host : Host) (s : Scope) (name : String) (bases : List Value)
    (entries : Names Value) (doc : Value) : Comp Value := do
  let h ← heap
  let bases := if bases.isEmpty then [.type .object] else bases
  if !bases.all h.isType || bases.any (fun b => sameThing b (.type .bool)) then fail .wrongType
  let after ← ofOption .wrongType (h.lineAfter bases)
  let hints ← match entries.lookup "__annotations__" with
    | some (.ref a) => namesAt a
    | _ => pure []
  let fields := Names.erase "__annotations__" entries
  let slots ← slotNamesOf host fields
  let mangled := (slots.getD []).map (privateName (some name))
  if mangled.any fun n => (fields.lookup n).isSome then fail .wrongValue
  let sorted := (mangled.filter fun n => n != "__dict__").mergeSort fun a b => a ≤ b
  let descriptors ← sorted.mapM fun n => do
    let d ← make (.slot n)
    pure (n, d)
  let a ← makeAt (.list [])
  put a (.cls {
    name := name
    qualname := s.path ++ name
    module := ← moduleName s
    doc := doc
    bases := bases
    line := .ref a :: after
    fields := fields ++ descriptors
    hints := hints
    slots := slots.getD []
    isOpen := slots.isNone || mangled.contains "__dict__" || bases.any (isOpenBase h) })
  pure (.ref a)

/-- Records the declared type of a name in a module or a class. -/
def declareType (s : Scope) (name : String) (hint : Value) : Comp Unit := do
  let home := s.body.getD s.globals
  match (← namesAt home).lookup "__annotations__" with
  | some (.ref a) => setNameAt a name hint
  | _ => do
    let v ← make (.names [(name, hint)])
    setNameAt home "__annotations__" v

/-! ## Exceptions -/

/-- What raising a value throws. -/
def thrownBy (v : Value) : Comp Thrown := do
  let h ← heap
  let t := if h.isType v then v else h.typeOf v
  let isException := (h.lineOf t).any fun c => sameThing c (.type (.exception "BaseException"))
  if isException then pure (.mistake (Mistake.ofException (h.typeName t)))
  else pure (.mistake .wrongType)

/-! ## Statements -/

/-- The values of parameters' defaults and types. -/
def evaluateOption (host : Host) (s : Scope) : Option Expr → Comp (Option Value)
  | none => pure none
  | some e => do pure (some (← evaluate host s e))

/-- The declared types of a function's parameters and result. -/
def hintsOf (host : Host) (s : Scope) (h : FunctionHead) : Comp (Names Value) := do
  let fs := h.formals
  let all := fs.positional ++ fs.positionalOnly ++ fs.variadic.toList ++ fs.named.map (·.1)
    ++ fs.variadicNamed.toList
  let found ← all.mapM fun f => do
    match ← evaluateOption host s f.hint with
    | some v => pure [(s.nameHere f.name, v)]
    | none => pure []
  let result ← evaluateOption host s h.returns
  pure (found.flatten ++ (result.map fun v => ("return", v)).toList)

/-- Removes what a target stands for. -/
def deleteTarget (host : Host) (s : Scope) : Expr → Comp Unit
  | .name _ id _ => remove s (s.nameHere id)
  | .field _ e attr _ => do deleteField (← evaluate host s e) (s.nameHere attr)
  | .compound _ (.subscript _) [e, i] => do
    let c ← evaluate host s e
    deleteItem c (← evaluate host s i)
  | _ => fail .unreadable

/-- Changes what a target stands for by an operator. -/
def updateTarget (host : Host) (s : Scope) (op : BinOp) (value : Expr) : Expr → Comp Unit
  | .name _ id _ => do
    let old ← lookup s (s.nameHere id)
    store s (s.nameHere id) (← update host op old (← evaluate host s value))
  | .field _ e attr _ => do
    let v ← evaluate host s e
    let old ← getField host v (s.nameHere attr)
    setField host v (s.nameHere attr) (← update host op old (← evaluate host s value))
  | .compound _ (.subscript _) [e, i] => do
    let c ← evaluate host s e
    let i ← evaluate host s i
    let old ← getItem c i
    setItem host c i (← update host op old (← evaluate host s value))
  | _ => fail .unreadable

/-- Gives the names of an import their values. -/
def storeAll (s : Scope) (names : Names Value) : Comp Unit :=
  names.forM fun p => store s p.1 p.2

mutual

/-- Executes a statement. -/
def execute (host : Host) (s : Scope) : Stmt → Comp Flow
  | .function h body => do
    let decorators ← evaluateItems host s h.decorators
    let defaults ← evaluateItems host s h.formals.defaults
    let named ← h.formals.named.mapM fun p => evaluateOption host s p.2
    let hints ← hintsOf host s h
    let f ← makeFunction s h body defaults named hints
    store s (s.nameHere h.name) (← decorate host decorators f)
    pure .next
  | .cls h body => do
    let decorators ← evaluateItems host s h.decorators
    let bases ← evaluateItems host s h.bases
    let names ← makeAt (.names [])
    let cell ← makeAt (.names [])
    let inner : Scope :=
      { s with
        frames := ⟨cell, ["__class__"]⟩ :: s.frames
        body := some names
        owner := some h.name
        path := s.path ++ h.name ++ "." }
    let _ ← executeAll host inner body
    let c ← makeClass host s h.name bases (← namesAt names) (docOf body)
    setNameAt cell "__class__" c
    store s (s.nameHere h.name) (← decorate host decorators c)
    pure .next
  | .ret none => pure (.returned .none)
  | .ret (some e) => do pure (.returned (← evaluate host s e))
  | .delete targets => do
    targets.forM (deleteTarget host s)
    pure .next
  | .assign targets e => do
    let v ← evaluate host s e
    targets.forM fun t => assign host s t v
    pure .next
  | .update target op e => do
    updateTarget host s op e target
    pure .next
  | .annotated target hint value => do
    match value with
    | some e => assign host s target (← evaluate host s e)
    | none => pure ()
    match target, s.isCall with
    | .name _ id _, false => declareType s (s.nameHere id) (← evaluate host s hint)
    | _, _ => pure ()
    pure .next
  | .forEach _ target iter body orElse => do
    let v ← evaluate host s iter
    let result ← makeAt (.list [])
    let ended ← iterate host v fun x => do
      assign host s target x
      match ← executeAll host s body with
      | .returned r => do
        collect result r
        pure false
      | .left => pure false
      | _ => pure true
    if ended then executeAll host s orElse
    else
      match ← collected result with
      | r :: _ => pure (.returned r)
      | [] => pure .next
  | .branch test body orElse => do
    if ← isTrue (← evaluate host s test) then executeAll host s body
    else executeAll host s orElse
  | .raising none _ => fail .wrongMoment
  | .raising (some e) _ => do throw (← thrownBy (← evaluate host s e))
  | .assertion test _ => do
    if ← isTrue (← evaluate host s test) then pure .next else fail .falseAssertion
  | .importing names => do
    names.forM fun a =>
      if (provided a.name).isSome then store s (a.asName.getD a.name) (.module a.name)
      else fail .noModule
    pure .next
  | .importingFrom module names _ => do
    storeAll s (← imported (module.getD "") names)
    pure .next
  | .expr e => do
    let _ ← evaluate host s e
    pure .next
  | .pass | .declareGlobal _ | .declareNonlocal _ => pure .next
  | .leave => pure .left
  | .again => pure .again
  | .loop .. | .within .. | .select .. | .attempt .. => fail (.custom "NotImplementedError")

/-- Executes statements until one of them does not go on. -/
def executeAll (host : Host) (s : Scope) : List Stmt → Comp Flow
  | [] => pure .next
  | stmt :: rest => do
    match ← execute host s stmt with
    | .next => executeAll host s rest
    | flow => pure flow

end

end Covenant.Machine
