import Covenant.Machine.Standard

/-! # Evaluation of expressions

    An expression is evaluated from the left to the right in a scope.  The
    recursion follows the tree; whatever leaves the tree — a call, the rest of
    a coroutine, what a generator produces — is asked of the host. -/

namespace Covenant.Machine

open Covenant.Value (Datum)
open Covenant.Machine.Comp Signature Covenant.Tree

/-! ## Parameters -/

/-- Positional parameters with their defaults, which belong to the last ones. -/
def withDefaults (names : List (String × Passing)) (defaults : List Value) :
    List (Slot Value) :=
  let missing := names.length - defaults.length
  let all := List.replicate missing none ++ defaults.map some
  (names.zip all).map fun p => { name := p.1.1, passing := p.1.2, default := p.2 }

/-- The slots of a function. -/
def slotsOf (positionalOnly positional : List String) (defaults : List Value)
    (variadic : Option String) (named : List (String × Option Value))
    (rest : Option String) : List (Slot Value) :=
  withDefaults (positionalOnly.map (·, .positionalOnly)
      ++ positional.map (·, .positionalOrNamed)) defaults
    ++ variadic.toList.map (fun n => { name := n, passing := .variadic })
    ++ named.map (fun p => { name := p.1, passing := .namedOnly, default := p.2 })
    ++ rest.toList.map (fun n => { name := n, passing := .variadicNamed })

/-- Named parameters with their defaults, given in the order of those that have one. -/
def namedDefaults : List (String × Bool) → List Value → List (String × Option Value)
  | [], _ => []
  | (n, false) :: ns, vs => (n, none) :: namedDefaults ns vs
  | (n, true) :: ns, v :: vs => (n, some v) :: namedDefaults ns vs
  | (n, true) :: ns, [] => (n, none) :: namedDefaults ns []

/-- The name of the module that a scope belongs to. -/
def moduleName (s : Scope) : Comp Value := do
  pure (((← namesAt s.globals).lookup "__name__").getD .none)

/-- The function that a `lambda` makes. -/
def makeLambda (s : Scope) (b : Binders) (namedValues defaults : List Value) (body : Expr) :
    Comp Value := do
  let nameOf (x : Binder) : String := s.nameHere x.name
  make (.function {
    name := "<lambda>"
    qualname := s.path ++ "<lambda>"
    module := ← moduleName s
    slots := slotsOf (b.positionalOnly.map nameOf) (b.positional.map nameOf) defaults
      (b.variadic.map nameOf)
      (namedDefaults (b.named.map fun p => (nameOf p.1, p.2)) namedValues)
      (b.variadicNamed.map nameOf)
    code := .result body { s with body := none } })

/-! ## Calls -/

/-- The instance that a method sees as one of its further classes when it names neither. -/
def superHere (s : Scope) : Comp Value := do
  match frameOf "__class__" s.frames, s.frames with
  | some (f, _), call :: _ => do
    let cls ← ofOption .wrongMoment ((← namesAt f.names).lookup "__class__")
    let receiver ← ofOption .wrongMoment (call.locals.head?)
    makeSuper cls (← ofOption .wrongMoment ((← namesAt call.names).lookup receiver))
  | _, _ => fail .wrongMoment

/-- Calls a value from a scope, which some routines depend on. -/
def callFrom (host : Host) (s : Scope) (f : Value) (args : List Value) (kwargs : Names Value) :
    Comp Value :=
  match f, args with
  | .routine .globals, [] => pure (.ref s.globals)
  | .type .super, [] => superHere s
  | f, args => host.call f args kwargs

/-- Named arguments, each given once. -/
def addArgument (kwargs : Names Value) (name : String) (v : Value) : Comp (Names Value) :=
  if (kwargs.lookup name).isSome then fail .wrongType else pure (kwargs ++ [(name, v)])

/-- Named arguments from a mapping. -/
def addArguments : Names Value → List (Value × Value) → Comp (Names Value)
  | kwargs, [] => pure kwargs
  | kwargs, (.atom (.str name), v) :: ps => do addArguments (← addArgument kwargs name v) ps
  | _, _ => fail .wrongType

/-- The value of a coroutine, which can be asked for once. -/
def awaitValue (host : Host) (v : Value) : Comp Value := do
  match v, ← object? v with
  | .ref a, some (.coroutine pending isSpent) =>
    if isSpent then fail .wrongMoment
    else do
      put a (.coroutine pending true)
      host.resume pending
  | _, _ => fail .wrongType

/-- A formatted value as text. -/
def formatValue (v : Value) (conversion : Option Char) (layout : String) : Comp Value := do
  let h ← heap
  match conversion with
  | some 's' => do pure (.str (← ofExcept (formatted h (.str (h.text v)) layout)))
  | some _ => do pure (.str (← ofExcept (formatted h (.str (h.spell v)) layout)))
  | none => do pure (.str (← ofExcept (formatted h v layout)))

/-- Whether values can be given to so many targets, one of which may take what is left. -/
def fits (targets : List Expr) (size : Nat) : Bool :=
  if targets.any fun
    | .compound _ (.starred _) _ => true
    | _ => false
  then targets.length ≤ size + 1 else targets.length == size

/-- The bounds of a slice that are present, with the others absent. -/
def sliceOf (lower upper step : Bool) (vs : List Value) : Object :=
  let (a, vs) := if lower then (vs.headD .none, vs.drop 1) else (.none, vs)
  let (b, vs) := if upper then (vs.headD .none, vs.drop 1) else (.none, vs)
  .slice a b (if step then vs.headD .none else .none)

/-- The items of a display of a mapping, whose keys and values are computed in turn; those
    without a key unpack a mapping. -/
def displayItems : List Bool → List (Comp Value) → List (Comp Value) →
    Comp (List (Value × Value))
  | true :: ks, key :: keys, value :: values => do
    let k ← key
    let v ← value
    let rest ← displayItems ks keys values
    pure ((k, v) :: rest)
  | false :: ks, keys, value :: values => do
    let v ← value
    let ps ← ofOption .wrongType ((← object? v).bind mapping?)
    let rest ← displayItems ks keys values
    pure (ps ++ rest)
  | _, _, _ => pure []

/-- The value of a form whose parts are all evaluated first. -/
def combine (host : Host) (form : Form) (vs : List Value) : Comp Value :=
  match form, vs with
  | .binOp op, [a, b] => binary op a b
  | .unaryOp op, [a] => unary op a
  | .list _, vs => Comp.list vs
  | .tuple _, vs => Comp.tuple vs
  | .set, vs => Comp.set vs
  | .await, [v] => awaitValue host v
  | .subscript _, [c, i] => getItem c i
  | .slice lower upper step, vs => make (sliceOf lower upper step vs)
  | .formattedValue conversion, [v] => formatValue v conversion ""
  | .formattedValue conversion, [v, layout] => do
    formatValue v conversion (← textOf layout)
  | _, _ => fail .unreadable

/-! ## Expressions -/

mutual

/-- The value of an expression. -/
def evaluate (host : Host) (s : Scope) : Expr → Comp Value
  | .name _ id _ => lookup s (s.nameHere id)
  | .constant _ c => pure (.atom (Datum.ofConstant c))
  | .field _ v attr _ => do getField host (← evaluate host s v) (s.nameHere attr)
  | .call _ f args keywords => do
    let f ← evaluate host s f
    let args ← evaluateItems host s args
    let kwargs ← evaluateKeywords host s [] keywords
    callFrom host s f args kwargs
  | .lambda _ b kd ds e => do
    let defaults ← evaluateItems host s ds
    let named ← evaluateItems host s kd
    makeLambda s b named defaults e
  | .comprehension _ _ _ [] => fail .unreadable
  | .comprehension _ kind es (.mk t i fs a :: gs) => do
    let first ← evaluate host s i
    let names ← makeAt (.names [])
    let targets := (.mk t i fs a :: gs).flatMap fun
      | .mk t _ _ _ => targetNames t
    let inner := s.inside names (targets.map s.nameHere)
    match kind with
    | .generator => make (.generator es (.mk t i fs a :: gs) first inner false)
    | kind => do
      let found ← makeAt (.list [])
      let _ ← iterate host first fun v => do
        assign host inner t v
        if ← allTrue host inner fs then
          eachIn host inner gs do
            match ← evaluateItems host inner es with
            | [v] => collect found v
            | vs => do collect found (← Comp.tuple vs)
            pure true
        else pure true
      let vs ← collected found
      match kind with
      | .set => Comp.set vs
      | .dict => do Comp.dict (← vs.mapM (pairOf host))
      | _ => Comp.list vs
  | .compound _ form ps =>
    match form with
    | .boolOp op => evaluateUntil host s (op == .or) ps
    | .compare ops => evaluateChain host s ops ps
    | .ifExp => evaluateChoice host s ps
    | .joinedStr => do
      let ts ← evaluateItems host s ps
      pure (.str (String.join (← ts.mapM textOf)))
    | .namedExpr => evaluateNaming host s ps
    | .dict keyed => do
      let count := (keyed.filter id).length
      let parts := delayed host s ps
      Comp.dict (← displayItems keyed (parts.take count) (parts.drop count))
    | form => do combine host form (← evaluateItems host s ps)

/-- The values of expressions, unpacked where they are starred. -/
def evaluateItems (host : Host) (s : Scope) : List Expr → Comp (List Value)
  | [] => pure []
  | .compound _ (.starred _) [e] :: es => do
    let items ← itemsOf host (← evaluate host s e)
    pure (items ++ (← evaluateItems host s es))
  | e :: es => do
    let v ← evaluate host s e
    pure (v :: (← evaluateItems host s es))

/-- The evaluations of expressions, none of them carried out yet. -/
def delayed (host : Host) (s : Scope) : List Expr → List (Comp Value)
  | [] => []
  | e :: es => evaluate host s e :: delayed host s es

/-- Named arguments; one without a name unpacks a mapping. -/
def evaluateKeywords (host : Host) (s : Scope) :
    Names Value → List Keyword → Comp (Names Value)
  | kwargs, [] => pure kwargs
  | kwargs, .mk _ name value :: ks => do
    let v ← evaluate host s value
    match name, (← object? v).bind mapping? with
    | some n, _ => do
      let kwargs ← addArgument kwargs (s.nameHere n) v
      evaluateKeywords host s kwargs ks
    | none, some ps => do
      let kwargs ← addArguments kwargs ps
      evaluateKeywords host s kwargs ks
    | none, none => fail .wrongType

/-- The first value that decides, or the last one. -/
def evaluateUntil (host : Host) (s : Scope) (wanted : Bool) : List Expr → Comp Value
  | [] => fail .unreadable
  | [e] => evaluate host s e
  | e :: es => do
    let v ← evaluate host s e
    if (← isTrue v) == wanted then pure v else evaluateUntil host s wanted es

/-- A chain of comparisons stops at the first one that does not hold. -/
def evaluateChain (host : Host) (s : Scope) (ops : List CmpOp) : List Expr → Comp Value
  | [] => fail .unreadable
  | e :: es => do
    let v ← evaluate host s e
    evaluateLinks host s v ops es

/-- The rest of a chain of comparisons after its left operand. -/
def evaluateLinks (host : Host) (s : Scope) (left : Value) :
    List CmpOp → List Expr → Comp Value
  | op :: ops, e :: es => do
    let right ← evaluate host s e
    if ← compareValues host op left right then
      if ops.isEmpty then pure (.bool true) else evaluateLinks host s right ops es
    else pure (.bool false)
  | _, _ => pure (.bool true)

/-- The value that a test chooses. -/
def evaluateChoice (host : Host) (s : Scope) : List Expr → Comp Value
  | [test, yes, no] => do
    if ← isTrue (← evaluate host s test) then evaluate host s yes else evaluate host s no
  | _ => fail .unreadable

/-- A value that is also given a name. -/
def evaluateNaming (host : Host) (s : Scope) : List Expr → Comp Value
  | [target, e] => do
    let v ← evaluate host s e
    assign host s target v
    pure v
  | _ => fail .unreadable

/-- Whether several tests hold, as far as they have to be asked. -/
def allTrue (host : Host) (s : Scope) : List Expr → Comp Bool
  | [] => pure true
  | e :: es => do if ← isTrue (← evaluate host s e) then allTrue host s es else pure false

/-- Goes through the parts of a comprehension, the later ones inside the earlier ones. -/
def eachIn (host : Host) (s : Scope) : List Generator → Comp Bool → Comp Bool
  | [], body => body
  | .mk t i fs _ :: gs, body => do
    let v ← evaluate host s i
    iterate host v fun x => do
      assign host s t x
      if ← allTrue host s fs then eachIn host s gs body else pure true

/-- Gives a value to a target. -/
def assign (host : Host) (s : Scope) : Expr → Value → Comp Unit
  | .name _ id _, v => store s (s.nameHere id) v
  | .field _ e attr _, v => do setField host (← evaluate host s e) (s.nameHere attr) v
  | .compound _ (.subscript _) [e, i], v => do
    let c ← evaluate host s e
    let i ← evaluate host s i
    setItem host c i v
  | .compound _ (.tuple _) ts, v | .compound _ (.list _) ts, v => do
    let vs ← itemsOf host v
    if fits ts vs.length then assignAll host s ts vs else fail .wrongValue
  | _, _ => fail .unreadable

/-- Gives values to targets; a starred one takes what is left. -/
def assignAll (host : Host) (s : Scope) : List Expr → List Value → Comp Unit
  | [], _ => pure ()
  | .compound _ (.starred _) [t] :: ts, vs => do
    let count := vs.length - ts.length
    assign host s t (← Comp.list (vs.take count))
    assignAll host s ts (vs.drop count)
  | t :: ts, v :: vs => do
    assign host s t v
    assignAll host s ts vs
  | _ :: _, [] => fail .wrongValue

end

end Covenant.Machine
