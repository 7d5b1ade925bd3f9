import Covenant.Grammar.Statement
import Covenant.Machine.Call

/-! # Sessions — a program and what is asked of it

    A session executes the statements of a program one after the other; one
    that fails leaves its names without a value, and the next one is executed.
    Then steps are taken in the namespace of the program: expressions and
    statements, several coroutines by turns, and questions about contracts. -/

namespace Covenant.Machine

open Covenant.Value (Datum)
open Covenant.Machine.Comp Declaration Signature Covenant.Tree Wrapper

/-! ## Sessions -/

/-- A session: the heap, the namespace of the program, and the text in which classes are
    looked up. -/
structure Session where
  heap : Heap
  globals : Address
  program : List Stmt

namespace Session

/-- The scope of the program. -/
def scope (s : Session) : Scope := { globals := s.globals }

/-- Who the calls of the program are asked of. -/
def host (s : Session) : Host := level s.program depthLimit

/-- Carries a computation out, whatever pauses there are. -/
def perform {α : Type} (s : Session) (x : Comp α) : Except Thrown α × Session :=
  let (r, heap) := (x s.heap).finish
  (r, { s with heap := heap })

/-- An empty session for a module of some name. -/
def start (name : String) (program : List Stmt) : Session :=
  let (a, heap) := Heap.add {} (.names [("__name__", .str name)])
  { heap := heap, globals := a, program := program }

/-- Gives a name a value. -/
def define (s : Session) (name : String) (x : Comp Value) : Session :=
  (s.perform do
    let v ← x
    setNameAt s.globals name v).2

/-- Executes statements in the scope of the program, where there is nothing to return to and
    no loop to leave. -/
def executeHere (s : Session) (stmts : List Stmt) : Comp Unit := do
  match ← executeAll s.host s.scope stmts with
  | .next => pure ()
  | _ => fail .unreadable

/-- Executes statements one after the other, whether or not they succeed. -/
def executeEach (s : Session) : List Stmt → List (Except Thrown Unit) × Session
  | [] => ([], s)
  | stmt :: rest =>
    let (r, s) := s.perform (s.executeHere [stmt])
    let (rs, s) := s.executeEach rest
    (r :: rs, s)

/-! ## Expressions -/

/-- The value of an expression given as text. -/
def evaluateText (s : Session) (text : String) : Comp Value :=
  match Grammar.readExpression? text.toList with
  | some e => evaluate s.host s.scope e
  | none => fail .unreadable

/-- The result of a coroutine, and any other value itself. -/
def settle (s : Session) (v : Value) : Comp Value := do
  match ← object? v with
  | some (.coroutine ..) => awaitValue s.host v
  | _ => pure v

/-! ## Questions -/

/-- A signature as it is published. -/
structure Published where
  name : Value
  qualname : Value
  module : Value
  doc : Value
  /-- Slots with the texts of their declared types. -/
  slots : List (Slot Value × Option String)
  isCoroutine : Bool

/-- The signature of a function, less its first slots. -/
def publishedFunction (h : Heap) (f : FunctionInfo) (dropped : Nat) : Published where
  name := .str f.name
  qualname := .str f.qualname
  module := f.module
  doc := f.doc
  slots := (f.slots.drop dropped).map fun s => (s, (f.hints.lookup s.name).map h.hintText)
  isCoroutine := f.isAsync

/-- The signature of a value that can be called. -/
def publishedOf (v : Value) : Comp Published := do
  let h ← Comp.heap
  match h.object? v with
  | some (.function f) => pure (publishedFunction h f 0)
  | some (.bound _ g) =>
    match h.object? g with
    | some (.function f) => pure (publishedFunction h f 1)
    | _ => fail .wrongType
  | some (.cls c) =>
    let slots := match (h.fieldInLine publicInitializerName c.line).bind h.object? with
      | some (.function f) => (publishedFunction h f 1).slots
      | _ => []
    pure { name := .str c.name, qualname := .str c.qualname, module := c.module, doc := c.doc,
           slots := slots, isCoroutine := false }
  | _ => fail .wrongType

/-- The declaration recorded for a class, or else the one that it would have. -/
def declarationOf (s : Session) (v : Value) : Comp (TypeDecl Value) := do
  let h ← Comp.heap
  let cls := if h.isType v then v else h.typeOf v
  match (h.lineOf cls).findSome? fun c => (h.classInfo? c).bind (·.contract) with
  | some t => pure t
  | none =>
    match h.classInfo? v with
    | some c =>
      match describeClass h s.program c [] with
      | .ok t => pure t
      | .error e => throw (.generation e)
    | none => fail .noAttribute

/-- The descriptor of a wrapper. -/
def contractOf (v : Value) : Comp (Descriptor Value) := do
  ofOption .noAttribute ((← Comp.heap).contract? v)

/-! ## Steps -/

/-- What is asked of a session. -/
inductive Step where
  /-- An expression or statements. -/
  | text (text : String)
  /-- Coroutines that run by turns. -/
  | gather (texts : List String)
  | describe (text : String)
  | signature (text : String)
  | isContracted (text : String)
  | contract (text : String)

/-- What a step answers. -/
inductive Answer where
  | value (v : Value)
  | done
  | gathered (results : List (Except Thrown Value))
  | described (t : TypeDecl Value)
  | signature (p : Published)
  | truth (b : Bool)
  | contract (d : Descriptor Value)

/-- Takes a step. -/
def answer (s : Session) : Step → Comp Answer
  | .text text =>
    match Grammar.readExpression? text.toList with
    | some e => do
      if Condition.suspends e || !Condition.sound false e then fail .unreadable
      let v ← evaluate s.host s.scope e
      pure (.value (← s.settle v))
    | none => do
      s.executeHere (← ofOption .unreadable (Grammar.readProgram? text.toList))
      pure .done
  | .gather texts => do
    let vs ← texts.mapM s.evaluateText
    let isCoroutine (h : Heap) (v : Value) : Bool :=
      match h.object? v with
      | some (.coroutine ..) => true
      | _ => false
    let h ← Comp.heap
    if vs.all (isCoroutine h) then do
      pure (.gathered (← allTogether (vs.map fun v => attempt (awaitValue s.host v))))
    else fail .wrongType
  | .describe text => do pure (.described (← s.declarationOf (← s.evaluateText text)))
  | .signature text => do pure (.signature (← publishedOf (← s.evaluateText text)))
  | .isContracted text => do
    let v ← s.evaluateText text
    pure (.truth (callDeclaring.isContracted (← Comp.heap) v))
  | .contract text => do pure (.contract (← contractOf (← s.evaluateText text)))

/-- Takes steps one after the other; each answer comes with the session it was given in. -/
def answerEach (s : Session) : List Step → List (Except Thrown Answer × Session)
  | [] => []
  | step :: rest =>
    let (r, s) := s.perform (s.answer step)
    (r, s) :: s.answerEach rest

/-! ## Conditions -/

/-- The value of an expression and whether it counts as true. -/
def judge (s : Session) (e : Expr) : Except Thrown (Value × Bool) × Session :=
  s.perform do
    let v ← evaluate s.host s.scope e
    pure (v, (← Comp.heap).isTrue v)

/-- Keeps values apart under their names. -/
def captureAll (values : List (String × Comp Value)) : Comp (Captures Value) :=
  values.foldlM (fun c p => do
    let v ← p.2
    pure (c.capture p.1 (← Comp.snapshot v))) {}

/-! ## Captured values -/

/-- What is asked of captured values, with statements in between. -/
inductive CaptureStep where
  | capture (field name : String)
  | lookup (field : String)
  | contains (field : String)
  | fields
  | size
  | text
  | execute (statement : String)

/-- What is answered about captured values. -/
inductive CaptureAnswer where
  | nothing
  | value (v : Value)
  | flag (b : Bool)
  | fields (names : List String)
  | size (n : Nat)
  | text (s : String)

/-- Takes a step with captured values. -/
def takeCapture (s : Session) (c : Captures Value) :
    CaptureStep → Comp (CaptureAnswer × Captures Value)
  | .capture field name => do
    let v ← Comp.lookup s.scope name
    pure (.nothing, c.capture field (← Comp.snapshot v))
  | .lookup field =>
    match c.lookup field with
    | some v => pure (.value v, c)
    | none => throw (.notCaptured field)
  | .contains field => pure (.flag (c.contains field), c)
  | .fields => pure (.fields c.fields, c)
  | .size => pure (.size c.size, c)
  | .text => pure (.text c.text, c)
  | .execute statement => do
    s.executeHere (← ofOption .unreadable (Grammar.readProgram? statement.toList))
    pure (.nothing, c)

/-- Takes steps with captured values one after the other. -/
def takeCaptures (s : Session) (c : Captures Value) :
    List CaptureStep → List (Except Thrown CaptureAnswer × Session)
  | [] => []
  | step :: rest =>
    match s.perform (s.takeCapture c step) with
    | (.ok (a, c), s) => (.ok a, s) :: s.takeCaptures c rest
    | (.error e, s) => (.error e, s) :: s.takeCaptures c rest

/-! ## Defaults of implementations -/

/-- The callable behind a method. -/
def implementationOf (h : Heap) (v : Value) : Value :=
  match h.object? v with
  | some (.bound _ f) => f
  | some (.static f) | some (.classMethod f) => f
  | _ => v

/-- What is said of a callable that declares no default for a parameter. -/
def noDefaultMessage (qualname name : String) : String :=
  s!"{qualname} declares no default for '{name}'"

/-- The default that a callable declares for a parameter; the full name of the callable if it
    declares none. -/
def defaultOf (v : Value) (name : String) : Comp (Except String Value) := do
  let h ← Comp.heap
  let target := implementationOf h v
  let p ← publishedOf target
  match (p.slots.find? fun s => s.1.name == name).bind (·.1.default) with
  | some d => pure (.ok d)
  | none => pure (.error (h.spell p.qualname))

end Session

/-! ## Data as values -/

mutual

/-- Makes the value that shows some data; an object is an instance of a new class. -/
def build : Datum → Comp Value
  | .list ds => do Comp.list (← buildAll ds)
  | .tuple ds => do Comp.tuple (← buildAll ds)
  | .set ds => do make (.set (← buildAll ds))
  | .frozenset ds => do make (.frozenset (← buildAll ds))
  | .dict ps => do make (.dict (← buildItems ps))
  | .bytearray bs => make (.bytearray bs)
  | .object cls fields => do
    let fields ← buildFields fields
    let c ← make (.cls { name := cls, qualname := cls, bases := [.type .object],
                         line := [.type .object], fields := [] })
    make (.record c fields)
  | d => pure (.atom d)

/-- Makes the values of several data. -/
def buildAll : List Datum → Comp (List Value)
  | [] => pure []
  | d :: ds => do
    let v ← build d
    pure (v :: (← buildAll ds))

/-- Makes the items of a mapping. -/
def buildItems : List (Datum × Datum) → Comp (List (Value × Value))
  | [] => pure []
  | (k, v) :: ps => do
    let a ← build k
    let b ← build v
    pure ((a, b) :: (← buildItems ps))

/-- Makes the fields of an instance. -/
def buildFields : List (String × Datum) → Comp (Names Value)
  | [] => pure []
  | (n, d) :: fs => do
    let v ← build d
    pure ((n, v) :: (← buildFields fs))

end

end Covenant.Machine
