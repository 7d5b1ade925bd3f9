import Covenant.Error

/-! # Runs — computations that can pause

    A run ends with a value, ends with something thrown, or pauses: whoever
    resumes it hands it the state of that moment.  Runs are finite trees, so
    running one to its end, or several by turns, is structural recursion. -/

namespace Covenant.Machine

/-- A computation over states `σ` that has been started. -/
inductive Run (σ ε α : Type) where
  | done (value : α) (state : σ)
  | thrown (error : ε) (state : σ)
  | paused (state : σ) (resume : σ → Run σ ε α)

namespace Run

variable {σ ε α β : Type}

/-- Goes on after a run that has ended with a value. -/
def bind : Run σ ε α → (α → σ → Run σ ε β) → Run σ ε β
  | done a s, k => k a s
  | thrown e s, _ => thrown e s
  | paused s r, k => paused s fun t => (r t).bind k

/-- Turns what is thrown into a value. -/
def attempt : Run σ ε α → Run σ ε (Except ε α)
  | done a s => done (.ok a) s
  | thrown e s => done (.error e) s
  | paused s r => paused s fun t => (r t).attempt

/-- Resumes a run at once whenever it pauses. -/
def finish : Run σ ε α → Except ε α × σ
  | done a s => (.ok a, s)
  | thrown e s => (.error e, s)
  | paused s r => (r s).finish

/-- Runs two computations by turns: each turn takes both to their next pause, the first one
    first. -/
def together : Run σ ε α → (σ → Run σ ε β) → Run σ ε (α × β)
  | done a s, next => (next s).bind fun b t => done (a, b) t
  | thrown e s, _ => thrown e s
  | paused s r, next =>
    match next s with
    | done b t => paused t fun u => (r u).bind fun a v => done (a, b) v
    | thrown e t => thrown e t
    | paused t rest => paused t fun u => (r u).together rest

/-- Turning what is thrown into a value never throws. -/
theorem attempt_bind_ok (r : Run σ ε α) (k : α → σ → Run σ ε β) :
    (r.bind k).attempt = r.attempt.bind fun x s =>
      match x with
      | .ok a => (k a s).attempt
      | .error e => done (.error e) s := by
  induction r with
  | done a s => rfl
  | thrown e s => rfl
  | paused s r ih => simp only [bind, attempt]; congr; funext t; exact ih t

/-- Going on in two steps is going on in one. -/
theorem bind_assoc {γ : Type} (r : Run σ ε α) (k : α → σ → Run σ ε β)
    (l : β → σ → Run σ ε γ) :
    (r.bind k).bind l = r.bind fun a s => (k a s).bind l := by
  induction r with
  | done a s => rfl
  | thrown e s => rfl
  | paused s r ih => simp only [bind]; congr; funext t; exact ih t

end Run

/-! ## What is thrown -/

/-- The mistakes that evaluation itself reports. -/
inductive Mistake where
  | wrongType | wrongValue | noAttribute | noName | noLocal | noItem | noKey | divisionByZero
  | overflow | tooDeep | wrongMoment | unreadable | noModule | noImport | falseAssertion
  | noRoom
  /-- An exception of the program's own making, by the name of its type. -/
  | custom (name : String)
  deriving DecidableEq, Repr

/-- The name of the exception for a mistake. -/
def Mistake.exception : Mistake → String
  | wrongType => "TypeError"
  | wrongValue => "ValueError"
  | noAttribute => "AttributeError"
  | noName => "NameError"
  | noLocal => "UnboundLocalError"
  | noItem => "IndexError"
  | noKey => "KeyError"
  | divisionByZero => "ZeroDivisionError"
  | overflow => "OverflowError"
  | tooDeep => "RecursionError"
  | wrongMoment => "RuntimeError"
  | unreadable => "SyntaxError"
  | noModule => "ModuleNotFoundError"
  | noImport => "ImportError"
  | falseAssertion => "AssertionError"
  | noRoom => "MemoryError"
  | custom name => name

/-- The mistakes that have a kind of their own. -/
def Mistake.standard : List Mistake :=
  [wrongType, wrongValue, noAttribute, noName, noLocal, noItem, noKey, divisionByZero, overflow,
   tooDeep, wrongMoment, unreadable, noModule, noImport, falseAssertion]

/-- The mistake that an exception stands for. -/
def Mistake.ofException (name : String) : Mistake :=
  (standard.find? fun m => m.exception == name).getD (custom name)

/-- An exception that stands for a mistake keeps its name. -/
theorem Mistake.exception_ofException (name : String) :
    (ofException name).exception = name := by
  unfold ofException
  cases h : standard.find? (fun m => m.exception == name) with
  | none => rfl
  | some m => simpa using List.find?_some h

/-- What ends a computation without a value. -/
inductive Thrown where
  | mistake (m : Mistake)
  | violation (v : Violation)
  | generation (e : GenerationError)
  | rejected (es : List GenerationError)
  | notCaptured (field : String)

end Covenant.Machine
