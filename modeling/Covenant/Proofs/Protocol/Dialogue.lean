import Covenant.Enforcement
import Covenant.Machine.Call

/-! # Dialogues — a run before anyone answers it

    A run of a wrapper asks whether clauses hold, for the values of fields and
    for a call of the implementation.  A `Dialogue` is the tree of its
    questions with what it does for each answer.

    * Dialogues are a monad, and `Surroundings.asking` puts every operation
      as a question; `Descriptor.dialogue` is a run in these surroundings.
    * Carrying a dialogue out in other surroundings is a morphism of monads,
      so a run anywhere is the same dialogue carried out there
      (`run_eq_carry`), the machine included (`runWrapper_eq_carry`).
    * `Follows` says what is left of a dialogue after some exchanges. -/

namespace Covenant

open Wrapper

variable {α β γ : Type} {m : Type → Type}

/-- A question that a run asks. -/
inductive Query (α : Type) where
  | holds (kind : ViolationKind) (clause : EnforcedClause) (a : Activation α)
  | preserve (a : Activation α) (field : String)
  | invoke (a : Activation α)

/-- What a question is answered with. -/
def Query.Answer : Query α → Type
  | .holds .. => Bool
  | .preserve .. => α
  | .invoke .. => α

/-- The activation that asks. -/
def Query.activation : Query α → Activation α
  | .holds _ _ a => a
  | .preserve a _ => a
  | .invoke a => a

/-- A question and what follows each answer, up to a result or a broken promise. -/
inductive Dialogue (α β : Type) where
  | done (result : β)
  | broken (v : Violation)
  | ask (q : Query α) (next : q.Answer → Dialogue α β)

namespace Dialogue

/-- Goes on after a dialogue that has ended with a result. -/
def bind : Dialogue α β → (β → Dialogue α γ) → Dialogue α γ
  | done b, k => k b
  | broken v, _ => broken v
  | ask q next, k => ask q fun r => (next r).bind k

instance : Monad (Dialogue α) where
  pure := done
  bind := bind

@[simp] theorem done_bind (b : β) (k : β → Dialogue α γ) : (done b).bind k = k b := rfl

@[simp] theorem broken_bind (v : Violation) (k : β → Dialogue α γ) :
    (broken v).bind k = broken v := rfl

@[simp] theorem ask_bind (q : Query α) (next : q.Answer → Dialogue α β)
    (k : β → Dialogue α γ) : (ask q next).bind k = ask q fun r => (next r).bind k := rfl

theorem bind_done (x : Dialogue α β) : x.bind done = x := by
  induction x with
  | done b => rfl
  | broken v => rfl
  | ask q next ih =>
      rw [ask_bind]
      congr
      funext r
      exact ih r

theorem bind_assoc {δ : Type} (x : Dialogue α β) (k : β → Dialogue α γ) (l : γ → Dialogue α δ) :
    (x.bind k).bind l = x.bind fun b => (k b).bind l := by
  induction x with
  | done b => rfl
  | broken v => rfl
  | ask q next ih =>
      rw [ask_bind, ask_bind, ask_bind]
      congr
      funext r
      exact ih r

end Dialogue

/-! ## The dialogue of a wrapper -/

/-- Surroundings that answer nothing: every operation is a question. -/
def Surroundings.asking : Surroundings (Dialogue α) α where
  holds kind clause a := .ask (.holds kind clause a) .done
  preserve a field := .ask (.preserve a field) .done
  invoke a := .ask (.invoke a) .done
  violate := .broken

/-- The dialogue of a wrapper: its run in surroundings that answer nothing. -/
def Wrapper.Descriptor.dialogue (d : Descriptor α) (a : Activation α) :
    Dialogue α (Option α) :=
  Surroundings.asking.run d a

/-! ## Carrying a dialogue out -/

/-- The answer of some surroundings to a question. -/
def Surroundings.answer (s : Surroundings m α) : (q : Query α) → m q.Answer
  | .holds kind clause a => s.holds kind clause a
  | .preserve a field => s.preserve a field
  | .invoke a => s.invoke a

/-- Surroundings in which a broken promise ends the run. -/
structure Surroundings.Ending [Monad m] (s : Surroundings m α) where
  /-- Ends a run, whatever it would have given. -/
  stop : {β : Type} → Violation → m β
  violate_eq : ∀ v, s.violate v = stop v
  stop_bind : ∀ {β γ : Type} (v : Violation) (k : β → m γ), stop v >>= k = stop v

/-- A dialogue with the answers of some surroundings. -/
def Dialogue.carry [Monad m] {s : Surroundings m α} (e : s.Ending) : Dialogue α β → m β
  | .done b => pure b
  | .broken v => e.stop v
  | .ask q next => do
    let r ← s.answer q
    (next r).carry e

section Carry

variable [Monad m] [LawfulMonad m] {s : Surroundings m α} (e : s.Ending)

/-- Carrying out is a morphism of monads. -/
theorem carry_bind (x : Dialogue α β) (k : β → Dialogue α γ) :
    (x >>= k).carry e = x.carry e >>= fun b => (k b).carry e := by
  induction x with
  | done b =>
      show (k b).carry e = pure b >>= fun b => (k b).carry e
      rw [pure_bind]
  | broken v => exact (e.stop_bind v _).symm
  | ask q next ih =>
      show (s.answer q >>= fun r => ((next r).bind k).carry e)
        = (s.answer q >>= fun r => (next r).carry e) >>= fun b => (k b).carry e
      rw [bind_assoc]
      congr 1
      funext r
      exact ih r

/-- A question alone is carried out by answering it. -/
theorem carry_ask (q : Query α) : (Dialogue.ask q .done).carry e = s.answer q :=
  bind_pure (s.answer q)

theorem carry_check (qualname : String) (kind : ViolationKind) (a : Activation α)
    (cs : List EnforcedClause) :
    (Surroundings.asking.check qualname kind a cs).carry e = s.check qualname kind a cs := by
  induction cs with
  | nil => rfl
  | cons c cs ih =>
      simp only [Surroundings.check]
      rw [carry_bind]
      have hask : (Surroundings.asking.holds kind c a).carry e = s.holds kind c a :=
        carry_ask e (.holds kind c a)
      rw [hask]
      congr
      funext b
      cases b with
      | true => exact ih
      | false => exact (e.violate_eq _).symm

theorem carry_captureAll (a : Activation α) (store : Captures α) (fs : List String) :
    (Surroundings.asking.captureAll a store fs).carry e = s.captureAll a store fs := by
  induction fs generalizing store with
  | nil => rfl
  | cons f fs ih =>
      simp only [Surroundings.captureAll]
      rw [carry_bind]
      have hask : (Surroundings.asking.preserve a f).carry e = s.preserve a f :=
        carry_ask e (.preserve a f)
      rw [hask]
      congr
      funext v
      exact ih _

theorem carry_take (d : Descriptor α) (a : Activation α) (step : Step) :
    (Surroundings.asking.take d a step).carry e = s.take d a step := by
  cases step with
  | answer => rfl
  | checkInvariants | checkPreconditions | checkPostconditions =>
      simp only [Surroundings.take]
      rw [carry_bind, carry_check]
      rfl
  | captureOld =>
      simp only [Surroundings.take]
      rw [carry_bind, carry_captureAll]
      rfl
  | invoke =>
      simp only [Surroundings.take]
      rw [carry_bind]
      have hask : (Surroundings.asking.invoke a).carry e = s.invoke a :=
        carry_ask e (.invoke a)
      rw [hask]
      rfl

theorem carry_takeAll (d : Descriptor α) (a : Activation α) (steps : List Step) :
    (Surroundings.asking.takeAll d a steps).carry e = s.takeAll d a steps := by
  induction steps generalizing a with
  | nil => rfl
  | cons step steps ih =>
      simp only [Surroundings.takeAll]
      rw [carry_bind, carry_take]
      congr
      funext b
      exact ih b

/-- **ONE DIALOGUE EVERYWHERE**: a run in any surroundings where a broken promise ends the run
    is the wrapper's dialogue, carried out there. -/
theorem run_eq_carry (d : Descriptor α) (a : Activation α) :
    s.run d a = (d.dialogue a).carry e := by
  unfold Descriptor.dialogue
  simp only [Surroundings.run]
  rw [carry_bind, carry_takeAll]
  rfl

end Carry

/-! ## The machine -/

namespace Machine

/-- Ending a computation at once with its value changes nothing. -/
theorem Run.bind_done {σ ε α : Type} (r : Run σ ε α) : (r.bind fun a t => .done a t) = r := by
  induction r with
  | done a t => rfl
  | thrown e t => rfl
  | paused t resume ih =>
      simp only [Run.bind]
      congr
      funext u
      exact ih u

instance : LawfulMonad Comp := LawfulMonad.mk' Comp
  (fun x => funext fun h => Run.bind_done (x h))
  (fun _ _ => rfl)
  (fun x _ _ => funext fun h => Run.bind_assoc (x h) _ _)

/-- In the machine a broken promise is thrown, so it ends the run. -/
def surroundingsEnding (host : Host) (d : Descriptor Value) (implementation : Value) :
    (surroundings host d implementation).Ending where
  stop v := Comp.throw (.violation v)
  violate_eq _ := rfl
  stop_bind _ _ := rfl

/-- The machine runs a wrapper by binding the arguments and carrying its dialogue out. -/
theorem runWrapper_eq_carry (host : Host) (d : Descriptor Value) (implementation : Value)
    (slots : List (Signature.Slot Value)) (receiver? : Option Value) (args : List Value)
    (kwargs : Names Value) :
    runWrapper host d implementation slots receiver? args kwargs
      = (completed slots (Signature.bindArguments slots args kwargs) >>= fun b =>
          (d.dialogue { receiver? := receiver?, arguments := b }).carry
              (surroundingsEnding host d implementation) >>= fun result =>
            pure (result.getD .none)) := by
  unfold runWrapper
  congr
  funext b
  rw [run_eq_carry (surroundingsEnding host d implementation)]

end Machine

/-! ## Histories -/

/-- A question with its answer. -/
structure Exchange (α : Type) where
  query : Query α
  answer : query.Answer

/-- `Follows x h y`: after the exchanges `h` of the dialogue `x`, what is left is `y`. -/
inductive Dialogue.Follows : Dialogue α β → List (Exchange α) → Dialogue α β → Prop where
  | start (x : Dialogue α β) : Follows x [] x
  | next {q : Query α} {next : q.Answer → Dialogue α β} (r : q.Answer)
      {h : List (Exchange α)} {y : Dialogue α β} :
      Follows (next r) h y → Follows (.ask q next) (⟨q, r⟩ :: h) y

/-- One more exchange. -/
theorem Dialogue.Follows.snoc {x : Dialogue α β} {h : List (Exchange α)} {q : Query α}
    {next : q.Answer → Dialogue α β} (hx : Follows x h (.ask q next)) (r : q.Answer) :
    Follows x (h ++ [⟨q, r⟩]) (next r) := by
  generalize hy : Dialogue.ask q next = y at hx
  induction hx with
  | start x =>
      subst hy
      exact .next r (.start _)
  | next r' _ ih => exact .next r' (ih hy)

end Covenant
