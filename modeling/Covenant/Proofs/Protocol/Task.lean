import Covenant.Proofs.Protocol.Dialogue

/-! # Tasks — the plan of a wrapper, flattened

    A step of a plan stands for several questions, one for each clause or
    field.  Spelled out, a plan is a list of tasks, and a run takes them one
    by one: `dialogue_eq_perform`.

    What a run has asked is then a prefix of that list.  `Passes` says that
    tasks were taken with certain exchanges and where that leads, and
    `follows_perform` splits the list at the place a dialogue has come to. -/

namespace Covenant

open Declaration Wrapper

variable {α β : Type}

/-- One thing that a run does. -/
inductive Task where
  | check (kind : ViolationKind) (clause : EnforcedClause)
  | capture (field : String)
  /-- What was captured becomes the store of the run. -/
  | keep
  | invoke

namespace Wrapper.Descriptor

/-- The tasks of one step. -/
def tasksOf (d : Descriptor α) : Step → List Task
  | .checkInvariants => d.invariants.map (.check .invariant)
  | .checkPreconditions => d.preconditions.map (.check .precondition)
  | .checkPostconditions => d.postconditions.map (.check .postcondition)
  | .captureOld => d.capturedFields.map .capture ++ [.keep]
  | .invoke => [.invoke]
  | .answer => []

/-- All tasks in the order of the plan. -/
def tasks (d : Descriptor α) : List Task := d.steps.flatMap d.tasksOf

/-- The tasks that capture old values, if there are any. -/
def captureTasks (d : Descriptor α) : List Task :=
  if d.capturedFields.isEmpty then [] else d.capturedFields.map .capture ++ [.keep]

/-- The tasks up to the call of an implementation that has a prior state. -/
def tasksBefore (d : Descriptor α) : List Task :=
  d.invariants.map (.check .invariant) ++ d.preconditions.map (.check .precondition)

/-- The violation that a clause reports. -/
def violation (d : Descriptor α) (kind : ViolationKind) (c : EnforcedClause) : Violation :=
  { kind := kind, message := c.message, clause := c.text, qualname := d.qualname }

theorem flatMap_tasksOf_stepIf (d : Descriptor α) (needed : Bool) (s : Step) :
    (stepIf needed s).flatMap d.tasksOf = if needed then d.tasksOf s else [] := by
  cases needed
  · rfl
  · simp [stepIf]

/-- A step that checks clauses is left out only if there are none. -/
theorem flatMap_checks_stepIf {kind : ViolationKind} (d : Descriptor α) {s : Step}
    {cs : List EnforcedClause} (hs : d.tasksOf s = cs.map (.check kind)) :
    (stepIf (!cs.isEmpty) s).flatMap d.tasksOf = cs.map (.check kind) := by
  rw [flatMap_tasksOf_stepIf, hs]
  cases cs with
  | nil => rfl
  | cons c cs => rfl

/-- The tasks of a method or a function. -/
theorem tasks_of_ne_constructor (d : Descriptor α) (h : d.role ≠ .constructor) :
    d.tasks = d.tasksBefore ++ d.captureTasks ++ .invoke ::
      (d.postconditions.map (.check .postcondition) ++ d.invariants.map (.check .invariant)) := by
  have hcapture : (stepIf (!d.capturedFields.isEmpty) .captureOld).flatMap d.tasksOf
      = d.captureTasks := by
    rw [flatMap_tasksOf_stepIf]
    unfold captureTasks
    cases d.capturedFields.isEmpty <;> rfl
  unfold tasks steps
  cases hr : d.role with
  | constructor => exact absurd hr h
  | method | function =>
      simp only [plan, List.flatMap_append, hcapture,
        d.flatMap_checks_stepIf (s := .checkInvariants) rfl,
        d.flatMap_checks_stepIf (s := .checkPreconditions) rfl,
        d.flatMap_checks_stepIf (s := .checkPostconditions) rfl]
      simp [tasksOf, tasksBefore]

/-- The tasks of a constructor. -/
theorem tasks_of_constructor (d : Descriptor α) (h : d.role = .constructor) :
    d.tasks = .invoke :: (d.preconditions.map (.check .precondition)
      ++ d.postconditions.map (.check .postcondition)
      ++ d.invariants.map (.check .invariant)) := by
  unfold tasks steps
  simp only [h, plan, List.flatMap_append,
    d.flatMap_checks_stepIf (s := .checkInvariants) rfl,
    d.flatMap_checks_stepIf (s := .checkPreconditions) rfl,
    d.flatMap_checks_stepIf (s := .checkPostconditions) rfl]
  simp [tasksOf]

end Wrapper.Descriptor

/-! ## Taking tasks -/

/-- How far a run has come: its activation, and what it has captured but not yet kept. -/
structure Progress (α : Type) where
  activation : Activation α
  store : Captures α := {}

namespace Progress

variable (p : Progress α)

/-- A value has been captured. -/
def captured (field : String) (v : α) : Progress α := { p with store := p.store.capture field v }

/-- What was captured is the store of the run. -/
def kept : Progress α := { activation := { p.activation with captures := some p.store } }

/-- The implementation has answered; the result of a constructor is the new instance. -/
def answered (role : Role) (v : α) : Progress α :=
  { p with activation := { p.activation with
      result := if role = .constructor then p.activation.receiver? else some v } }

end Progress

/-- Takes tasks one by one. -/
def perform (d : Descriptor α) : Progress α → List Task → Dialogue α (Activation α)
  | p, [] => .done p.activation
  | p, .check kind c :: ts => .ask (.holds kind c p.activation) fun b : Bool =>
      if b then perform d p ts else .broken (d.violation kind c)
  | p, .capture f :: ts => .ask (.preserve p.activation f) fun v : α =>
      perform d (p.captured f v) ts
  | p, .keep :: ts => perform d p.kept ts
  | p, .invoke :: ts => .ask (.invoke p.activation) fun v : α =>
      perform d (p.answered d.role v) ts

section Flatten

variable (d : Descriptor α) (p : Progress α) (ts : List Task)

theorem check_bind_perform (kind : ViolationKind) (cs : List EnforcedClause) :
    (Surroundings.asking.check d.qualname kind p.activation cs).bind (fun _ => perform d p ts)
      = perform d p (cs.map (.check kind) ++ ts) := by
  induction cs with
  | nil => rfl
  | cons c cs ih =>
      show Dialogue.ask (.holds kind c p.activation) _ = Dialogue.ask (.holds kind c p.activation) _
      congr
      funext b
      cases b with
      | true => exact ih
      | false => rfl

theorem captureAll_bind_perform (fs : List String) :
    (Surroundings.asking.captureAll p.activation p.store fs).bind (fun store =>
        perform d { activation := { p.activation with captures := some store } } ts)
      = perform d p (fs.map .capture ++ .keep :: ts) := by
  induction fs generalizing p with
  | nil => rfl
  | cons f fs ih =>
      show Dialogue.ask (.preserve p.activation f) _ = Dialogue.ask (.preserve p.activation f) _
      congr
      funext v
      exact ih (p.captured f v)

theorem take_bind_perform (a : Activation α) (step : Step) :
    (Surroundings.asking.take d a step).bind (fun b => perform d { activation := b } ts)
      = perform d { activation := a } (d.tasksOf step ++ ts) := by
  cases step with
  | answer => rfl
  | invoke => rfl
  | checkInvariants | checkPreconditions | checkPostconditions =>
      rw [Descriptor.tasksOf, ← check_bind_perform]
      exact Dialogue.bind_assoc _ _ _
  | captureOld =>
      rw [Descriptor.tasksOf, List.append_assoc, List.singleton_append, ← captureAll_bind_perform]
      exact Dialogue.bind_assoc _ _ _

theorem takeAll_eq_perform (a : Activation α) (steps : List Step) :
    Surroundings.asking.takeAll d a steps
      = perform d { activation := a } (steps.flatMap d.tasksOf) := by
  induction steps generalizing a with
  | nil => rfl
  | cons step steps ih =>
      rw [List.flatMap_cons, ← take_bind_perform]
      show (Surroundings.asking.take d a step).bind _ = _
      congr
      funext b
      exact ih b

/-- **A DIALOGUE TAKES THE TASKS OF ITS PLAN** one by one. -/
theorem dialogue_eq_perform (a : Activation α) :
    d.dialogue a = (perform d { activation := a } d.tasks).bind fun b => .done b.result := by
  unfold Descriptor.dialogue Descriptor.tasks
  rw [← takeAll_eq_perform]
  rfl

end Flatten

/-! ## Histories of tasks -/

/-- `Passes d p ts h p'`: all of the tasks were taken with the exchanges `h`, and every clause
    among them held. -/
inductive Passes (d : Descriptor α) :
    Progress α → List Task → List (Exchange α) → Progress α → Prop where
  | nil (p : Progress α) : Passes d p [] [] p
  | check {p p' : Progress α} {ts : List Task} {h : List (Exchange α)} (kind : ViolationKind)
      (c : EnforcedClause) : Passes d p ts h p' →
      Passes d p (.check kind c :: ts) (⟨.holds kind c p.activation, true⟩ :: h) p'
  | capture {p p' : Progress α} {ts : List Task} {h : List (Exchange α)} (f : String) (v : α) :
      Passes d (p.captured f v) ts h p' →
      Passes d p (.capture f :: ts) (⟨.preserve p.activation f, v⟩ :: h) p'
  | keep {p p' : Progress α} {ts : List Task} {h : List (Exchange α)} :
      Passes d p.kept ts h p' → Passes d p (.keep :: ts) h p'
  | invoke {p p' : Progress α} {ts : List Task} {h : List (Exchange α)} (v : α) :
      Passes d (p.answered d.role v) ts h p' →
      Passes d p (.invoke :: ts) (⟨.invoke p.activation, v⟩ :: h) p'

/-- A dialogue that still asks or has a result has passed a prefix of its tasks and goes on with
    the others. -/
theorem follows_perform {d : Descriptor α} {p : Progress α} {ts : List Task}
    {h : List (Exchange α)} {y : Dialogue α (Activation α)}
    (hy : (perform d p ts).Follows h y) (hb : ∀ v, y ≠ .broken v) :
    ∃ before after p', ts = before ++ after ∧ Passes d p before h p' ∧ y = perform d p' after := by
  induction ts generalizing p h with
  | nil =>
      cases hy with
      | start => exact ⟨[], [], p, rfl, .nil p, rfl⟩
  | cons t ts ih =>
      -- the exchange that the first task asks for, if it has taken place
      cases t with
      | keep =>
          obtain ⟨before, after, p', rfl, hp, rfl⟩ := ih (p := p.kept) hy
          exact ⟨.keep :: before, after, p', rfl, .keep hp, rfl⟩
      | check kind c =>
          cases hy with
          | start => exact ⟨[], .check kind c :: ts, p, rfl, .nil p, rfl⟩
          | next r hr =>
              cases r with
              | true =>
                  obtain ⟨before, after, p', rfl, hp, rfl⟩ := ih hr
                  exact ⟨.check kind c :: before, after, p', rfl, .check kind c hp, rfl⟩
              | false =>
                  have hr' : (Dialogue.broken (d.violation kind c)).Follows _ y := hr
                  cases hr' with
                  | start => exact absurd rfl (hb _)
      | capture f =>
          cases hy with
          | start => exact ⟨[], .capture f :: ts, p, rfl, .nil p, rfl⟩
          | next v hr =>
              obtain ⟨before, after, p', rfl, hp, rfl⟩ := ih hr
              exact ⟨.capture f :: before, after, p', rfl, .capture f v hp, rfl⟩
      | invoke =>
          cases hy with
          | start => exact ⟨[], .invoke :: ts, p, rfl, .nil p, rfl⟩
          | next v hr =>
              obtain ⟨before, after, p', rfl, hp, rfl⟩ := ih hr
              exact ⟨.invoke :: before, after, p', rfl, .invoke v hp, rfl⟩

end Covenant
