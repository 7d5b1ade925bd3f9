import Covenant.Proofs.Protocol.Task

/-! # Watched runs — a run with its actions on record

    A `World` decides what every clause says, what fields hold and what the
    implementation does.  The surroundings it gives leave the world as it is,
    except for the implementation, and put every action on record with the
    activation and the state it met.

    `Walks` describes the same run apart from the monad: tasks are taken until
    there are none or one ends the run.  `exists_walks` relates the two, and
    the laws of `Walks` follow the list of tasks: one for a list in two parts
    and one for a list of checks or of captures. -/

namespace Covenant

open Declaration Machine Wrapper

variable {σ ε α β γ : Type}

/-! ## Worlds -/

/-- A run that is resumed with what the others have made of the state. -/
def Machine.Run.resumedBy (others : σ → σ) : Run σ ε β → Except ε β × σ
  | .done b s => (.ok b, s)
  | .thrown e s => (.error e, s)
  | .paused s resume => (resume (others s)).resumedBy others

/-- What surrounds a run over states `σ`.  Clauses and fields are only read; the implementation
    does what it likes, and if it is a coroutine it may pause, and others run meanwhile. -/
structure World (σ ε α : Type) where
  verdict : ViolationKind → EnforcedClause → Activation α → σ → Except ε Bool
  value : Activation α → String → σ → Except ε α
  body : Activation α → σ → Run σ ε α
  others : σ → σ

/-- What the implementation comes to, and the state it leaves. -/
def World.outcome (w : World σ ε α) (a : Activation α) (s : σ) : Except ε α × σ :=
  (w.body a s).resumedBy w.others

/-- What ends a run before its plan does. -/
inductive Stop (ε : Type) where
  | violated (v : Violation)
  | raised (error : ε)

/-- What a run does. -/
inductive Action where
  | check (kind : ViolationKind) (clause : EnforcedClause)
  | capture (field : String)
  | invoke

/-- An action with the activation and the state it met. -/
structure Event (σ α : Type) where
  action : Action
  activation : Activation α
  state : σ

/-- The state of a watched run, and what it has done. -/
structure Record (σ α : Type) where
  state : σ
  events : List (Event σ α) := []

/-- Computations that are watched. -/
def Watched (σ ε α β : Type) : Type := Record σ α → Except (Stop ε) β × Record σ α

namespace Watched

/-- Goes on after a computation that was not stopped. -/
def andThen (x : Watched σ ε α β) (k : β → Watched σ ε α γ) : Watched σ ε α γ := fun r =>
  match x r with
  | (.ok b, r) => k b r
  | (.error e, r) => (.error e, r)

instance : Monad (Watched σ ε α) where
  pure b := fun r => (.ok b, r)
  bind := andThen

theorem bind_apply (x : Watched σ ε α β) (k : β → Watched σ ε α γ) (r : Record σ α) :
    (x >>= k) r = match x r with
      | (.ok b, r) => k b r
      | (.error e, r) => (.error e, r) := rfl

instance : LawfulMonad (Watched σ ε α) := LawfulMonad.mk' _
  (fun x => by
    funext r
    show (x >>= pure) r = x r
    rw [bind_apply]
    rcases x r with ⟨_ | _, _⟩ <;> rfl)
  (fun _ _ => rfl)
  (fun x k l => by
    funext r
    rw [bind_apply, bind_apply, bind_apply]
    rcases x r with ⟨_ | _, _⟩ <;> rfl)

/-- Does something and puts it on record. -/
def observe (x : Action) (a : Activation α) (ask : σ → Except ε β × σ) : Watched σ ε α β :=
  fun r => ((ask r.state).1.mapError .raised,
    { state := (ask r.state).2, events := r.events ++ [⟨x, a, r.state⟩] })

theorem observe_bind_of_ok {x : Action} {a : Activation α} {q : σ → Except ε β × σ}
    {k : β → Watched σ ε α γ} {r : Record σ α} {b : β} {s : σ} (h : q r.state = (.ok b, s)) :
    (observe x a q >>= k) r
      = k b { state := s, events := r.events ++ [⟨x, a, r.state⟩] } := by
  rw [bind_apply]
  unfold observe
  rw [h]
  rfl

theorem observe_bind_of_error {x : Action} {a : Activation α} {q : σ → Except ε β × σ}
    {k : β → Watched σ ε α γ} {r : Record σ α} {e : ε} {s : σ}
    (h : q r.state = (.error e, s)) :
    (observe x a q >>= k) r
      = (.error (.raised e), { state := s, events := r.events ++ [⟨x, a, r.state⟩] }) := by
  rw [bind_apply]
  unfold observe
  rw [h]
  rfl

/-- Ends a run. -/
def halt (e : Stop ε) : Watched σ ε α β := fun r => (.error e, r)

end Watched

/-- The surroundings that a world is for a watched run. -/
def World.surroundings (w : World σ ε α) : Surroundings (Watched σ ε α) α where
  holds kind c a := Watched.observe (.check kind c) a fun s => (w.verdict kind c a s, s)
  preserve a f := Watched.observe (.capture f) a fun s => (w.value a f s, s)
  invoke a := Watched.observe .invoke a (w.outcome a)
  violate v := Watched.halt (.violated v)

/-- A broken promise ends a watched run. -/
def World.ending (w : World σ ε α) : w.surroundings.Ending where
  stop v := Watched.halt (.violated v)
  violate_eq _ := rfl
  stop_bind _ _ := rfl

/-- What has become of a run. -/
structure Ran (σ ε α : Type) where
  result : Except (Stop ε) (Option α)
  state : σ
  events : List (Event σ α)

/-- Runs a wrapper in a world. -/
def World.run (w : World σ ε α) (d : Descriptor α) (a : Activation α) (s : σ) : Ran σ ε α :=
  let (result, r) := w.surroundings.run d a { state := s }
  { result := result, state := r.state, events := r.events }

/-! ## Walks -/

/-- The action that a task is. -/
def Task.action? : Task → Option Action
  | .check kind c => some (.check kind c)
  | .capture f => some (.capture f)
  | .keep => none
  | .invoke => some .invoke

/-- What a task puts on record. -/
def Task.events (t : Task) (a : Activation α) (s : σ) : List (Event σ α) :=
  (t.action?.map fun x => ⟨x, a, s⟩).toList

/-- What an action that fails ends its run with. -/
def World.fault? (w : World σ ε α) (d : Descriptor α) (e : Event σ α) : Option (Stop ε) :=
  match e.action with
  | .check kind c =>
    match w.verdict kind c e.activation e.state with
    | .ok true => none
    | .ok false => some (.violated (d.violation kind c))
    | .error x => some (.raised x)
  | .capture f =>
    match w.value e.activation f e.state with
    | .ok _ => none
    | .error x => some (.raised x)
  | .invoke =>
    match (w.outcome e.activation e.state).1 with
    | .ok _ => none
    | .error x => some (.raised x)

/-- What a task makes of a run and of the state. -/
def World.attempt (w : World σ ε α) (d : Descriptor α) (p : Progress α) (s : σ) :
    Task → Except (Stop ε) (Progress α) × σ
  | .check kind c =>
    match w.verdict kind c p.activation s with
    | .ok true => (.ok p, s)
    | .ok false => (.error (.violated (d.violation kind c)), s)
    | .error x => (.error (.raised x), s)
  | .capture f =>
    match w.value p.activation f s with
    | .ok v => (.ok (p.captured f v), s)
    | .error x => (.error (.raised x), s)
  | .keep => (.ok p.kept, s)
  | .invoke =>
    match w.outcome p.activation s with
    | (.ok v, s) => (.ok (p.answered d.role v), s)
    | (.error x, s) => (.error (.raised x), s)

/-- `w.Walks d p s ts es out s'`: from progress `p` and state `s` the tasks `ts` are taken until
    one fails.  This does the events `es`, comes to `out` and leaves the state `s'`. -/
inductive World.Walks (w : World σ ε α) (d : Descriptor α) : Progress α → σ → List Task →
    List (Event σ α) → Except (Stop ε) (Progress α) → σ → Prop where
  | finish (p : Progress α) (s : σ) : Walks w d p s [] [] (.ok p) s
  | next {p p' : Progress α} {s s' s'' : σ} {t : Task} {ts : List Task}
      {es : List (Event σ α)} {out : Except (Stop ε) (Progress α)} :
      w.attempt d p s t = (.ok p', s') → Walks w d p' s' ts es out s'' →
      Walks w d p s (t :: ts) (t.events p.activation s ++ es) out s''
  | stop {p : Progress α} {s s' : σ} {t : Task} {ts : List Task} {e : Stop ε} :
      w.attempt d p s t = (.error e, s') →
      Walks w d p s (t :: ts) (t.events p.activation s) (.error e) s'

section Walks

variable {w : World σ ε α} {d : Descriptor α}

/-- The first task of a watched dialogue is attempted; if it fails, nothing follows. -/
theorem carry_perform_cons (p : Progress α) (t : Task) (ts : List Task) (r : Record σ α) :
    (perform d p (t :: ts)).carry w.ending r =
      let after (s : σ) : Record σ α :=
        { state := s, events := r.events ++ t.events p.activation r.state }
      match w.attempt d p r.state t with
      | (.ok p', s) => (perform d p' ts).carry w.ending (after s)
      | (.error e, s) => (.error e, after s) := by
  cases t with
  | keep =>
      show (perform d p.kept ts).carry w.ending r
        = (perform d p.kept ts).carry w.ending { state := r.state, events := r.events ++ [] }
      rw [List.append_nil]
  | check kind c =>
      let ask (s : σ) := (w.verdict kind c p.activation s, s)
      cases hv : w.verdict kind c p.activation r.state with
      | error x =>
          simp only [World.attempt, hv]
          exact Watched.observe_bind_of_error (q := ask) (Prod.ext hv rfl)
      | ok b =>
          cases b <;> simp only [World.attempt, hv] <;>
            exact Watched.observe_bind_of_ok (q := ask) (Prod.ext hv rfl)
  | capture f =>
      let ask (s : σ) := (w.value p.activation f s, s)
      cases hv : w.value p.activation f r.state with
      | error x =>
          simp only [World.attempt, hv]
          exact Watched.observe_bind_of_error (q := ask) (Prod.ext hv rfl)
      | ok v =>
          simp only [World.attempt, hv]
          exact Watched.observe_bind_of_ok (q := ask) (Prod.ext hv rfl)
  | invoke =>
      rcases hv : w.outcome p.activation r.state with ⟨x | v, s⟩
      · simp only [World.attempt, hv]
        exact Watched.observe_bind_of_error hv
      · simp only [World.attempt, hv]
        exact Watched.observe_bind_of_ok hv

/-- A watched dialogue walks through its tasks. -/
theorem exists_walks (p : Progress α) (ts : List Task) (r : Record σ α) :
    ∃ es out s', w.Walks d p r.state ts es out s' ∧
      (perform d p ts).carry w.ending r
        = (out.map (·.activation), { state := s', events := r.events ++ es }) := by
  induction ts generalizing p r with
  | nil => exact ⟨[], .ok p, r.state, .finish p r.state, by rw [List.append_nil]; rfl⟩
  | cons t ts ih =>
      rw [carry_perform_cons]
      rcases ht : w.attempt d p r.state t with ⟨e | p', s⟩
      · exact ⟨_, .error e, s, .stop ht, rfl⟩
      · obtain ⟨es, out, s', hw, hcarry⟩ :=
          ih p' { state := s, events := r.events ++ t.events p.activation r.state }
        refine ⟨_, out, s', .next ht hw, ?_⟩
        rw [← List.append_assoc]
        exact hcarry

/-- **A RUN IS A WALK** through the tasks of its plan. -/
theorem run_walks (w : World σ ε α) (d : Descriptor α) (a : Activation α) (s : σ) :
    ∃ out, w.Walks d { activation := a } s d.tasks (w.run d a s).events out (w.run d a s).state ∧
      (w.run d a s).result = out.map (·.activation.result) := by
  obtain ⟨es, out, s', hw, hcarry⟩ :=
    exists_walks (w := w) (d := d) { activation := a } d.tasks { state := s }
  have hrun : w.surroundings.run d a { state := s }
      = (out.map (·.activation.result), { state := s', events := es }) := by
    rw [run_eq_carry w.ending, dialogue_eq_perform]
    show ((perform d { activation := a } d.tasks >>= fun b => Dialogue.done b.result).carry
      w.ending) { state := s } = _
    rw [carry_bind, Watched.bind_apply, hcarry]
    cases out <;> rfl
  unfold World.run
  rw [hrun]
  exact ⟨out, hw, rfl⟩

/-- Tasks in two parts: the second part is taken if the first one succeeds. -/
theorem World.Walks.append {p : Progress α} {s s' : σ} {ts us : List Task}
    {es : List (Event σ α)} {out : Except (Stop ε) (Progress α)}
    (h : w.Walks d p s (ts ++ us) es out s') :
    (∃ p₁ s₁ es₁ es₂, w.Walks d p s ts es₁ (.ok p₁) s₁ ∧ w.Walks d p₁ s₁ us es₂ out s' ∧
      es = es₁ ++ es₂) ∨
    ∃ e, out = .error e ∧ w.Walks d p s ts es (.error e) s' := by
  induction ts generalizing p s es with
  | nil => exact .inl ⟨p, s, [], es, .finish p s, h, rfl⟩
  | cons t ts ih =>
      cases h with
      | next ht h =>
          rcases ih h with ⟨p₁, s₁, es₁, es₂, h₁, h₂, rfl⟩ | ⟨e, rfl, hstop⟩
          · exact .inl ⟨p₁, s₁, _, es₂, .next ht h₁, h₂, by rw [List.append_assoc]⟩
          · exact .inr ⟨e, rfl, .next ht hstop⟩
      | stop ht => exact .inr ⟨_, rfl, .stop ht⟩

end Walks

end Covenant
