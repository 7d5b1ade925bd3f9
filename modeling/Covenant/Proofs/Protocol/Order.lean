import Covenant.Demonstration
import Covenant.Proofs.Protocol.Watched
import Covenant.Proofs.Weaving.Accepted

/-! # The order of a run — first failure wins

    A run takes the actions of its plan in order.  Whatever the clauses say,
    whatever the fields hold and whatever the implementation does, it ends at
    the first action that fails, and with the failure of that action.

    * `InPlanOrder` is the law of the whole run, by induction on its walk.
    * The entry of a run changes nothing and leads to the implementation
      exactly if all clauses hold and all fields are captured (`walks_entry`);
      its exit changes nothing either (`walks_exit`).
    * `Guards` puts this together for methods and functions, `Constructs` for
      constructors, whose clauses meet the new instance only. -/

namespace Covenant

open Declaration Machine Weaving Wrapper

variable {σ ε α : Type} {w : World σ ε α} {d : Descriptor α}

/-! ## Order -/

/-- The actions of a plan. -/
def Wrapper.Descriptor.actions (d : Descriptor α) : List Action :=
  d.tasks.filterMap Task.action?

/-- The events are the planned actions from the first to the last or to the first that fails,
    and the failure, if any, is what ends the run. -/
def World.InPlanOrder {β : Type} (w : World σ ε α) (d : Descriptor α) (planned : List Action)
    (events : List (Event σ α)) (result : Except (Stop ε) β) : Prop :=
  ((∃ b, result = .ok b) ∧ events.map (·.action) = planned ∧
    ∀ e ∈ events, w.fault? d e = none) ∨
  ∃ before last after stop, result = .error stop ∧ events = before ++ [last] ∧
    planned = before.map (·.action) ++ last.action :: after ∧
    (∀ e ∈ before, w.fault? d e = none) ∧ w.fault? d last = some stop

/-- The failure of an action is that of its task. -/
theorem fault?_eq {p : Progress α} {s : σ} {t : Task} {x : Action} (hx : t.action? = some x) :
    w.fault? d ⟨x, p.activation, s⟩ = match (w.attempt d p s t).1 with
      | .ok _ => none
      | .error e => some e := by
  cases t with
  | keep => cases hx
  | check kind c =>
      cases hx
      unfold World.attempt World.fault?
      dsimp only
      cases w.verdict kind c p.activation s with
      | error x => rfl
      | ok b => cases b <;> rfl
  | capture f =>
      cases hx
      unfold World.attempt World.fault?
      dsimp only
      cases w.value p.activation f s <;> rfl
  | invoke =>
      cases hx
      unfold World.attempt World.fault?
      dsimp only
      rcases w.outcome p.activation s with ⟨_ | _, _⟩ <;> rfl

/-- What a task puts on record is its action, if it is one. -/
theorem map_action_events (t : Task) (a : Activation α) (s : σ) :
    (t.events a s).map (·.action) = t.action?.toList := by
  unfold Task.events
  cases t.action? <;> rfl

/-- A task that succeeds puts no failure on record. -/
theorem fault?_of_attempt_ok {p p' : Progress α} {s s' : σ} {t : Task}
    (h : w.attempt d p s t = (.ok p', s')) :
    ∀ e ∈ t.events p.activation s, w.fault? d e = none := by
  intro e he
  unfold Task.events at he
  cases hx : t.action? with
  | none =>
      rw [hx] at he
      exact absurd he List.not_mem_nil
  | some x =>
      rw [hx] at he
      rw [List.mem_singleton.mp he, fault?_eq hx, h]

/-- A task that fails is an action, and its failure is the one on record. -/
theorem fault?_of_attempt_error {p : Progress α} {s s' : σ} {t : Task} {e : Stop ε}
    (h : w.attempt d p s t = (.error e, s')) :
    ∃ x, t.action? = some x ∧ w.fault? d ⟨x, p.activation, s⟩ = some e := by
  cases hx : t.action? with
  | none =>
      cases t with
      | keep => cases h
      | check | capture | invoke => cases hx
  | some x =>
      refine ⟨x, rfl, ?_⟩
      rw [fault?_eq hx, h]

/-- A walk is in the order of its tasks. -/
theorem World.Walks.inPlanOrder {p : Progress α} {s s' : σ} {ts : List Task}
    {es : List (Event σ α)} {out : Except (Stop ε) (Progress α)}
    (h : w.Walks d p s ts es out s') : w.InPlanOrder d (ts.filterMap Task.action?) es out := by
  induction h with
  | finish p s => exact .inl ⟨⟨p, rfl⟩, rfl, fun e he => absurd he List.not_mem_nil⟩
  | @next p p' s s' s'' t ts es out ht _ ih =>
      have hfaults := fault?_of_attempt_ok ht
      have hplanned : (t :: ts).filterMap Task.action?
          = (t.events p.activation s).map (·.action) ++ ts.filterMap Task.action? := by
        rw [map_action_events, List.filterMap_cons]
        cases t.action? <;> rfl
      rw [hplanned]
      rcases ih with ⟨hok, hes, hfine⟩ | ⟨before, last, after, stop, hout, rfl, hts, hfine, hlast⟩
      · refine .inl ⟨hok, ?_, ?_⟩
        · rw [List.map_append, hes]
        · intro e he
          rcases List.mem_append.mp he with he | he
          · exact hfaults e he
          · exact hfine e he
      · refine .inr ⟨t.events p.activation s ++ before, last, after, stop, hout, ?_, ?_, ?_, hlast⟩
        · rw [List.append_assoc]
        · rw [hts, List.map_append, List.append_assoc]
        · intro e he
          rcases List.mem_append.mp he with he | he
          · exact hfaults e he
          · exact hfine e he
  | @stop p s s' t ts e ht =>
      obtain ⟨x, hx, hfault⟩ := fault?_of_attempt_error ht
      refine .inr ⟨[], ⟨x, p.activation, s⟩, ts.filterMap Task.action?, e, rfl, ?_, ?_, ?_, hfault⟩
      · unfold Task.events
        rw [hx]
        rfl
      · rw [List.filterMap_cons, hx]
        rfl
      · intro e he
        exact absurd he List.not_mem_nil

/-! ## Parts of a walk -/

/-- Whether an action is the call of the implementation. -/
def Action.isInvoke : Action → Bool
  | .invoke => true
  | _ => false

/-- Events that meet an activation and a state, and leave the implementation alone. -/
def Rest (a : Activation α) (s : σ) (es : List (Event σ α)) : Prop :=
  ∀ e ∈ es, e.action.isInvoke = false ∧ e.activation = a ∧ e.state = s

theorem Rest.nil (a : Activation α) (s : σ) : Rest a s [] :=
  fun _ he => absurd he List.not_mem_nil

theorem Rest.append {a : Activation α} {s : σ} {es fs : List (Event σ α)} (he : Rest a s es)
    (hf : Rest a s fs) : Rest a s (es ++ fs) := by
  intro e hmem
  rcases List.mem_append.mp hmem with hmem | hmem
  · exact he e hmem
  · exact hf e hmem

/-- The clauses are true of an activation in a state. -/
def World.Upholds (w : World σ ε α) (kind : ViolationKind) (cs : List EnforcedClause)
    (a : Activation α) (s : σ) : Prop :=
  ∀ c ∈ cs, w.verdict kind c a s = .ok true

/-- A walk through checks comes to its end exactly if they are all true. -/
theorem walks_checks {p : Progress α} {s s' : σ} {kind : ViolationKind}
    {cs : List EnforcedClause} {es : List (Event σ α)} {out : Except (Stop ε) (Progress α)}
    (h : w.Walks d p s (cs.map (.check kind)) es out s') :
    s' = s ∧ Rest p.activation s es ∧
      ((out = .ok p ∧ w.Upholds kind cs p.activation s) ∨
        ∃ e, out = .error e ∧ ¬ w.Upholds kind cs p.activation s) := by
  induction cs generalizing es with
  | nil =>
      cases h with
      | finish => exact ⟨rfl, .nil _ _, .inl ⟨rfl, fun c hc => absurd hc List.not_mem_nil⟩⟩
  | cons c cs ih =>
      have hone : Rest p.activation s ((Task.check kind c).events p.activation s) := by
        intro e he
        rw [List.mem_singleton.mp he]
        exact ⟨rfl, rfl, rfl⟩
      cases h with
      | next ht h =>
          unfold World.attempt at ht
          dsimp only at ht
          split at ht <;> cases ht
          rename_i hv
          obtain ⟨rfl, hrest, hcases⟩ := ih h
          refine ⟨rfl, hone.append hrest, ?_⟩
          rcases hcases with ⟨hout, hall⟩ | ⟨e, hout, hnot⟩
          · exact .inl ⟨hout, List.forall_mem_cons.mpr ⟨hv, hall⟩⟩
          · exact .inr ⟨e, hout, fun hall => hnot (List.forall_mem_cons.mp hall).2⟩
      | @stop _ _ _ _ _ e ht =>
          have hv : w.verdict kind c p.activation s ≠ .ok true := by
            intro hv
            simp only [World.attempt, hv] at ht
            cases ht
          unfold World.attempt at ht
          dsimp only at ht
          refine ⟨?_, hone, .inr ⟨e, rfl, fun hall => hv (hall c List.mem_cons_self)⟩⟩
          split at ht <;> cases ht <;> rfl

/-- A walk through captures comes to its end exactly if all fields have values; then these are
    what it has captured. -/
theorem walks_captures {p : Progress α} {s s' : σ} {fs : List String} {es : List (Event σ α)}
    {out : Except (Stop ε) (Progress α)} (h : w.Walks d p s (fs.map .capture) es out s') :
    s' = s ∧ Rest p.activation s es ∧
      ((∃ p', out = .ok p' ∧ p'.activation = p.activation ∧
          (∀ f ∈ fs, ∃ v, w.value p.activation f s = .ok v ∧ p'.store.lookup f = some v) ∧
          ∀ f, f ∉ fs → p'.store.lookup f = p.store.lookup f) ∨
        ∃ e, out = .error e ∧ ∃ f ∈ fs, ∀ v, w.value p.activation f s ≠ .ok v) := by
  induction fs generalizing p es with
  | nil =>
      cases h with
      | finish =>
          exact ⟨rfl, .nil _ _,
            .inl ⟨p, rfl, rfl, (fun f hf => absurd hf List.not_mem_nil), fun _ _ => rfl⟩⟩
  | cons f fs ih =>
      have hone : Rest p.activation s ((Task.capture f).events p.activation s) := by
        intro e he
        rw [List.mem_singleton.mp he]
        exact ⟨rfl, rfl, rfl⟩
      cases h with
      | next ht h =>
          unfold World.attempt at ht
          dsimp only at ht
          split at ht <;> cases ht
          rename_i v hv
          obtain ⟨rfl, hrest, hcases⟩ := ih h
          refine ⟨rfl, hone.append hrest, ?_⟩
          rcases hcases with ⟨p', hout, hact, hfound, hothers⟩ | ⟨e, hout, g, hg, hnot⟩
          · refine .inl ⟨p', hout, hact, ?_, ?_⟩
            · intro g hg
              by_cases hmem : g ∈ fs
              · exact hfound g hmem
              · obtain rfl : g = f := (List.mem_cons.mp hg).resolve_right hmem
                refine ⟨v, hv, ?_⟩
                rw [hothers g hmem]
                exact (Captures.lookup_capture _ _ _ _).trans (if_pos rfl)
            · intro g hg
              rw [List.mem_cons, not_or] at hg
              rw [hothers g hg.2]
              exact (Captures.lookup_capture _ _ _ _).trans (if_neg hg.1)
          · exact .inr ⟨e, hout, g, List.mem_cons_of_mem _ hg, hnot⟩
      | @stop _ _ _ _ _ e ht =>
          unfold World.attempt at ht
          dsimp only at ht
          split at ht <;> cases ht
          rename_i hv
          refine ⟨rfl, hone, .inr ⟨_, rfl, f, List.mem_cons_self, fun v hv' => ?_⟩⟩
          rw [hv] at hv'
          cases hv'

/-- The implementation has come to a result. -/
theorem outcome_of_attempt_ok {p p' : Progress α} {s s' : σ}
    (h : w.attempt d p s .invoke = (.ok p', s')) :
    ∃ v, w.outcome p.activation s = (.ok v, s') ∧ p' = p.answered d.role v := by
  unfold World.attempt at h
  rcases hv : w.outcome p.activation s with ⟨x | v, s₁⟩
  · rw [hv] at h
    cases h
  · rw [hv] at h
    cases h
    exact ⟨v, rfl, rfl⟩

/-- The implementation has raised something. -/
theorem outcome_of_attempt_error {p : Progress α} {s s' : σ} {e : Stop ε}
    (h : w.attempt d p s .invoke = (.error e, s')) : (w.outcome p.activation s).2 = s' := by
  unfold World.attempt at h
  rcases hv : w.outcome p.activation s with ⟨x | v, s₁⟩
  · rw [hv] at h
    cases h
    rfl
  · rw [hv] at h
    cases h

/-! ## Methods and functions -/

/-- All that has to be true before the implementation is invoked. -/
structure World.Ready (w : World σ ε α) (d : Descriptor α) (a : Activation α) (s : σ) : Prop where
  invariants : w.Upholds .invariant d.invariants a s
  preconditions : w.Upholds .precondition d.preconditions a s
  captures : ∀ f ∈ d.capturedFields, ∃ v, w.value a f s = .ok v

/-- The activation with which the implementation is invoked: that of the entry, with the values
    that the fields had there. -/
structure World.Primes (w : World σ ε α) (d : Descriptor α) (a : Activation α) (s : σ)
    (b : Activation α) : Prop where
  eq : b = { a with captures := b.captures }
  captured : ∀ f ∈ d.capturedFields, ∃ v, w.value a f s = .ok v ∧
    b.captures.bind (·.lookup f) = some v

/-- The entry of a run changes nothing and comes to its end exactly if the run is ready. -/
theorem walks_entry {a : Activation α} {s s' : σ} {es : List (Event σ α)}
    {out : Except (Stop ε) (Progress α)}
    (h : w.Walks d { activation := a } s (d.tasksBefore ++ d.captureTasks) es out s') :
    s' = s ∧ Rest a s es ∧
      ((∃ p, out = .ok p ∧ w.Ready d a s ∧ w.Primes d a s p.activation) ∨
        ∃ e, out = .error e ∧ ¬ w.Ready d a s) := by
  unfold Descriptor.tasksBefore at h
  rw [List.append_assoc] at h
  rcases h.append with ⟨p₁, s₁, es₁, es₂, hi, h, rfl⟩ | ⟨e, rfl, hi⟩
  · obtain ⟨rfl, hri, ⟨hp, hinv⟩ | ⟨_, hp, -⟩⟩ := walks_checks hi <;> cases hp
    rcases h.append with ⟨p₂, s₂, es₂, es₃, hq, h, rfl⟩ | ⟨e, rfl, hq⟩
    · obtain ⟨rfl, hrq, ⟨hp, hpre⟩ | ⟨_, hp, -⟩⟩ := walks_checks hq <;> cases hp
      unfold Descriptor.captureTasks at h
      split at h
      · -- nothing is captured
        rename_i hempty
        rw [List.isEmpty_iff] at hempty
        cases h
        refine ⟨rfl, hri.append (hrq.append (.nil _ _)), .inl ⟨_, rfl, ⟨hinv, hpre, ?_⟩, rfl, ?_⟩⟩
        · rw [hempty]
          exact fun f hf => absurd hf List.not_mem_nil
        · rw [hempty]
          exact fun f hf => absurd hf List.not_mem_nil
      · rcases h.append with ⟨p₃, s₃, es₃, es₄, hc, hk, rfl⟩ | ⟨e, rfl, hc⟩
        · obtain ⟨rfl, hrc, ⟨p', hp, hact, hfound, -⟩ | ⟨_, hp, -⟩⟩ := walks_captures hc <;>
            cases hp
          cases hk with
          | stop ht => cases ht
          | next ht hk =>
              cases ht
              cases hk
              refine ⟨rfl, hri.append (hrq.append (hrc.append (.nil _ _))),
                .inl ⟨_, rfl, ⟨hinv, hpre, ?_⟩, ?_, hfound⟩⟩
              · intro f hf
                obtain ⟨v, hv, -⟩ := hfound f hf
                exact ⟨v, hv⟩
              · unfold Progress.kept
                rw [hact]
        · obtain ⟨rfl, hrc, ⟨p', hp, -⟩ | ⟨_, hp, f, hf, hnot⟩⟩ := walks_captures hc
          · cases hp
          · refine ⟨rfl, hri.append (hrq.append hrc), .inr ⟨e, rfl, fun hr => ?_⟩⟩
            obtain ⟨v, hv⟩ := hr.captures f hf
            exact hnot v hv
    · obtain ⟨rfl, hrq, ⟨hp, -⟩ | ⟨_, -, hnot⟩⟩ := walks_checks hq
      · cases hp
      · exact ⟨rfl, hri.append hrq, .inr ⟨e, rfl, fun hr => hnot hr.preconditions⟩⟩
  · obtain ⟨rfl, hri, ⟨hp, -⟩ | ⟨_, -, hnot⟩⟩ := walks_checks hi
    · cases hp
    · exact ⟨rfl, hri, .inr ⟨e, rfl, fun hr => hnot hr.invariants⟩⟩

/-- The exit of a run changes nothing, and if it comes to its end all clauses are true. -/
theorem walks_exit {p : Progress α} {s s' : σ} {es : List (Event σ α)}
    {out : Except (Stop ε) (Progress α)}
    (h : w.Walks d p s
      (d.postconditions.map (.check .postcondition) ++ d.invariants.map (.check .invariant))
      es out s') :
    s' = s ∧ Rest p.activation s es ∧
      ∀ p', out = .ok p' → p' = p ∧
        w.Upholds .postcondition d.postconditions p.activation s ∧
        w.Upholds .invariant d.invariants p.activation s := by
  rcases h.append with ⟨p₁, s₁, es₁, es₂, hq, hi, rfl⟩ | ⟨e, rfl, hq⟩
  · obtain ⟨rfl, hrq, ⟨hp, hpost⟩ | ⟨_, hp, -⟩⟩ := walks_checks hq <;> cases hp
    obtain ⟨rfl, hri, hcases⟩ := walks_checks hi
    refine ⟨rfl, hrq.append hri, ?_⟩
    rintro p' rfl
    rcases hcases with ⟨hp, hinv⟩ | ⟨_, hp, -⟩ <;> cases hp
    exact ⟨rfl, hpost, hinv⟩
  · obtain ⟨rfl, hrq, -⟩ := walks_checks hq
    refine ⟨rfl, hrq, ?_⟩
    rintro p' hp
    cases hp

/-- The calls of the implementation. -/
def Ran.invocations (ran : Ran σ ε α) : List (Event σ α) := ran.events.filter (·.action.isInvoke)

/-- What a run of a method or a function guarantees. -/
structure World.Guards (w : World σ ε α) (d : Descriptor α) (a : Activation α) (s : σ)
    (ran : Ran σ ε α) : Prop where
  once : ran.invocations.length ≤ 1
  invoked_iff : ran.invocations ≠ [] ↔ w.Ready d a s
  /-- The implementation meets the state of the entry. -/
  invoked_at : ∀ e ∈ ran.invocations, e.state = s ∧ w.Primes d a s e.activation
  /-- Without a call of the implementation nothing has changed. -/
  untouched : ran.invocations = [] → ran.state = s ∧ Rest a s ran.events
  /-- A result is that of the implementation, and all is true of the state it has left. -/
  returned : ∀ r, ran.result = .ok r → ∃ b v, w.Primes d a s b ∧
    w.outcome b s = (.ok v, ran.state) ∧ r = some v ∧
    w.Upholds .postcondition d.postconditions { b with result := some v } ran.state ∧
    w.Upholds .invariant d.invariants { b with result := some v } ran.state

/-- Events that leave the implementation alone are no calls. -/
theorem Rest.filter_isInvoke {a : Activation α} {s : σ} {es : List (Event σ α)}
    (h : Rest a s es) : es.filter (·.action.isInvoke) = [] := by
  rw [List.filter_eq_nil_iff]
  intro e he
  rw [(h e he).1]
  exact Bool.false_ne_true

/-- **METHODS AND FUNCTIONS ARE GUARDED** in every world. -/
theorem guards_run (w : World σ ε α) (hrole : d.role ≠ .constructor) (a : Activation α) (s : σ) :
    w.Guards d a s (w.run d a s) := by
  obtain ⟨out, h, hresult⟩ := run_walks w d a s
  generalize w.run d a s = ran at h hresult
  rw [d.tasks_of_ne_constructor hrole] at h
  rcases h.append with ⟨p, s₁, es₁, es₂, hentry, hexit, hevents⟩ | ⟨e, rfl, hentry⟩
  · obtain ⟨hs, hrest, ⟨p', hp, hready, hprimes⟩ | ⟨_, hp, -⟩⟩ := walks_entry hentry <;> cases hp
    obtain rfl : s = s₁ := hs.symm
    -- the implementation is next, and nothing else can call it
    obtain ⟨exit, rfl, a₂, hafter, hreturned⟩ : ∃ exit, es₂ = ⟨.invoke, p.activation, s⟩ :: exit ∧
        ∃ a₂, Rest a₂ ran.state exit ∧ ∀ r, ran.result = .ok r → ∃ v,
          w.outcome p.activation s = (.ok v, ran.state) ∧ r = some v ∧
          w.Upholds .postcondition d.postconditions { p.activation with result := some v }
            ran.state ∧
          w.Upholds .invariant d.invariants { p.activation with result := some v } ran.state := by
      cases hexit with
      | stop ht =>
          refine ⟨[], rfl, a, .nil _ _, ?_⟩
          intro r hr
          rw [hresult] at hr
          cases hr
      | @next _ _ _ _ _ _ _ es _ ht hrun =>
          obtain ⟨v, hv, rfl⟩ := outcome_of_attempt_ok ht
          obtain ⟨hstate, hafter, hdone⟩ := walks_exit hrun
          rw [← hstate] at hv hafter hdone
          refine ⟨es, rfl, _, hafter, ?_⟩
          intro r hr
          rw [hresult] at hr
          cases out with
          | error e => cases hr
          | ok p' =>
              obtain ⟨rfl, hpost, hinv⟩ := hdone p' rfl
              cases hr
              unfold Progress.answered at hpost hinv ⊢
              simp only [hrole, if_false] at hpost hinv ⊢
              exact ⟨v, hv, rfl, hpost, hinv⟩
    have hcalls : ran.invocations = [⟨.invoke, p.activation, s⟩] := by
      unfold Ran.invocations
      rw [hevents, List.filter_append, hrest.filter_isInvoke, List.filter_cons_of_pos rfl,
        hafter.filter_isInvoke]
      rfl
    refine ⟨?_, ?_, ?_, ?_, ?_⟩
    · rw [hcalls]
      exact Nat.le_refl 1
    · rw [hcalls]
      exact ⟨fun _ => hready, fun _ => List.cons_ne_nil _ _⟩
    · rw [hcalls]
      intro e he
      rw [List.mem_singleton.mp he]
      exact ⟨rfl, hprimes⟩
    · rw [hcalls]
      exact fun h => absurd h (List.cons_ne_nil _ _)
    · intro r hr
      obtain ⟨v, hv⟩ := hreturned r hr
      exact ⟨p.activation, v, hprimes, hv⟩
  · obtain ⟨hstate, hrest, ⟨_, hp, -⟩ | ⟨_, -, hunready⟩⟩ := walks_entry hentry
    · cases hp
    have hcalls : ran.invocations = [] := hrest.filter_isInvoke
    refine ⟨?_, ?_, ?_, ?_, ?_⟩
    · rw [hcalls]
      exact Nat.zero_le 1
    · rw [hcalls]
      exact ⟨fun h => absurd rfl h, fun h => absurd h hunready⟩
    · rw [hcalls]
      exact fun e he => absurd he List.not_mem_nil
    · exact fun _ => ⟨hstate, hrest⟩
    · intro r hr
      rw [hresult] at hr
      cases hr

/-! ## Constructors -/

/-- What a run of a constructor guarantees. -/
structure World.Constructs (w : World σ ε α) (d : Descriptor α) (a : Activation α) (s : σ)
    (ran : Ran σ ε α) : Prop where
  /-- The initializer comes first; all else meets the new instance as it was left. -/
  first : ∃ exit, ran.events = ⟨.invoke, a, s⟩ :: exit ∧
    Rest { a with result := a.receiver? } ran.state exit
  left : ran.state = (w.outcome a s).2
  returned : ∀ r, ran.result = .ok r → r = a.receiver? ∧
    (∃ v, w.outcome a s = (.ok v, ran.state)) ∧
    w.Upholds .precondition d.preconditions { a with result := a.receiver? } ran.state ∧
    w.Upholds .postcondition d.postconditions { a with result := a.receiver? } ran.state ∧
    w.Upholds .invariant d.invariants { a with result := a.receiver? } ran.state

/-- **CONSTRUCTORS CHECK THE NEW INSTANCE** and give it back. -/
theorem constructs_run (w : World σ ε α) (hrole : d.role = .constructor) (a : Activation α)
    (s : σ) : w.Constructs d a s (w.run d a s) := by
  obtain ⟨out, h, hresult⟩ := run_walks w d a s
  generalize hran : w.run d a s = ran at h hresult
  rw [d.tasks_of_constructor hrole] at h
  generalize hes : ran.events = es at h
  cases h with
  | stop ht =>
      refine ⟨⟨[], hes, .nil _ _⟩, (outcome_of_attempt_error ht).symm, ?_⟩
      · intro r hr
        rw [hresult] at hr
        cases hr
  | next ht hrun =>
      obtain ⟨v, hv, rfl⟩ := outcome_of_attempt_ok ht
      rw [List.append_assoc] at hrun
      rcases hrun.append with ⟨p₁, s₁, es₁, es₂, hq, hexit, rfl⟩ | ⟨e, rfl, hq⟩
      · obtain ⟨rfl, hrq, ⟨hp, hpre⟩ | ⟨_, hp, -⟩⟩ := walks_checks hq <;> cases hp
        obtain ⟨hstate, hexit, hdone⟩ := walks_exit hexit
        unfold Progress.answered at hrq hpre hexit hdone
        simp only [hrole, if_true] at hrq hpre hexit hdone
        rw [← hstate] at hrq hpre hexit hdone hv
        refine ⟨⟨_, hes, hrq.append hexit⟩, ?_, ?_⟩
        · rw [hv]
        · intro r hr
          rw [hresult] at hr
          cases out with
          | error e => cases hr
          | ok p' =>
              obtain ⟨rfl, hpost, hinv⟩ := hdone p' rfl
              cases hr
              exact ⟨rfl, ⟨v, hv⟩, hpre, hpost, hinv⟩
      · obtain ⟨hstate, hrq, -⟩ := walks_checks hq
        unfold Progress.answered at hrq
        simp only [hrole, if_true] at hrq
        rw [← hstate] at hrq hv
        refine ⟨⟨_, hes, hrq⟩, ?_, ?_⟩
        · rw [hv]
        · intro r hr
          rw [hresult] at hr
          cases hr

/-! ## Woven descriptors -/

/-- **FIRST FAILURE WINS**: a run of a woven descriptor enforces the clauses of a declared
    callable; it takes the actions of its plan in order up to the first that fails; a method or
    function is guarded, and a constructor checks the instance it has made. -/
theorem run_in_plan_order {t : Table α} {r : Result α} {d : Descriptor α}
    (h : weave t = .ok r) (hd : d ∈ r.descriptors) (w : World σ ε α) (receiver? : Option α)
    (arguments : Signature.Binding α) (s : σ) :
    let a : Activation α := { receiver? := receiver?, arguments := arguments }
    let ran := w.run d a s
    (∃ c enclosing invariants, Stands t c enclosing invariants ∧ Realizes d c enclosing) ∧
      w.InPlanOrder d d.actions ran.events ran.result ∧
      (d.role ≠ .constructor → w.Guards d a s ran) ∧
      (d.role = .constructor → d.isAsync = false ∧ w.Constructs d a s ran) := by
  intro a ran
  obtain ⟨c, enclosing, invariants, hstands, hweaves⟩ := exists_of_mem_descriptors h hd
  refine ⟨⟨c, enclosing, invariants, hstands, hweaves.realizes hstands⟩, ?_, ?_, ?_⟩
  · obtain ⟨out, hwalk, hresult⟩ := run_walks w d a s
    rcases hwalk.inPlanOrder with ⟨⟨p, rfl⟩, hes, hfine⟩ | ⟨before, last, after, stop, rfl, hrest⟩
    · exact .inl ⟨⟨_, hresult⟩, hes, hfine⟩
    · exact .inr ⟨before, last, after, stop, hresult, hrest⟩
  · exact fun hrole => guards_run w hrole a s
  · exact fun hrole => ⟨hweaves.isAsync_of_constructor hrole, constructs_run w hrole a s⟩

/-- A world in which everything is true except preconditions. -/
def World.refusing : World Nat Unit Value.Datum where
  verdict kind _ _ _ := .ok (kind != .precondition)
  value _ _ _ := .ok .none
  body _ n := .paused n fun m => .done .none (m + 1)
  others n := n + 1

/-- The ledger's method is not invoked where its precondition is false. -/
theorem run_in_plan_order_ledger : ∃ r d, weave { types := [Demonstration.ledger] } = .ok r ∧
    d ∈ r.descriptors ∧ d.role = .method ∧
    let ran := World.refusing.run d { receiver? := some .none, arguments := [] } 7
    World.refusing.InPlanOrder d d.actions ran.events ran.result ∧ ran.invocations = [] ∧
      ran.state = 7 := by
  obtain ⟨r, d, h, -, hd, -, hrole, -, hlength, -⟩ := ledger_woven
  have hmem : d ∈ r.descriptors := by
    rw [hd]
    exact List.mem_singleton_self d
  obtain ⟨-, horder, hguards, -⟩ := run_in_plan_order h hmem World.refusing (some .none) [] 7
  have hguard := hguards (by rw [hrole]; exact Role.noConfusion)
  have hnone : (World.refusing.run d { receiver? := some .none, arguments := [] } 7).invocations
      = [] := by
    by_contra hsome
    have hpre := (hguard.invoked_iff.mp hsome).preconditions
    obtain ⟨c, hc⟩ := List.length_eq_one_iff.mp hlength
    rw [hc] at hpre
    have hfalse : (Except.ok false : Except Unit Bool) = .ok true :=
      hpre c (List.mem_singleton_self c)
    cases hfalse
  exact ⟨r, d, h, hmem, hrole, horder, hnone, (hguard.untouched hnone).1⟩

end Covenant
