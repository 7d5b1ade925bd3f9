import Covenant.Demonstration
import Covenant.Proofs.Protocol.Watched
import Covenant.Proofs.Weaving.Accepted
import Covenant.Wrapper.Emission

/-! # Emitted wrappers — statements that take the tasks of the plan

    The body of an emitted wrapper is a list of statements, made from the same
    plan that a run takes step by step.  `execute` reads them as what they are:
    each statement looks at the local names of the wrapper, may ask one
    question, and binds a name or ends the call.

    * An activation holds what the local names stand for: the instance, the
      parameters, the store and the result.
    * `Mirrors` relates statements to tasks; `mirrors_checks` and
      `execute_captures` follow the clauses and the fields, and
      `protocol_of_ne_constructor` and `protocol_of_constructor` spell the
      statements out.
    * `emitted_eq_dialogue`: executing the statements is the dialogue of a run,
      question by question.
    * `exists_lines_iff` says which statements have lines.
    * `emitted_follows_run` puts this together for woven descriptors, in every
      surroundings. -/

namespace Covenant

open Declaration Wrapper

variable {α : Type}

/-! ## Executing statements -/

/-- Executes statements where the local names stand for what an activation holds, and gives what
    the call returns.  The instance is made and the defaults are resolved before there is an
    activation. -/
def execute (d : Descriptor α) : Activation α → List Statement → Dialogue α (Option α)
  -- a call that comes to the end of its statements returns nothing
  | _, [] => .done none
  | a, .makeInstance :: ss => execute d a ss
  | a, .resolveDefault _ :: ss => execute d a ss
  | a, .check kind c :: ss => .ask (.holds kind c a) fun b : Bool =>
      if b then execute d a ss
      else .broken { kind := kind, message := c.message, clause := c.text, qualname := d.qualname }
  | a, .openStore :: ss => execute d { a with captures := some {} } ss
  -- a field is read from the instance, which knows nothing of the local store
  | a, .capture f :: ss => .ask (.preserve { a with captures := none } f) fun v : α =>
      execute d { a with captures := a.captures.map (·.capture f v) } ss
  | a, .invoke .outcome :: ss => .ask (.invoke a) fun v : α =>
      execute d { a with result := some v } ss
  | a, .invoke .receiver :: ss => .ask (.invoke a) fun _ : α =>
      execute d { a with result := a.receiver? } ss
  | a, .returnResult :: _ => .done a.result
  | a, .returnInstance :: _ => .done a.receiver?

namespace Wrapper.Descriptor

variable (d : Descriptor α)

/-- The dialogue of an emitted wrapper. -/
def emitted (a : Activation α) : Dialogue α (Option α) := execute d a d.protocol

/-- What a call gives of the result of its run: an initializer gives nothing. -/
def returned (result : Option α) : Option α :=
  if d.role = .constructor ∧ d.isFactory = false then none else result

theorem returned_of_ne_constructor (h : d.role ≠ .constructor) (result : Option α) :
    d.returned result = result := by
  rw [returned, if_neg fun hcon => h hcon.1]

theorem returned_of_constructor (h : d.role = .constructor) (result : Option α) :
    d.returned result = if d.isFactory then result else none := by
  rw [returned]
  cases d.isFactory with
  | true => exact if_neg fun hcon => Bool.noConfusion hcon.2
  | false => exact if_pos ⟨h, rfl⟩

/-! ## The statements of a plan -/

/-- The statements that capture old values, if there are any. -/
def captureStatements : List Statement :=
  if d.capturedFields.isEmpty then [] else .openStore :: d.capturedFields.map .capture

theorem flatMap_statementsOf_stepIf {kind : ViolationKind} {s : Step} {cs : List EnforcedClause}
    (hs : d.statementsOf s = cs.map (.check kind)) :
    (stepIf (!cs.isEmpty) s).flatMap d.statementsOf = cs.map (.check kind) := by
  cases cs with
  | nil => rfl
  | cons c cs =>
      show [s].flatMap d.statementsOf = _
      rw [List.flatMap_singleton, hs]

/-- The statements of a method or a function. -/
theorem protocol_of_ne_constructor (h : d.role ≠ .constructor) :
    d.protocol = d.invariants.map (.check .invariant) ++ d.preconditions.map (.check .precondition)
      ++ d.captureStatements ++ .invoke .outcome ::
        (d.postconditions.map (.check .postcondition)
          ++ (d.invariants.map (.check .invariant) ++ [.returnResult])) := by
  have hcapture : (stepIf (!d.capturedFields.isEmpty) .captureOld).flatMap d.statementsOf
      = d.captureStatements := by
    rw [captureStatements]
    cases d.capturedFields.isEmpty with
    | true => rfl
    | false => exact List.append_nil _
  have hfactory : d.isFactory = false := by
    rw [isFactory, decide_eq_false h]
    rfl
  have hinvoke : d.statementsOf .invoke = [.invoke .outcome] := by
    rw [statementsOf, if_neg h]
  have hanswer : d.statementsOf .answer = [.returnResult] := by
    rw [statementsOf, hfactory, if_neg h]
    rfl
  rw [protocol, steps]
  cases hr : d.role with
  | constructor => exact absurd hr h
  | method | function =>
      simp only [plan, List.flatMap_append, List.flatMap_cons, List.flatMap_nil, hcapture, hinvoke,
        hanswer, d.flatMap_statementsOf_stepIf (s := .checkInvariants) rfl,
        d.flatMap_statementsOf_stepIf (s := .checkPreconditions) rfl,
        d.flatMap_statementsOf_stepIf (s := .checkPostconditions) rfl, List.append_assoc,
        List.cons_append, List.nil_append]

/-- The statements of a constructor. -/
theorem protocol_of_constructor (h : d.role = .constructor) :
    d.protocol = .invoke .receiver :: (d.preconditions.map (.check .precondition)
      ++ d.postconditions.map (.check .postcondition) ++ d.invariants.map (.check .invariant)
      ++ if d.isFactory then [.returnInstance] else []) := by
  have hinvoke : d.statementsOf .invoke = [.invoke .receiver] := by
    rw [statementsOf, if_pos h]
  have hanswer : d.statementsOf .answer = if d.isFactory then [.returnInstance] else [] := by
    rw [statementsOf, if_pos h]
  rw [protocol, steps]
  simp only [h, plan, List.flatMap_append, List.flatMap_cons, List.flatMap_nil, hinvoke, hanswer,
    d.flatMap_statementsOf_stepIf (s := .checkInvariants) rfl,
    d.flatMap_statementsOf_stepIf (s := .checkPreconditions) rfl,
    d.flatMap_statementsOf_stepIf (s := .checkPostconditions) rfl, List.append_assoc,
    List.cons_append, List.nil_append, List.append_nil]

end Wrapper.Descriptor

/-! ## Statements and tasks -/

/-- Executing statements is taking tasks and returning what the run has come to. -/
def Mirrors (d : Descriptor α) (a : Activation α) (ss : List Statement) (ts : List Task) : Prop :=
  execute d a ss = (perform d { activation := a } ts).bind fun b => .done (d.returned b.result)

section Mirrors

variable {d : Descriptor α} {a : Activation α} {ss : List Statement} {ts : List Task}

/-- Clauses are checked by both in the same order. -/
theorem mirrors_checks (kind : ViolationKind) (cs : List EnforcedClause)
    (h : Mirrors d a ss ts) :
    Mirrors d a (cs.map (.check kind) ++ ss) (cs.map (.check kind) ++ ts) := by
  induction cs with
  | nil => exact h
  | cons c cs ih =>
      show Dialogue.ask (.holds kind c a) _ = Dialogue.ask (.holds kind c a) _
      congr
      funext b
      cases b with
      | true => exact ih
      | false => rfl

/-- Fields are captured by both in the same order: into a local store, or into one that becomes the
    store of the run at the end. -/
theorem execute_captures (ha : a.captures = none)
    (h : ∀ store, Mirrors d { a with captures := some store } ss ts) (fs : List String)
    (store : Captures α) :
    execute d { a with captures := some store } (fs.map .capture ++ ss)
      = (perform d { activation := a, store := store } (fs.map .capture ++ .keep :: ts)).bind
          fun b => .done (d.returned b.result) := by
  induction fs generalizing store with
  | nil => exact h store
  | cons f fs ih =>
      have hquestion : { a with captures := none } = a := by
        rw [← ha]
      show Dialogue.ask (.preserve { a with captures := none } f) _ = _
      rw [hquestion]
      show _ = Dialogue.ask (.preserve a f) _
      congr
      funext v
      exact ih (store.capture f v)

/-- A store is opened only if there is something to capture. -/
theorem mirrors_captureStatements (ha : a.captures = none) (hempty : Mirrors d a ss ts)
    (h : ∀ store, Mirrors d { a with captures := some store } ss ts) :
    Mirrors d a (d.captureStatements ++ ss) (d.captureTasks ++ ts) := by
  rw [Descriptor.captureStatements, Descriptor.captureTasks]
  split
  · exact hempty
  · rw [List.append_assoc]
    exact execute_captures ha h d.capturedFields {}

/-- After its implementation a method checks its clauses and returns the result. -/
theorem mirrors_after (hrole : d.role ≠ .constructor) (a : Activation α) :
    Mirrors d a
      (.invoke .outcome :: (d.postconditions.map (.check .postcondition)
        ++ (d.invariants.map (.check .invariant) ++ [.returnResult])))
      (.invoke :: (d.postconditions.map (.check .postcondition)
        ++ d.invariants.map (.check .invariant))) := by
  show Dialogue.ask (.invoke a) _ = Dialogue.ask (.invoke a) _
  congr
  funext v
  have hanswered : ({ activation := a } : Progress α).answered d.role v
      = { activation := { a with result := some v } } := by
    rw [Progress.answered, if_neg hrole]
  simp only [hanswered]
  have hreturn : Mirrors d { a with result := some v } [.returnResult] [] := by
    show Dialogue.done (some v) = .done (d.returned (some v))
    rw [d.returned_of_ne_constructor hrole]
  have hchecks := mirrors_checks .postcondition d.postconditions
    (mirrors_checks .invariant d.invariants hreturn)
  rw [List.append_nil] at hchecks
  exact hchecks

/-- After its implementation a constructor checks its clauses on the new instance. -/
theorem mirrors_constructor (hrole : d.role = .constructor) (a : Activation α) :
    Mirrors d a
      (.invoke .receiver :: (d.preconditions.map (.check .precondition)
        ++ d.postconditions.map (.check .postcondition) ++ d.invariants.map (.check .invariant)
        ++ if d.isFactory then [.returnInstance] else []))
      (.invoke :: (d.preconditions.map (.check .precondition)
        ++ d.postconditions.map (.check .postcondition)
        ++ d.invariants.map (.check .invariant))) := by
  show Dialogue.ask (.invoke a) _ = Dialogue.ask (.invoke a) _
  congr
  funext v
  have hanswered : ({ activation := a } : Progress α).answered d.role v
      = { activation := { a with result := a.receiver? } } := by
    rw [Progress.answered, if_pos hrole]
  simp only [hanswered]
  have hreturn : Mirrors d { a with result := a.receiver? }
      (if d.isFactory then [.returnInstance] else []) [] := by
    show _ = Dialogue.done (d.returned a.receiver?)
    rw [d.returned_of_constructor hrole]
    cases d.isFactory <;> rfl
  have hchecks := mirrors_checks .precondition d.preconditions
    (mirrors_checks .postcondition d.postconditions
      (mirrors_checks .invariant d.invariants hreturn))
  rw [List.append_nil] at hchecks
  rw [List.append_assoc, List.append_assoc, List.append_assoc]
  exact hchecks

end Mirrors

/-- **AN EMITTED WRAPPER ASKS WHAT A RUN ASKS**: the same clauses, fields and calls in the same
    order, with the same end for all answers. -/
theorem emitted_eq_dialogue (d : Descriptor α) (a : Activation α) (ha : a.captures = none) :
    d.emitted a = (d.dialogue a).bind fun v => .done (d.returned v) := by
  have hmirrors : Mirrors d a d.protocol d.tasks := by
    by_cases hrole : d.role = .constructor
    · rw [d.protocol_of_constructor hrole, d.tasks_of_constructor hrole]
      exact mirrors_constructor hrole a
    · rw [d.protocol_of_ne_constructor hrole, d.tasks_of_ne_constructor hrole,
        Descriptor.tasksBefore]
      simp only [List.append_assoc]
      refine mirrors_checks .invariant d.invariants (mirrors_checks .precondition d.preconditions
        (mirrors_captureStatements ha ?_ fun store => ?_))
      · exact mirrors_after hrole a
      · exact mirrors_after hrole _
  rw [dialogue_eq_perform, Dialogue.bind_assoc]
  exact hmirrors

/-! ## Lines -/

section Lines

variable {d : Descriptor α}

/-- Whether the implementation can be named: a private member is named through its owner. -/
def Wrapper.Descriptor.Nameable (d : Descriptor α) : Prop :=
  d.role = .function ∨ "__".isPrefixOf d.internalName = false ∨ d.owner ≠ none

theorem implementationText_eq_ok : (∃ text, d.implementationText = .ok text) ↔ d.Nameable := by
  rw [Descriptor.implementationText, Descriptor.Nameable]
  by_cases hrole : d.role = .function
  · rw [if_pos hrole]
    exact iff_of_true ⟨_, rfl⟩ (.inl hrole)
  · rw [if_neg hrole]
    cases hprivate : "__".isPrefixOf d.internalName with
    | false => exact iff_of_true ⟨_, rfl⟩ (.inr (.inl rfl))
    | true =>
        cases howner : d.owner with
        | some owner => exact iff_of_true ⟨_, rfl⟩ (.inr (.inr nofun))
        | none =>
            refine iff_of_false (fun h => nomatch h) ?_
            rintro (h | h | h)
            · exact hrole h
            · cases h
            · exact h rfl

/-- A statement has lines if the implementation can be named; only its call needs that here. -/
theorem exists_statementLines {text : String} (h : d.implementationText = .ok text)
    (s : Statement) : ∃ lines, d.statementLines s = .ok lines := by
  have hcall : ∃ call, d.invocationText = .ok call :=
    ⟨_, bind_eq_ok.mpr ⟨text, h, rfl⟩⟩
  obtain ⟨call, hcall⟩ := hcall
  cases s with
  | makeInstance | check | openStore | capture | returnResult | returnInstance => exact ⟨_, rfl⟩
  | resolveDefault name => exact ⟨_, bind_eq_ok.mpr ⟨text, h, rfl⟩⟩
  | invoke bind => cases bind <;> exact ⟨_, bind_eq_ok.mpr ⟨call, hcall, rfl⟩⟩

/-- Every plan calls the implementation. -/
theorem invoke_mem_protocol (d : Descriptor α) : ∃ bind, .invoke bind ∈ d.protocol := by
  by_cases hrole : d.role = .constructor
  · rw [d.protocol_of_constructor hrole]
    exact ⟨_, List.mem_cons_self⟩
  · rw [d.protocol_of_ne_constructor hrole]
    exact ⟨_, List.mem_append_right _ List.mem_cons_self⟩

/-- The statements of a wrapper have lines exactly if its implementation can be named. -/
theorem exists_lines_iff (d : Descriptor α) :
    (∃ lines, d.protocol.mapM d.statementLines = .ok lines) ↔ d.Nameable := by
  rw [← implementationText_eq_ok]
  constructor
  · rintro ⟨lines, h⟩
    obtain ⟨bind, hbind⟩ := invoke_mem_protocol d
    obtain ⟨ls, -, hls⟩ := exists_of_forall₂_right (mapM_eq_ok.mp h).flip _ hbind
    have hcall : ∃ call, d.invocationText = .ok call := by
      cases bind with
      | outcome | receiver =>
          obtain ⟨call, hcall, -⟩ := bind_eq_ok.mp hls
          exact ⟨call, hcall⟩
    obtain ⟨call, hcall⟩ := hcall
    obtain ⟨text, htext, -⟩ := bind_eq_ok.mp hcall
    exact ⟨text, htext⟩
  · rintro ⟨text, htext⟩
    choose lines hlines using exists_statementLines htext
    refine ⟨d.protocol.map lines, mapM_eq_ok.mpr ?_⟩
    rw [List.forall₂_map_right_iff]
    exact List.forall₂_same.mpr fun s _ => hlines s

end Lines

/-! ## Woven wrappers -/

/-- **EMITTED AND RUNNING WRAPPERS FOLLOW ONE PROTOCOL**.  The statements emitted for a woven
    descriptor put the questions of its run, with the same activations in the same order, and after
    the same answers they break the same promises; so in all surroundings, whatever is true, false
    or raised there, they do what the run does and give what a call returns of its result. -/
theorem emitted_follows_run {t : Table α} {r : Weaving.Result α} {d : Descriptor α}
    (h : Weaving.weave t = .ok r) (hd : d ∈ r.descriptors) :
    ((∃ lines, d.protocol.mapM d.statementLines = .ok lines) ↔ d.Nameable) ∧
    (d.role = .constructor → d.isAsync = false) ∧
    ∀ (receiver? : Option α) (arguments : Signature.Binding α),
      let a : Activation α := { receiver? := receiver?, arguments := arguments }
      d.emitted a = (d.dialogue a).bind (fun v => .done (d.returned v)) ∧
      ∀ (m : Type → Type) [Monad m] [LawfulMonad m] (s : Surroundings m α) (e : s.Ending),
        (d.emitted a).carry e = d.returned <$> s.run d a := by
  obtain ⟨c, enclosing, invariants, -, hweaves⟩ := Weaving.exists_of_mem_descriptors h hd
  refine ⟨exists_lines_iff d, hweaves.isAsync_of_constructor, ?_⟩
  intro receiver? arguments a
  have hdialogue := emitted_eq_dialogue d a rfl
  refine ⟨hdialogue, ?_⟩
  intro m _ _ s e
  rw [hdialogue, run_eq_carry e, map_eq_pure_bind]
  exact carry_bind e (d.dialogue a) _

/-- A world in which every clause is true and implementations raise. -/
def World.crashing : World Nat Unit Value.Datum where
  verdict _ _ _ _ := .ok true
  value _ _ _ := .ok .none
  body _ n := .thrown () (n + 1)
  others n := n

/-- The ledger's method has lines, and in a world where its implementation raises it does what its
    run does. -/
theorem emitted_follows_run_ledger : ∃ r d,
    Weaving.weave { types := [Demonstration.ledger] } = .ok r ∧ d ∈ r.descriptors ∧
    d.Nameable ∧ (∃ lines, d.protocol.mapM d.statementLines = .ok lines) ∧
    (d.emitted { receiver? := some .none, arguments := [] }).carry World.crashing.ending
      = d.returned <$> World.crashing.surroundings.run d
          { receiver? := some .none, arguments := [] } := by
  obtain ⟨r, d, hr, -, hd, -, -, howner, -⟩ := Weaving.ledger_woven
  have hmem : d ∈ r.descriptors := by
    rw [hd]
    exact List.mem_singleton_self d
  have hnameable : d.Nameable := by
    refine .inr (.inr fun hnone => ?_)
    rw [hnone] at howner
    cases howner
  obtain ⟨hlines, -, hprotocol⟩ := emitted_follows_run hr hmem
  obtain ⟨-, hrun⟩ := hprotocol (some .none) []
  exact ⟨r, d, hr, hmem, hnameable, hlines.mpr hnameable, hrun _ _ World.crashing.ending⟩

end Covenant
