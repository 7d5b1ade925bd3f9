import Covenant.Proofs.Protocol.Task
import Mathlib.Data.List.Forall2

/-! # Histories — what has been answered when a postcondition is asked

    A run that asks for a postcondition has a history of a fixed shape: every
    invariant and precondition held, every captured field was preserved once
    in order, and the implementation answered.

    * `Passes` splits where the list of tasks does, and has one law for checks
      and one for captures.
    * `captured_of_asked` puts them together: whatever the postcondition looks
      up was preserved after the preconditions and just before the call. -/

namespace Covenant

open Declaration Wrapper

variable {α β γ : Type} {d : Descriptor α}

/-! ## Results that are only changed -/

/-- A dialogue whose result is only changed goes on as the dialogue itself does. -/
theorem follows_of_bind_done {f : β → γ} {x : Dialogue α β} {h : List (Exchange α)}
    {y : Dialogue α γ} (hy : (x.bind fun b => .done (f b)).Follows h y) :
    ∃ x', x.Follows h x' ∧ y = x'.bind fun b => .done (f b) := by
  induction h generalizing x with
  | nil =>
      generalize hz : (x.bind fun b => Dialogue.done (f b)) = z at hy
      cases hy with
      | start => exact ⟨x, .start x, hz.symm⟩
  | cons e h ih =>
      cases x with
      | done b => cases hy
      | broken v => cases hy
      | ask q next =>
          cases hy with
          | next r hr =>
              obtain ⟨x', hx', rfl⟩ := ih hr
              exact ⟨x', .next r hx', rfl⟩

/-! ## Laws of passing -/

theorem Passes.append {p p' : Progress α} {ts us : List Task} {h : List (Exchange α)}
    (hp : Passes d p (ts ++ us) h p') :
    ∃ h₁ h₂ p₁, h = h₁ ++ h₂ ∧ Passes d p ts h₁ p₁ ∧ Passes d p₁ us h₂ p' := by
  induction ts generalizing p h with
  | nil => exact ⟨[], h, p, rfl, .nil p, hp⟩
  | cons t ts ih =>
      cases hp with
      | check kind c hp =>
          obtain ⟨h₁, h₂, p₁, rfl, ht, hu⟩ := ih hp
          exact ⟨_, h₂, p₁, rfl, .check kind c ht, hu⟩
      | capture f v hp =>
          obtain ⟨h₁, h₂, p₁, rfl, ht, hu⟩ := ih hp
          exact ⟨_, h₂, p₁, rfl, .capture f v ht, hu⟩
      | keep hp =>
          obtain ⟨h₁, h₂, p₁, rfl, ht, hu⟩ := ih hp
          exact ⟨h₁, h₂, p₁, rfl, .keep ht, hu⟩
      | invoke v hp =>
          obtain ⟨h₁, h₂, p₁, rfl, ht, hu⟩ := ih hp
          exact ⟨_, h₂, p₁, rfl, .invoke v ht, hu⟩

theorem Passes.trans {p p' p'' : Progress α} {ts us : List Task} {h h' : List (Exchange α)}
    (hp : Passes d p ts h p') (hp' : Passes d p' us h' p'') :
    Passes d p (ts ++ us) (h ++ h') p'' := by
  induction hp with
  | nil p => exact hp'
  | check kind c _ ih => exact .check kind c (ih hp')
  | capture f v _ ih => exact .capture f v (ih hp')
  | keep _ ih => exact .keep (ih hp')
  | invoke v _ ih => exact .invoke v (ih hp')

/-- Clauses of one kind that all held. -/
def heldAll (kind : ViolationKind) (a : Activation α) (cs : List EnforcedClause) :
    List (Exchange α) :=
  cs.map fun c => ⟨.holds kind c a, true⟩

/-- Checks change nothing. -/
theorem passes_checks {p p' : Progress α} {kind : ViolationKind} {cs : List EnforcedClause}
    {h : List (Exchange α)} (hp : Passes d p (cs.map (.check kind)) h p') :
    p' = p ∧ h = heldAll kind p.activation cs := by
  induction cs generalizing h with
  | nil =>
      cases hp
      exact ⟨rfl, rfl⟩
  | cons c cs ih =>
      cases hp with
      | check _ _ hp =>
          obtain ⟨rfl, rfl⟩ := ih hp
          exact ⟨rfl, rfl⟩

/-- Whatever is checked, checks change nothing. -/
theorem passes_of_checks {p p' : Progress α} {ts : List Task} {h : List (Exchange α)}
    (hp : Passes d p ts h p') (hts : ∀ t ∈ ts, ∃ kind c, t = .check kind c) : p' = p := by
  induction hp with
  | nil p => rfl
  | check kind c _ ih => exact ih fun t ht => hts t (List.mem_cons_of_mem _ ht)
  | capture | keep | invoke =>
      obtain ⟨_, _, ht⟩ := hts _ List.mem_cons_self
      cases ht

/-- `Preserved a fs h`: the fields were preserved one by one. -/
def Preserved (a : Activation α) (fs : List String) (h : List (Exchange α)) : Prop :=
  List.Forall₂ (fun f x => ∃ v : α, x = ⟨.preserve a f, v⟩) fs h

/-- Captures preserve their fields in order, and the store has what they were answered. -/
theorem passes_captures {p p' : Progress α} {fs : List String} {h : List (Exchange α)}
    (hp : Passes d p (fs.map .capture) h p') :
    p'.activation = p.activation ∧ Preserved p.activation fs h ∧
      (∀ f ∈ fs, ∃ v : α, ⟨.preserve p.activation f, v⟩ ∈ h ∧ p'.store.lookup f = some v) ∧
      ∀ f, f ∉ fs → p'.store.lookup f = p.store.lookup f := by
  induction fs generalizing p h with
  | nil =>
      cases hp
      exact ⟨rfl, .nil, (fun f hf => absurd hf List.not_mem_nil), fun _ _ => rfl⟩
  | cons f fs ih =>
      cases hp with
      | capture _ v hp =>
          obtain ⟨hact, hpreserved, hfound, hothers⟩ := ih hp
          refine ⟨hact, .cons ⟨v, rfl⟩ hpreserved, ?_, ?_⟩
          · intro g hg
            by_cases hmem : g ∈ fs
            · obtain ⟨x, hx, hlookup⟩ := hfound g hmem
              exact ⟨x, List.mem_cons_of_mem _ hx, hlookup⟩
            · obtain rfl : g = f := (List.mem_cons.mp hg).resolve_right hmem
              refine ⟨v, List.mem_cons_self, ?_⟩
              rw [hothers g hmem]
              exact (Captures.lookup_capture _ _ _ _).trans (if_pos rfl)
          · intro g hg
            rw [List.mem_cons, not_or] at hg
            rw [hothers g hg.2]
            exact (Captures.lookup_capture _ _ _ _).trans (if_neg hg.1)

/-- The capture step keeps what it was answered for each field. -/
theorem passes_captureTasks {a : Activation α} {p : Progress α} {h : List (Exchange α)}
    (hp : Passes d { activation := a } d.captureTasks h p) :
    p.activation = { a with captures := p.activation.captures } ∧ Preserved a d.capturedFields h ∧
      ∀ f ∈ d.capturedFields, ∃ v : α, ⟨.preserve a f, v⟩ ∈ h ∧
        (p.activation.captures.getD {}).lookup f = some v := by
  unfold Descriptor.captureTasks at hp
  split at hp
  · rename_i hempty
    rw [List.isEmpty_iff] at hempty
    cases hp
    rw [hempty]
    exact ⟨rfl, .nil, fun f hf => absurd hf List.not_mem_nil⟩
  · obtain ⟨h₁, h₂, p₁, rfl, hc, hk⟩ := hp.append
    obtain ⟨hact, hpreserved, hfound, -⟩ := passes_captures hc
    cases hk with
    | keep hk =>
        cases hk
        rw [List.append_nil]
        refine ⟨?_, hpreserved, hfound⟩
        unfold Progress.kept
        rw [hact]

/-! ## Postconditions -/

/-- A list that goes on with an element which an initial part of it lacks has left this part
    behind. -/
theorem exists_of_append_eq {β : Type} {xs ys before after : List β} {t : β}
    (h : xs ++ ys = before ++ t :: after) (ht : t ∉ xs) :
    ∃ before', before = xs ++ before' ∧ ys = before' ++ t :: after := by
  rcases List.append_eq_append_iff.mp h with ⟨before', hbefore, hys⟩ | ⟨rest, hxs, hrest⟩
  · exact ⟨before', hbefore, hys⟩
  · cases rest with
    | nil =>
        refine ⟨[], ?_, hrest.symm⟩
        rw [hxs, List.append_nil, List.append_nil]
    | cons u us =>
        obtain ⟨rfl, -⟩ := List.cons.inj hrest
        exact absurd (hxs ▸ List.mem_append_right before List.mem_cons_self) ht

/-- What asks for a clause is its check, nothing but keeping what was captured aside. -/
theorem passes_of_perform_eq {p : Progress α} {ts : List Task} {kind : ViolationKind}
    {c : EnforcedClause} {b : Activation α} {next : Bool → Dialogue α (Activation α)}
    (h : perform d p ts = .ask (.holds kind c b) next) :
    ∃ before after p', ts = before ++ .check kind c :: after ∧ Passes d p before [] p' ∧
      p'.activation = b := by
  induction ts generalizing p with
  | nil => cases h
  | cons t ts ih =>
      cases t with
      | check kind' c' =>
          cases h
          exact ⟨[], ts, p, rfl, .nil p, rfl⟩
      | capture f => cases h
      | invoke => cases h
      | keep =>
          obtain ⟨before, after, p', rfl, hp, hact⟩ := ih h
          exact ⟨.keep :: before, after, p', rfl, .keep hp, hact⟩

/-- A dialogue that asks for a clause has passed all tasks before its check. -/
theorem passes_of_asks {a b : Activation α} {h : List (Exchange α)} {kind : ViolationKind}
    {c : EnforcedClause} {next : Bool → Dialogue α (Option α)}
    (hq : (d.dialogue a).Follows h (.ask (.holds kind c b) next)) :
    ∃ before after p, d.tasks = before ++ .check kind c :: after ∧
      Passes d { activation := a } before h p ∧ p.activation = b := by
  rw [dialogue_eq_perform] at hq
  obtain ⟨x', hx', heq⟩ := follows_of_bind_done hq
  cases x' with
  | done b => cases heq
  | broken v => cases heq
  | ask q' next' =>
      cases heq
      obtain ⟨before, rest, p, htasks, hp, hy⟩ :=
        follows_perform hx' (fun v hv => by cases hv)
      obtain ⟨keeps, after, p', rfl, hkeeps, hact⟩ := passes_of_perform_eq hy.symm
      refine ⟨before ++ keeps, after, p', ?_, ?_, hact⟩
      · rw [htasks, List.append_assoc]
      · have hboth := hp.trans hkeeps
        rwa [List.append_nil] at hboth

/-- **WHAT A POSTCONDITION CAN LOOK UP**: a method or function that asks for a postcondition has
    checked its entry, preserved the captured fields and called its implementation, in this
    order; the activation that asks has what was preserved. -/
theorem captured_of_asked {a b : Activation α} {h : List (Exchange α)} {c : EnforcedClause}
    {next : Bool → Dialogue α (Option α)} (hrole : d.role ≠ .constructor)
    (hq : (d.dialogue a).Follows h (.ask (.holds .postcondition c b) next)) :
    c ∈ d.postconditions ∧ ∃ (captured : List (Exchange α)) (b₀ : Activation α) (v : α)
        (after : List (Exchange α)),
      h = heldAll .invariant a d.invariants ++ heldAll .precondition a d.preconditions ++
        captured ++ ⟨.invoke b₀, v⟩ :: after ∧
      Preserved a d.capturedFields captured ∧
      b = { a with captures := b.captures, result := some v } ∧
      ∀ f ∈ d.capturedFields, ∃ x : α, ⟨.preserve a f, x⟩ ∈ captured ∧
        (b.captures.getD {}).lookup f = some x := by
  obtain ⟨before, after, p, htasks, hp, rfl⟩ := passes_of_asks hq
  rw [d.tasks_of_ne_constructor hrole] at htasks
  -- no postcondition is checked before the call
  obtain ⟨before', rfl, hexit⟩ := exists_of_append_eq htasks (by
    intro hmem
    unfold Descriptor.tasksBefore Descriptor.captureTasks at hmem
    split at hmem <;> simp at hmem)
  cases before' with
  | nil => cases hexit
  | cons t us =>
      obtain ⟨hinvoke, hchecks⟩ := List.cons.inj hexit
      subst hinvoke
      rw [List.append_eq] at hchecks
      have hmem : ∀ t ∈ us ++ Task.check .postcondition c :: after,
          ∃ kind c', t = .check kind c' := by
        rw [← hchecks]
        intro t ht
        rcases List.mem_append.mp ht with ht | ht <;>
          obtain ⟨c', -, rfl⟩ := List.mem_map.mp ht <;> exact ⟨_, _, rfl⟩
      have hc : c ∈ d.postconditions := by
        have hin : Task.check .postcondition c ∈ us ++ Task.check .postcondition c :: after :=
          List.mem_append_right us List.mem_cons_self
        rw [← hchecks] at hin
        simpa using hin
      obtain ⟨h₁, h₂, p₁, rfl, hentry, hrest⟩ := hp.append
      obtain ⟨h₃, h₄, p₂, rfl, hbefore, hcapture⟩ := hentry.append
      obtain ⟨h₅, h₆, p₃, rfl, hinvariants, hpreconditions⟩ := hbefore.append
      obtain ⟨rfl, rfl⟩ := passes_checks hinvariants
      obtain ⟨rfl, rfl⟩ := passes_checks hpreconditions
      obtain ⟨hact, hpreserved, hfound⟩ := passes_captureTasks hcapture
      cases hrest with
      | @invoke _ _ _ after' v hrest =>
          obtain rfl := passes_of_checks hrest fun t ht => hmem t (List.mem_append_left _ ht)
          refine ⟨hc, h₄, p₁.activation, v, after', rfl, hpreserved, ?_, hfound⟩
          unfold Progress.answered
          rw [if_neg hrole, hact]

end Covenant
