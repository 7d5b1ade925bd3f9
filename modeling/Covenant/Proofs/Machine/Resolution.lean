import Covenant.Condition.Rewrite
import Covenant.Proofs.Machine.Growth

/-! # Resolution — what a name of a clause stands for

    A clause is evaluated in a namespace of its own; `lambda` and
    comprehensions put frames in front of it.

    * Behind frames, a name stands for what the namespace has if it is local to
      none of them (`resolves_of_forall`), and for the value of a frame if it
      is local to one (`lookup_of_frameOf`), which can be any value
      (`not_resolves_of_mem`).
    * `clauseNames_reserved`: in the namespace of a clause the reserved names
      stand for the instance of the activation and for its store.
    * `evaluate_lookupCall`: a look-up that the rewriter has inserted is
      answered by this store. -/

namespace Covenant.Machine

open Text

/-! ## Frames -/

theorem frameOf_eq_none {name : String} {fs : List Frame} :
    Comp.frameOf name fs = none ↔ ∀ f ∈ fs, name ∉ f.locals := by
  induction fs with
  | nil =>
      constructor
      · intro _ f hf
        exact nomatch hf
      · intro _
        rfl
  | cons f fs ih =>
      unfold Comp.frameOf
      rw [List.forall_mem_cons, ← ih]
      split
      · rename_i hmem
        rw [List.contains_iff_mem] at hmem
        constructor
        · intro h
          cases h
        · intro h
          exact absurd hmem h.1
      · rename_i hmem
        rw [List.contains_iff_mem] at hmem
        rw [Option.map_eq_none_iff]
        exact ⟨fun h => ⟨hmem, h⟩, fun h => h.2⟩

theorem mem_of_frameOf {name : String} {fs : List Frame} {f : Frame} {innermost : Bool}
    (h : Comp.frameOf name fs = some (f, innermost)) : f ∈ fs := by
  induction fs generalizing innermost with
  | nil => cases h
  | cons g fs ih =>
      unfold Comp.frameOf at h
      split at h
      · cases h
        exact List.mem_cons_self
      · obtain ⟨⟨f', b⟩, hq, heq⟩ := Option.map_eq_some_iff.mp h
        cases heq
        exact List.mem_cons_of_mem _ (ih hq)

/-- A name stands for a value wherever the frames around it make certain names local, in front of
    a namespace. -/
def Resolves (names : Names Value) (name : String) (scopes : List (List String)) (v : Value) :
    Prop :=
  ∀ (s : Scope) (h : Heap), s.body = none → s.frames.map (·.locals) = scopes →
    h.get? s.globals = some (.names names) → Comp.lookup s name h = .done v h

/-- Behind frames that do not know it, a name stands for what the namespace has. -/
theorem resolves_of_forall {names : Names Value} {name : String} {scopes : List (List String)}
    {v : Value} (hv : names.lookup name = some v) (hfree : ∀ locals ∈ scopes, name ∉ locals) :
    Resolves names name scopes v := by
  rintro s h hbody rfl hglobals
  have hframe : Comp.frameOf name s.frames = none := by
    rw [frameOf_eq_none]
    intro f hf
    exact hfree _ (List.mem_map_of_mem hf)
  unfold Comp.lookup Comp.lookupAround
  rw [hbody, hframe]
  simp only [Comp.lookupGlobal, Comp.namesAt, bind, Comp.heap, Run.bind, hglobals, pure, hv]

/-- A frame that knows a name gives its own value for it. -/
theorem lookup_of_frameOf {s : Scope} {name : String} {f : Frame} {innermost : Bool} {h : Heap}
    {ns : Names Value} {w : Value} (hbody : s.body = none)
    (hframe : Comp.frameOf name s.frames = some (f, innermost))
    (hns : h.get? f.names = some (.names ns)) (hw : ns.lookup name = some w) :
    Comp.lookup s name h = .done w h := by
  unfold Comp.lookup Comp.lookupAround
  rw [hbody, hframe]
  simp only [Comp.namesAt, bind, Comp.heap, Run.bind, hns, pure, hw]

/-- A name that some frame knows may stand for anything. -/
theorem not_resolves_of_mem {names : Names Value} {name : String} {scopes : List (List String)}
    {v : Value} {locals : List String} (hlocals : locals ∈ scopes) (hmem : name ∈ locals) :
    ¬ Resolves names name scopes v := by
  intro hres
  -- all frames have one namespace, in which the name has another value
  obtain ⟨w, hw⟩ : ∃ w : Value, w ≠ v := by
    by_cases hv : v = .none
    · exact ⟨.ref 0, by rw [hv]; exact nofun⟩
    · exact ⟨.none, Ne.symm hv⟩
  let s : Scope := { globals := 0, frames := scopes.map fun locals => ⟨1, locals⟩ }
  let h : Heap := ⟨#[.names names, .names [(name, w)]]⟩
  have hlocalsOf : s.frames.map (·.locals) = scopes := by
    rw [List.map_map]
    exact List.map_id scopes
  have hdone := hres s h rfl hlocalsOf rfl
  have hframe : Comp.frameOf name s.frames ≠ none := by
    rw [Ne, frameOf_eq_none]
    intro hall
    exact hall ⟨1, locals⟩ (List.mem_map_of_mem hlocals) hmem
  obtain ⟨⟨f, innermost⟩, hf⟩ := Option.ne_none_iff_exists'.mp hframe
  obtain ⟨l, -, rfl⟩ := List.mem_map.mp (mem_of_frameOf hf)
  rw [lookup_of_frameOf rfl hf rfl (List.lookup_cons_self ..)] at hdone
  cases hdone
  exact hw rfl

/-! ## The namespace of a clause -/

/-- What a reserved name is meant to stand for: the instance of the activation, or its store. -/
def Meant (a : Activation Value) (h : Heap) (name : String) (v : Value) : Prop :=
  name = selfName ∧ a.receiver? = some v ∨
    name = lookupName ∧ h.object? v = some (.captures (a.captures.getD {}))

/-- In the namespace of a clause the reserved names stand for what they are meant to. -/
theorem clauseNames_reserved {implementation : Value} {kind : ViolationKind}
    {a : Activation Value} {h h' : Heap} {names : Names Value}
    (hn : clauseNames implementation kind a h = .done names h') :
    (∀ v, a.receiver? = some v → names.lookup selfName = some v) ∧
      (kind = .postcondition → ∃ store, names.lookup lookupName = some store ∧
        h'.object? store = some (.captures (a.captures.getD {}))) := by
  -- whatever the module and the arguments give, the reserved names come last
  obtain ⟨before, h₁, hn⟩ : ∃ before h₁, withReserved kind a before h₁ = .done names h' := by
    unfold clauseNames at hn
    obtain ⟨h₀, s₀, -, hn⟩ := Run.bind_eq_done hn
    obtain ⟨module, h₁, hn⟩ : ∃ (module : Names Value) (h₁ : Heap),
        (if kind = .invariant then do withReserved kind a (← pure module)
          else do withReserved kind a (← pure (Names.setAll module (← boundNamesOf a.arguments))) :
          Comp (Names Value)) h₁ = .done names h' := by
      cases hg : globalsOf h₀ implementation with
      | none =>
          simp only [hg] at hn
          obtain ⟨module, h₁, -, hn⟩ := Run.bind_eq_done hn
          exact ⟨module, h₁, hn⟩
      | some g =>
          simp only [hg] at hn
          obtain ⟨module, h₁, -, hn⟩ := Run.bind_eq_done hn
          exact ⟨module, h₁, hn⟩
    split at hn
    · obtain ⟨before, h₂, -, hn⟩ := Run.bind_eq_done hn
      exact ⟨before, h₂, hn⟩
    · obtain ⟨ps, h₂, -, hn⟩ := Run.bind_eq_done hn
      obtain ⟨before, h₃, -, hn⟩ := Run.bind_eq_done hn
      exact ⟨before, h₃, hn⟩
  unfold withReserved at hn
  split at hn
  · obtain ⟨store, h₂, hstore, hn⟩ := Run.bind_eq_done hn
    cases hstore
    cases hn
    refine ⟨?_, fun _ => ⟨.ref h₁.objects.size, ?_, ?_⟩⟩
    · intro v hv
      rw [hv, Names.lookup_set, if_neg (by decide), Names.lookup_set, if_neg (by decide),
        Names.lookup_set, if_pos rfl]
    · rw [Names.lookup_set, if_pos rfl]
    · exact Heap.get?_add_self h₁ _
  · rename_i hkind
    cases hn
    refine ⟨?_, fun h => absurd h hkind⟩
    intro v hv
    rw [hv, Names.lookup_set, if_pos rfl]

/-! ## Inserted look-ups

    A call that the rewriter has inserted reads the store under its reserved
    name and asks it for a field.  Only a field that the store lacks is
    reported as not captured. -/

section Lookups

open Condition Covenant.Tree

variable {program : List Stmt} {n : Nat} {store : Value} {c : Captures Value} {h : Heap}
  {field : String}

/-- What a store answers. -/
def answerOf (c : Captures Value) (field : String) (h : Heap) : Run Heap Thrown Value :=
  match c.lookup field with
  | some v => .done v h
  | none => .thrown (.notCaptured field) h

/-- A store that is called looks up its argument. -/
theorem call_store (hc : h.object? store = some (.captures c)) :
    (level program (n + 1)).call store [.atom (.str field)] [] h = answerOf c field h := by
  cases store with
  | ref a =>
      show callValue (level program n) program (.ref a) [.atom (.str field)] [] h = _
      unfold callValue answerOf
      simp only [bind, Comp.heap, Run.bind, hc]
      unfold lookupCaptured
      cases hf : c.lookup field <;> simp only [hf] <;> rfl
  | atom | type | routine | module => cases hc

/-- **AN INSERTED LOOK-UP ASKS THE STORE** that its name stands for. -/
theorem evaluate_lookupCall {s : Scope} {strategy : Strategy} (span : Span)
    (hname : Comp.lookup s (s.nameHere strategy.lookup) h = .done store h)
    (hc : h.object? store = some (.captures c)) :
    evaluate (level program (n + 1)) s (lookupCall strategy span field) h
      = answerOf c field h := by
  have hcall : (level program (n + 1)).call store [.atom (.str field)] [] h = answerOf c field h :=
    call_store hc
  rw [← hcall]
  unfold lookupCall
  simp only [evaluate, evaluateItems, evaluateKeywords, bind, hname, Run.bind]
  cases store with
  | ref a => rfl
  | atom | type | routine | module => cases hc

end Lookups

end Covenant.Machine
