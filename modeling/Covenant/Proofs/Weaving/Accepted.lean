import Covenant.Demonstration
import Covenant.Proofs.Weaving.Outcome
import Covenant.Weaving

/-! # Acceptance — what is known of a woven declaration

    A descriptor that weaving gives has a history: a callable of the table
    that validation let pass, and the clauses that were rewritten for it.

    * `Accepts` is what validation has checked, `Describes` how the descriptor
      was made from it; `accepts_of_validateCallable` and
      `describes_of_describe` take the two functions apart once.
    * `exists_of_mem_descriptors` finds the callable behind a descriptor of a
      woven table. -/

namespace Covenant.Weaving

open Condition Declaration Wrapper

variable {α : Type}

/-! ## Validation -/

/-- What validation has found of a callable that it let pass. -/
structure Accepts (c : Callable α) (enclosing : Option (TypeDecl α))
    (invariants : List ParsedClause) (v : Validated α) : Prop where
  declaration : v.declaration = c
  placed : placementFault? c enclosing.isSome = none
  applied : v.invariants = if enclosing.isSome && c.applyInvariants then invariants else []
  preconditions : List.Forall₂ (fun k q => parseClause k = .ok q) c.preconditions v.preconditions
  postconditions :
    List.Forall₂ (fun k q => parseClause k = .ok q) c.postconditions v.postconditions
  kept : ∀ q ∈ v.preconditions, q.checkPrecondition c.parameterNames = .ok ()
  references : ∃ found, v.references = found.flatten ∧
    List.Forall₂ (fun q rs => q.checkPostcondition c.role enclosing = .ok rs)
      v.postconditions found

/-- Validation takes its checks in order; a callable that passes has passed them all. -/
theorem accepts_of_validateCallable {c : Callable α} {enclosing : Option (TypeDecl α)}
    {invariants : List ParsedClause} {v : Validated α}
    (h : validateCallable c enclosing invariants = .ok (some v)) :
    Accepts c enclosing invariants v := by
  unfold validateCallable at h
  split at h
  · cases h
  dsimp only at h
  split at h
  · cases h
  · rename_i hplaced
    obtain ⟨pre, hpre, h⟩ := bind_eq_ok.mp h
    obtain ⟨post, hpost, h⟩ := bind_eq_ok.mp h
    obtain ⟨⟨⟩, hkept, h⟩ := bind_eq_ok.mp h
    obtain ⟨found, hfound, h⟩ := bind_eq_ok.mp h
    cases h
    exact {
      declaration := rfl
      placed := hplaced
      applied := rfl
      preconditions := mapM_eq_ok.mp hpre
      postconditions := mapM_eq_ok.mp hpost
      kept := forM_eq_ok.mp hkept
      references := ⟨found, rfl, mapM_eq_ok.mp hfound⟩ }

/-- A parsed clause keeps the text and the message of the declaration, and its tree is that
    of the text. -/
theorem of_parseClause {k : Clause} {q : ParsedClause} (h : parseClause k = .ok q) :
    q.text = k.text ∧ q.message = k.message ∧ parse k.text = .ok q.tree := by
  unfold parseClause at h
  split at h
  · rename_i tree htree
    cases h
    exact ⟨rfl, rfl, htree⟩
  · cases h

/-- A rule that is reported if it is broken was not broken. -/
theorem rejectIf_eq_ok {q : ParsedClause} {broken : Bool} {fault : PlacementFault} :
    q.rejectIf broken fault = .ok () ↔ broken = false := by
  unfold ParsedClause.rejectIf ParsedClause.reject
  cases broken <;> simp

/-- The references of a clause as the collector finds them. -/
theorem oldReferences_eq_ok {q : ParsedClause} {rs : List OldReference} :
    q.oldReferences = .ok rs ↔ references (some q.text) selfName q.tree = .ok rs :=
  mapError_eq_ok

/-- Where there are no old values none were found. -/
theorem checkNoOld_eq_ok {q : ParsedClause} {place : NoOldPlace} :
    q.checkNoOld place = .ok () ↔ references (some q.text) selfName q.tree = .ok [] := by
  unfold ParsedClause.checkNoOld
  rw [bind_eq_ok]
  constructor
  · rintro ⟨rs, hrs, h⟩
    rw [rejectIf_eq_ok, Bool.not_eq_false', List.isEmpty_iff] at h
    subst h
    exact oldReferences_eq_ok.1 hrs
  · intro h
    exact ⟨[], oldReferences_eq_ok.2 h, rejectIf_eq_ok.2 rfl⟩

/-- No clause that was checked for it reads the store of captured values. -/
theorem not_reads_of_checkLookup {q : ParsedClause} (h : q.checkLookup = .ok ()) :
    lookupName ∉ loadedNames q.tree := by
  intro hmem
  have hreads : q.reads lookupName = false := rejectIf_eq_ok.1 h
  unfold ParsedClause.reads at hreads
  rw [List.contains_iff_mem.mpr hmem] at hreads
  cases hreads

/-- A clause outside postconditions reads no captured values and has no calls of `old`. -/
structure Timeless (q : ParsedClause) : Prop where
  unread : lookupName ∉ loadedNames q.tree
  noOld : references (some q.text) selfName q.tree = .ok []

theorem timeless_of_checkPrecondition {q : ParsedClause} {parameters : List String}
    (h : q.checkPrecondition parameters = .ok ()) : Timeless q := by
  unfold ParsedClause.checkPrecondition at h
  obtain ⟨⟨⟩, hlookup, h⟩ := bind_eq_ok.mp h
  obtain ⟨⟨⟩, hold, -⟩ := bind_eq_ok.mp h
  exact ⟨not_reads_of_checkLookup hlookup, checkNoOld_eq_ok.1 hold⟩

theorem timeless_of_checkInvariant {q : ParsedClause} (h : q.checkInvariant = .ok ()) :
    Timeless q := by
  unfold ParsedClause.checkInvariant at h
  obtain ⟨⟨⟩, hold, h⟩ := bind_eq_ok.mp h
  obtain ⟨⟨⟩, hlookup, -⟩ := bind_eq_ok.mp h
  exact ⟨not_reads_of_checkLookup hlookup, checkNoOld_eq_ok.1 hold⟩

/-- The invariants of an accepted type are the declared ones, parsed and checked. -/
theorem of_validateType {t : TypeDecl α} {invariants : List ParsedClause}
    (h : validateType t = .ok invariants) :
    List.Forall₂ (fun k q => parseClause k = .ok q) t.invariants invariants ∧
      ∀ q ∈ invariants, Timeless q := by
  unfold validateType at h
  obtain ⟨qs, hqs, h⟩ := bind_eq_ok.mp h
  obtain ⟨⟨⟩, hkept, h⟩ := bind_eq_ok.mp h
  cases h
  exact ⟨mapM_eq_ok.mp hqs, fun q hq => timeless_of_checkInvariant (forM_eq_ok.mp hkept q hq)⟩

/-- An accepted callable has no old values in its preconditions. -/
theorem Accepts.timeless_preconditions {c : Callable α} {enclosing : Option (TypeDecl α)}
    {invariants : List ParsedClause} {v : Validated α} (ha : Accepts c enclosing invariants v) :
    ∀ q ∈ v.preconditions, Timeless q :=
  fun q hq => timeless_of_checkPrecondition (ha.kept q hq)

/-- The invariants that an accepted callable applies have no old values, as all of its type. -/
theorem Accepts.timeless_invariants {c : Callable α} {enclosing : Option (TypeDecl α)}
    {invariants : List ParsedClause} {v : Validated α} (ha : Accepts c enclosing invariants v)
    (henclosing : ∀ T, enclosing = some T → validateType T = .ok invariants) :
    ∀ q ∈ v.invariants, Timeless q := by
  intro q hq
  rw [ha.applied] at hq
  cases enclosing with
  | none => exact nomatch hq
  | some T =>
      split at hq
      · exact (of_validateType (henclosing T rfl)).2 q hq
      · exact nomatch hq

/-- The field of a reference belongs to the enclosing type. -/
theorem checkField_eq_ok {q : ParsedClause} {enclosing : Option (TypeDecl α)} {r : OldReference} :
    q.checkField enclosing r = .ok () ↔ ∃ t, enclosing = some t ∧ r.field ∈ t.fields := by
  unfold ParsedClause.checkField
  cases enclosing with
  | none => simp
  | some t => simp

/-- What is known of a postcondition that refers to some old values. -/
structure Refers (q : ParsedClause) (role : Role) (enclosing : Option (TypeDecl α))
    (rs : List OldReference) : Prop where
  unread : lookupName ∉ loadedNames q.tree
  found : references (some q.text) selfName q.tree = .ok rs
  noneInConstructor : role = .constructor → rs = []
  known : ∀ r ∈ rs, ∃ t, enclosing = some t ∧ r.field ∈ t.fields

theorem refers_of_checkPostcondition {q : ParsedClause} {role : Role}
    {enclosing : Option (TypeDecl α)} {rs : List OldReference}
    (h : q.checkPostcondition role enclosing = .ok rs) : Refers q role enclosing rs := by
  unfold ParsedClause.checkPostcondition at h
  obtain ⟨⟨⟩, hlookup, h⟩ := bind_eq_ok.mp h
  obtain ⟨found, hfound, h⟩ := bind_eq_ok.mp h
  obtain ⟨⟨⟩, hrole, h⟩ := bind_eq_ok.mp h
  obtain ⟨⟨⟩, hfields, h⟩ := bind_eq_ok.mp h
  cases h
  have hrole' := rejectIf_eq_ok.1 hrole
  refine ⟨not_reads_of_checkLookup hlookup, oldReferences_eq_ok.1 hfound, ?_, ?_⟩
  · intro hr
    simpa [hr] using hrole'
  · intro r hr
    exact checkField_eq_ok.1 (forM_eq_ok.mp hfields r hr)

/-! ## Descriptors -/

/-- The fields that bare names can stand for. -/
def enclosedFields (enclosing : Option (TypeDecl α)) : List String :=
  match enclosing with
  | some t => t.fields
  | none => []

/-- How invariants are rewritten. -/
def invariantScope (enclosing : Option (TypeDecl α)) : Strategy :=
  .memberScope (enclosedFields enclosing) []

/-- How preconditions are rewritten: parameters hide fields. -/
def callScope (c : Callable α) (enclosing : Option (TypeDecl α)) : Strategy :=
  .memberScope (enclosedFields enclosing) (c.parameterNames ++ [selfName])

/-- How postconditions are rewritten: the result hides a field, too. -/
def resultScope (c : Callable α) (enclosing : Option (TypeDecl α)) : Strategy :=
  .memberScope (enclosedFields enclosing) (c.parameterNames ++ [selfName] ++ [resultName])

/-- How a descriptor comes from a validated callable. -/
structure Describes (v : Validated α) (enclosing : Option (TypeDecl α)) (d : Descriptor α) :
    Prop where
  internalName : d.internalName = v.declaration.name
  role : d.role = v.declaration.role
  isAsync : d.isAsync = v.declaration.isAsync
  invariants : List.Forall₂ (fun q e => enforce (invariantScope enclosing) q = .ok e)
    v.invariants d.invariants
  preconditions : List.Forall₂ (fun q e => enforce (callScope v.declaration enclosing) q = .ok e)
    v.preconditions d.preconditions
  postconditions :
    List.Forall₂ (fun q e => enforce (resultScope v.declaration enclosing) q = .ok e)
      v.postconditions d.postconditions
  capturedFields : d.capturedFields = distinctFields v.references

theorem describes_of_describe {v : Validated α} {enclosing : Option (TypeDecl α)}
    {d : Descriptor α} (h : describe v enclosing = .ok d) : Describes v enclosing d := by
  unfold describe at h
  obtain ⟨invariants, hinv, h⟩ := bind_eq_ok.mp h
  obtain ⟨preconditions, hpre, h⟩ := bind_eq_ok.mp h
  obtain ⟨postconditions, hpost, h⟩ := bind_eq_ok.mp h
  cases h
  exact ⟨rfl, rfl, rfl, mapM_eq_ok.mp hinv, mapM_eq_ok.mp hpre, mapM_eq_ok.mp hpost, rfl⟩

/-- An enforced clause keeps text and message, and its tree is the rewritten one. -/
structure Enforces (s : Strategy) (q : ParsedClause) (e : EnforcedClause) : Prop where
  text : e.text = q.text
  message : e.message = q.message
  tree : e.tree = (rewriteWith s s.shadowed q.tree).1

theorem enforces_of_enforce {s : Strategy} {q : ParsedClause} {e : EnforcedClause}
    (h : enforce s q = .ok e) : Enforces s q e := by
  unfold enforce at h
  obtain ⟨⟨tree, edits⟩, hrewrite, h⟩ := bind_eq_ok.mp h
  obtain ⟨text, -, h⟩ := bind_eq_ok.mp h
  have hrewritten : rewriteWith s s.shadowed q.tree = (tree, edits) := by
    obtain ⟨_, -, hr⟩ := bind_eq_ok.mp (mapError_eq_ok.mp hrewrite)
    exact (Except.ok.inj hr)
  split at h
  · cases h
    exact ⟨rfl, rfl, by rw [hrewritten]⟩
  · cases h

/-! ## Tables -/

/-- `Stands t c enclosing invariants`: the callable is declared in the table, in a type whose
    invariants were accepted or as a function. -/
inductive Stands (t : Table α) (c : Callable α) :
    Option (TypeDecl α) → List ParsedClause → Prop where
  | member {T : TypeDecl α} {invariants : List ParsedClause} (hT : T ∈ t.types)
      (hc : c ∈ T.callables) (hinv : validateType T = .ok invariants) :
      Stands t c (some T) invariants
  | function (hc : c ∈ t.functions) : Stands t c none []

/-- `Weaves c enclosing invariants d`: the callable was accepted and described. -/
def Weaves (c : Callable α) (enclosing : Option (TypeDecl α)) (invariants : List ParsedClause)
    (d : Descriptor α) : Prop :=
  ∃ v, validateCallable c enclosing invariants = .ok (some v) ∧ describe v enclosing = .ok d

/-- The promise that an enforced clause was made from. -/
def promise (e : EnforcedClause) : Clause := { text := e.text, message := e.message }

/-- The invariants that a callable applies. -/
def appliedInvariants (c : Callable α) (enclosing : Option (TypeDecl α)) : List Clause :=
  match enclosing with
  | some T => if c.applyInvariants then T.invariants else []
  | none => []

/-- `Realizes d c enclosing`: the descriptor has the role of the callable, and its clauses make
    the promises of the declaration in the order of the declaration. -/
structure Realizes (d : Descriptor α) (c : Callable α) (enclosing : Option (TypeDecl α)) :
    Prop where
  internalName : d.internalName = c.name
  role : d.role = c.role
  isAsync : d.isAsync = c.isAsync
  invariants : d.invariants.map promise = appliedInvariants c enclosing
  preconditions : d.preconditions.map promise = c.preconditions
  postconditions : d.postconditions.map promise = c.postconditions

/-- Parsing and rewriting keep what clauses promise. -/
theorem map_promise_eq {s : Strategy} {cs : List Clause} {qs : List ParsedClause}
    {es : List EnforcedClause} (hparse : List.Forall₂ (fun k q => parseClause k = .ok q) cs qs)
    (henforce : List.Forall₂ (fun q e => enforce s q = .ok e) qs es) :
    es.map promise = cs := by
  have hq : qs.map (fun q => Clause.mk q.text q.message) = es.map promise :=
    map_eq_map_of_forall₂ henforce fun q e h => by
      obtain ⟨htext, hmessage, -⟩ := enforces_of_enforce h
      unfold promise
      rw [htext, hmessage]
  have hk : cs.map id = qs.map (fun q => Clause.mk q.text q.message) :=
    map_eq_map_of_forall₂ hparse fun k q h => by
      obtain ⟨htext, hmessage, -⟩ := of_parseClause h
      rw [htext, hmessage]
      rfl
  rw [← hq, ← hk, List.map_id]

/-- A descriptor promises what its declaration states. -/
theorem Weaves.promises {c : Callable α} {enclosing : Option (TypeDecl α)}
    {invariants : List ParsedClause} {d : Descriptor α} (hw : Weaves c enclosing invariants d) :
    d.preconditions.map promise = c.preconditions ∧
      d.postconditions.map promise = c.postconditions := by
  obtain ⟨v, hv, hd⟩ := hw
  have ha := accepts_of_validateCallable hv
  have hdesc := describes_of_describe hd
  exact ⟨map_promise_eq ha.preconditions hdesc.preconditions,
    map_promise_eq ha.postconditions hdesc.postconditions⟩

theorem Weaves.realizes {t : Table α} {c : Callable α} {enclosing : Option (TypeDecl α)}
    {invariants : List ParsedClause} {d : Descriptor α} (hs : Stands t c enclosing invariants)
    (hw : Weaves c enclosing invariants d) : Realizes d c enclosing := by
  obtain ⟨hpre, hpost⟩ := hw.promises
  obtain ⟨v, hv, hd⟩ := hw
  have ha := accepts_of_validateCallable hv
  have hdesc := describes_of_describe hd
  have hparsed : List.Forall₂ (fun k q => parseClause k = .ok q)
      (appliedInvariants c enclosing) v.invariants := by
    rw [ha.applied]
    cases hs with
    | function => exact .nil
    | member _ _ hinv =>
        unfold appliedInvariants
        cases c.applyInvariants with
        | true => exact (of_validateType hinv).1
        | false => exact .nil
  exact {
    internalName := by rw [hdesc.internalName, ha.declaration]
    role := by rw [hdesc.role, ha.declaration]
    isAsync := by rw [hdesc.isAsync, ha.declaration]
    invariants := map_promise_eq hparsed hdesc.invariants
    preconditions := hpre
    postconditions := hpost }

/-- No woven constructor is a coroutine. -/
theorem Weaves.isAsync_of_constructor {c : Callable α} {enclosing : Option (TypeDecl α)}
    {invariants : List ParsedClause} {d : Descriptor α} (hw : Weaves c enclosing invariants d)
    (hd : d.role = .constructor) : d.isAsync = false := by
  obtain ⟨v, hv, hdesc⟩ := hw
  have ha := accepts_of_validateCallable hv
  have hdescribes := describes_of_describe hdesc
  have hplaced := ha.placed
  rw [hdescribes.role, ha.declaration] at hd
  rw [hdescribes.isAsync, ha.declaration]
  unfold placementFault? at hplaced
  cases hasync : c.isAsync with
  | false => rfl
  | true =>
      rw [hd, hasync] at hplaced
      simp only [decide_true, Bool.and_self, if_true] at hplaced
      split_ifs at hplaced

/-- A woven callable was accepted and described. -/
theorem weaves_of_weaveCallable {c : Callable α} {enclosing : Option (TypeDecl α)}
    {invariants : List ParsedClause} {registry registry' : Registry} {d : Descriptor α}
    (h : weaveCallable c enclosing invariants registry = .ok (some (.woven d), registry')) :
    Weaves c enclosing invariants d := by
  unfold weaveCallable at h
  split at h
  · cases h
  · cases h
  · rename_i v hv
    obtain ⟨made, hmade, h⟩ := bind_eq_ok.mp h
    cases made with
    | error e => cases h
    | ok d' =>
        have hd : describe v enclosing = .ok d' := by
          unfold generate at hmade
          split at hmade <;> cases hmade
          assumption
        simp only at h
        split at h
        · cases h
        · cases h
          exact ⟨v, hv, hd⟩

theorem weaves_of_mem_weaveCallables {T : TypeDecl α} {invariants : List ParsedClause}
    {registry : Registry} {cs : List (Callable α)} {outcomes : List (Outcome α)}
    {d : Descriptor α} (h : weaveCallables T invariants registry cs = .ok outcomes)
    (hd : .woven d ∈ outcomes) : ∃ c ∈ cs, Weaves c (some T) invariants d := by
  induction cs generalizing registry outcomes with
  | nil =>
      cases h
      exact nomatch hd
  | cons c cs ih =>
      obtain ⟨⟨outcome, registry'⟩, hc, h⟩ := bind_eq_ok.mp h
      obtain ⟨rest, hrest, h⟩ := bind_eq_ok.mp h
      cases h
      rcases List.mem_append.mp hd with hhere | hthere
      · rw [Option.mem_toList] at hhere
        subst hhere
        exact ⟨c, List.mem_cons_self, weaves_of_weaveCallable hc⟩
      · obtain ⟨c', hc', hw⟩ := ih hrest hthere
        exact ⟨c', List.mem_cons_of_mem _ hc', hw⟩

theorem weaves_of_mem_weaveFunctions {registries : List (Option String × Registry)}
    {fs : List (Callable α)} {outcomes : List (Outcome α)} {d : Descriptor α}
    (h : weaveFunctions registries fs = .ok outcomes) (hd : .woven d ∈ outcomes) :
    ∃ f ∈ fs, Weaves f none [] d := by
  induction fs generalizing registries outcomes with
  | nil =>
      cases h
      exact nomatch hd
  | cons f fs ih =>
      obtain ⟨⟨outcome, registry'⟩, hf, h⟩ := bind_eq_ok.mp h
      obtain ⟨rest, hrest, h⟩ := bind_eq_ok.mp h
      cases h
      rcases List.mem_append.mp hd with hhere | hthere
      · rw [Option.mem_toList] at hhere
        subst hhere
        exact ⟨f, List.mem_cons_self, weaves_of_weaveCallable hf⟩
      · obtain ⟨f', hf', hw⟩ := ih hrest hthere
        exact ⟨f', List.mem_cons_of_mem _ hf', hw⟩

/-- Behind every descriptor of a woven table stands a callable of the table. -/
theorem exists_of_mem_descriptors {t : Table α} {r : Result α} {d : Descriptor α}
    (h : weave t = .ok r) (hd : d ∈ r.descriptors) :
    ∃ c enclosing invariants,
      Stands t c enclosing invariants ∧ Weaves c enclosing invariants d := by
  unfold weave at h
  obtain ⟨types, htypes, h⟩ := bind_eq_ok.mp h
  obtain ⟨functions, hfunctions, h⟩ := bind_eq_ok.mp h
  cases h
  obtain ⟨outcome, houtcome, hwoven⟩ := List.mem_filterMap.mp hd
  have hmem : Outcome.woven d ∈ types.flatten ++ functions := by
    cases outcome with
    | rejected e => cases hwoven
    | woven d' =>
        cases hwoven
        exact houtcome
  rcases List.mem_append.mp hmem with htype | hfunction
  · obtain ⟨outcomes, houtcomes, hd'⟩ := List.mem_flatten.mp htype
    obtain ⟨T, hT, hTo⟩ := exists_of_forall₂_right (mapM_eq_ok.mp htypes) outcomes houtcomes
    unfold weaveType at hTo
    split at hTo
    · cases hTo
      exact absurd hd' (by simp)
    · rename_i invariants hinv
      obtain ⟨c, hc, hw⟩ := weaves_of_mem_weaveCallables hTo hd'
      exact ⟨c, some T, invariants, .member hT hc hinv, hw⟩
  · obtain ⟨f, hf, hw⟩ := weaves_of_mem_weaveFunctions hfunctions hfunction
    exact ⟨f, none, [], .function hf, hw⟩

/-! ## Evaluation -/

/-- What becomes of the callables of a type on their way to descriptors, each seen through `g`. -/
def describedMembers {β : Type} (T : TypeDecl α) (g : Validated α → Descriptor α → β) :
    List (Option β) :=
  T.callables.map fun c =>
    (validateType T).toOption.bind fun invariants =>
      (validateCallable c (some T) invariants).toOption.join.bind fun v =>
        (describe v (some T)).toOption.map (g v)

/-- A type whose only callable becomes something has a callable that is accepted and described. -/
theorem exists_of_describedMembers {β : Type} {T : TypeDecl α}
    {g : Validated α → Descriptor α → β} {x : β} (h : describedMembers T g = [some x]) :
    ∃ c ∈ T.callables, ∃ invariants v d, validateType T = .ok invariants ∧
      validateCallable c (some T) invariants = .ok (some v) ∧ describe v (some T) = .ok d ∧
      g v d = x := by
  obtain ⟨c, hc, hmade⟩ := List.map_eq_singleton_iff.mp h
  obtain ⟨invariants, hi, hmade⟩ := Option.bind_eq_some_iff.mp hmade
  obtain ⟨v, hv, hmade⟩ := Option.bind_eq_some_iff.mp hmade
  obtain ⟨d, hd, hx⟩ := Option.map_eq_some_iff.mp hmade
  refine ⟨c, ?_, invariants, v, d, toOption_eq_some.mp hi,
    toOption_eq_some.mp (Option.join_eq_some_iff.mp hv), toOption_eq_some.mp hd, hx⟩
  rw [hc]
  exact List.mem_singleton_self c

/-- The ledger is woven, and its method is its only descriptor. -/
theorem ledger_woven : ∃ r d, weave { types := [Demonstration.ledger] } = .ok r ∧ r.errors = [] ∧
    r.descriptors = [d] ∧ d.internalName = "_add" ∧ d.role = .method ∧ d.owner.isSome = true ∧
      d.preconditions.length = 1 ∧ d.capturedFields = ["total"] := by
  have hwoven : ((weave { types := [Demonstration.ledger] }).toOption.bind fun r =>
      if r.errors = [] then some (r.descriptors.map fun d =>
        ((d.internalName, d.role, d.owner.isSome), d.preconditions.length, d.capturedFields))
      else none) = some [(("_add", .method, true), 1, ["total"])] := by
    decide +kernel
  obtain ⟨r, hr, hseen⟩ := Option.bind_eq_some_iff.mp hwoven
  obtain ⟨herrors, hseen⟩ := Option.ite_none_right_eq_some.mp hseen
  obtain ⟨d, hd, hseen⟩ := List.map_eq_singleton_iff.mp (Option.some.inj hseen)
  obtain ⟨hfront, hseen⟩ := Prod.mk.inj hseen
  obtain ⟨hname, hfront⟩ := Prod.mk.inj hfront
  obtain ⟨hrole, howner⟩ := Prod.mk.inj hfront
  obtain ⟨hlength, hfields⟩ := Prod.mk.inj hseen
  exact ⟨r, d, toOption_eq_some.mp hr, herrors, hd, hname, hrole, howner, hlength, hfields⟩

end Covenant.Weaving
