import Covenant.Declaration.Validation
import Covenant.Demonstration
import Covenant.Proofs.Weaving.Accepted
import Covenant.Proofs.Weaving.Outcome

/-! # Isolation — a rejected declaration leaves no trace

    Weaving carries a registry of public names from one declaration to the
    next.  A rejected declaration leaves it as it was, so that the others come
    out as if the rejected one had never been there.

    * `Reported` lists the errors of validation, which never names a public
      name: those are given later (`validateCallable_reported`,
      `validateType_reported`).
    * `comesTo_of_weaveCallable` is what one declaration comes to: nothing, a
      descriptor, or an error that names it.
    * `Course` follows declarations one after the other through a state;
      `Course.kept` takes the rejected ones out.
    * `weave_eq_ok` accounts for a whole table, `isolation` takes all rejected
      declarations out of it. -/

namespace Covenant.Weaving

open Condition Declaration Wrapper

variable {α : Type}

/-- The errors that validation reports within a type or outside of one. -/
inductive Reported (enclosing : Option (TypeDecl α)) : GenerationError → Prop where
  | condition (text : String) (fault : ConditionFault) :
      Reported enclosing (inClause text (.condition fault))
  | old (text : String) (fault : OldFault) : Reported enclosing (inClause text (.old fault))
  | rule (text : String) (fault : PlacementFault) :
      Reported enclosing (inClause text (.placement fault))
  | field (text name : String) : Reported enclosing
      { cause := .unknownField name (enclosing.map (·.name)),
        typeName := enclosing.map (·.name), clause := some text }
  | placement (fault : PlacementFault) : Reported enclosing { cause := .placement fault }

/-- No public name is at fault in what validation reports. -/
theorem Reported.ne_duplicateName {enclosing : Option (TypeDecl α)} {e : GenerationError}
    (h : Reported enclosing e) (name internal place : String) (conflict : NameConflict) :
    e.cause ≠ .duplicateName name internal place conflict := by
  cases h <;> exact nofun

/-- Nor is what validation reports of the kind for public names. -/
theorem Reported.kind_ne {enclosing : Option (TypeDecl α)} {e : GenerationError}
    (h : Reported enclosing e) : e.kind ≠ "DuplicatePublicName" := by
  cases h with
  | old text fault => cases fault <;> exact of_decide_eq_true rfl
  | condition => exact of_decide_eq_true rfl
  | rule => exact of_decide_eq_true rfl
  | field => exact of_decide_eq_true rfl
  | placement => exact of_decide_eq_true rfl

/-! ## Clauses -/

section Reported

variable (enclosing : Option (TypeDecl α)) (q : ParsedClause)

theorem parseClauses_reported (cs : List Clause) :
    FailsWith (Reported enclosing) (parseClauses cs) := by
  refine .mapM fun k _ => ?_
  intro e h
  rw [parseClause] at h
  split at h
  · exact nomatch h
  · cases h
    exact .condition k.text _

theorem rejectIf_reported (broken : Bool) (fault : PlacementFault) :
    FailsWith (Reported enclosing) (q.rejectIf broken fault) := by
  intro e h
  rw [ParsedClause.rejectIf] at h
  split at h
  · cases h
    exact .rule q.text fault
  · exact nomatch h

theorem oldReferences_reported : FailsWith (Reported enclosing) q.oldReferences :=
  .mapError fun fault => .old q.text fault

theorem checkNoOld_reported (place : NoOldPlace) :
    FailsWith (Reported enclosing) (q.checkNoOld place) :=
  (oldReferences_reported enclosing q).bind fun _ => rejectIf_reported enclosing q _ _

theorem checkPrecondition_reported (parameters : List String) :
    FailsWith (Reported enclosing) (q.checkPrecondition parameters) := by
  refine (rejectIf_reported enclosing q _ _).bind fun _ => ?_
  exact (checkNoOld_reported enclosing q _).bind fun _ => rejectIf_reported enclosing q _ _

theorem checkInvariant_reported : FailsWith (Reported enclosing) q.checkInvariant := by
  refine (checkNoOld_reported enclosing q _).bind fun _ => ?_
  exact (rejectIf_reported enclosing q _ _).bind fun _ => rejectIf_reported enclosing q _ _

theorem checkField_reported (r : OldReference) :
    FailsWith (Reported enclosing) (q.checkField enclosing r) := by
  intro e h
  unfold ParsedClause.checkField at h
  dsimp only at h
  split_ifs at h
  cases h
  exact .field q.text r.field

theorem checkPostcondition_reported (role : Role) :
    FailsWith (Reported enclosing) (q.checkPostcondition role enclosing) := by
  refine (rejectIf_reported enclosing q _ _).bind fun _ => ?_
  refine (oldReferences_reported enclosing q).bind fun found => ?_
  refine (rejectIf_reported enclosing q _ _).bind fun _ => ?_
  exact (FailsWith.forM fun r _ => checkField_reported enclosing q r).bind fun _ => .ok found

/-! ## Declarations -/

/-- **TYPES** are refused for their invariants. -/
theorem validateType_reported (T : TypeDecl α) :
    FailsWith (Reported enclosing) (validateType T) := by
  refine (parseClauses_reported enclosing _).bind fun qs => ?_
  exact (FailsWith.forM fun q _ => checkInvariant_reported enclosing q).bind fun _ => .ok qs

/-- **CALLABLES** are refused for where they stand or for one of their clauses. -/
theorem validateCallable_reported (c : Callable α) (invariants : List ParsedClause) :
    FailsWith (Reported enclosing) (validateCallable c enclosing invariants) := by
  rw [validateCallable]
  split
  · exact .ok none
  · dsimp only
    split
    · exact .error (.placement _)
    · refine (parseClauses_reported enclosing _).bind fun pre => ?_
      refine (parseClauses_reported enclosing _).bind fun post => ?_
      refine (FailsWith.forM fun q _ => checkPrecondition_reported enclosing q _).bind fun _ => ?_
      exact (FailsWith.mapM fun q _ => checkPostcondition_reported enclosing q _).bind
        fun _ => .ok _

end Reported

/-! ## Locations -/

/-- An error that is not located yet names at most the enclosing type. -/
structure Unlocated (enclosing : Option (TypeDecl α)) (e : GenerationError) : Prop where
  typeName : e.typeName = none ∨ e.typeName = enclosing.map (·.name)
  callableName : e.callableName = none

theorem Unlocated.of_none {enclosing : Option (TypeDecl α)} {e : GenerationError}
    (ht : e.typeName = none) (hc : e.callableName = none) : Unlocated enclosing e :=
  ⟨.inl ht, hc⟩

/-- Locating such an error makes it name its type and its callable. -/
theorem Unlocated.locate {enclosing : Option (TypeDecl α)} {e : GenerationError}
    (h : Unlocated enclosing e) (name : Option String) :
    (e.locate (enclosing.map (·.name)) name).typeName = enclosing.map (·.name) ∧
      (e.locate (enclosing.map (·.name)) name).callableName = name := by
  refine ⟨?_, ?_⟩
  · show (present e.typeName).or (enclosing.map (·.name)) = enclosing.map (·.name)
    rcases h.typeName with ht | ht
    · rw [ht]
      rfl
    · rw [ht]
      -- an empty name is filled in with itself
      unfold present
      split
      · rfl
      · exact Option.or_self
  · show (present e.callableName).or name = name
    rw [h.callableName]
    rfl

/-- What validation reports is not located yet. -/
theorem Reported.unlocated {enclosing : Option (TypeDecl α)} {e : GenerationError}
    (h : Reported enclosing e) : Unlocated enclosing e := by
  cases h with
  | field => exact ⟨.inr rfl, rfl⟩
  | condition => exact .of_none rfl rfl
  | old => exact .of_none rfl rfl
  | rule => exact .of_none rfl rfl
  | placement => exact .of_none rfl rfl

/-! ## One declaration -/

/-- What weaving makes of a callable, with the public names before and after it. -/
inductive ComesTo (c : Callable α) (enclosing : Option (TypeDecl α))
    (invariants : List ParsedClause) (registry : Registry) :
    Option (Outcome α) → Registry → Prop where
  | nothing (hc : c.hasContract = false) : ComesTo c enclosing invariants registry none registry
  | rejected {e : GenerationError} (hc : c.hasContract = true)
      (htype : e.typeName = enclosing.map (·.name)) (hname : e.callableName = some c.name) :
      ComesTo c enclosing invariants registry (some (.rejected e)) registry
  | woven {d : Descriptor α} {after : Registry} (hc : c.hasContract = true)
      (hw : Weaves c enclosing invariants d)
      (hclaim : registry.claim d.publicName d.internalName = .ok after) :
      ComesTo c enclosing invariants registry (some (.woven d)) after

theorem hasContract_of_validateCallable {c : Callable α} {enclosing : Option (TypeDecl α)}
    {invariants : List ParsedClause} {o : Option (Validated α)}
    (h : validateCallable c enclosing invariants = .ok o) : c.hasContract = o.isSome := by
  unfold validateCallable at h
  split at h
  · rename_i hc
    cases h
    exact Bool.eq_false_iff.mpr fun h => by rw [h] at hc; exact nomatch hc
  · rename_i hc
    dsimp only at h
    split at h
    · cases h
    · obtain ⟨_, -, h⟩ := bind_eq_ok.mp h
      obtain ⟨_, -, h⟩ := bind_eq_ok.mp h
      obtain ⟨_, -, h⟩ := bind_eq_ok.mp h
      obtain ⟨_, -, h⟩ := bind_eq_ok.mp h
      cases h
      rw [Bool.not_eq_true', Bool.not_eq_false] at hc
      exact hc

theorem hasContract_of_error {c : Callable α} {enclosing : Option (TypeDecl α)}
    {invariants : List ParsedClause} {e : GenerationError}
    (h : validateCallable c enclosing invariants = .error e) : c.hasContract = true := by
  unfold validateCallable at h
  split at h
  · cases h
  · rename_i hc
    rw [Bool.not_eq_true', Bool.not_eq_false] at hc
    exact hc

/-- **ONE CALLABLE** that weaving gets through comes to nothing, to a descriptor or to an error
    that names it. -/
theorem comesTo_of_weaveCallable {c : Callable α} {enclosing : Option (TypeDecl α)}
    {invariants : List ParsedClause} {registry after : Registry} {o : Option (Outcome α)}
    (h : weaveCallable c enclosing invariants registry = .ok (o, after)) :
    ComesTo c enclosing invariants registry o after := by
  have hrejected {e : GenerationError} (hc : c.hasContract = true) (he : Unlocated enclosing e) :
      ComesTo c enclosing invariants registry
        (some (.rejected (e.locate (enclosing.map (·.name)) (some c.name)))) registry :=
    .rejected hc (he.locate (some c.name)).1 (he.locate (some c.name)).2
  unfold weaveCallable at h
  split at h
  · rename_i e he
    cases h
    exact hrejected (hasContract_of_error he)
      (validateCallable_reported enclosing c invariants e he).unlocated
  · rename_i hv
    cases h
    exact .nothing (hasContract_of_validateCallable hv)
  · rename_i v hv
    have hc := hasContract_of_validateCallable hv
    obtain ⟨made, hmade, h⟩ := bind_eq_ok.mp h
    unfold generate at hmade
    split at hmade
    · rename_i d hd
      cases hmade
      dsimp only at h
      split at h
      · cases h
        exact hrejected hc (.of_none rfl rfl)
      · rename_i hclaim
        cases h
        exact .woven hc ⟨v, hv, hd⟩ hclaim
    · cases hmade
      cases h
      exact hrejected hc (.of_none rfl rfl)
    · exact nomatch hmade
    · exact nomatch hmade

/-! ## One declaration after the other -/

/-- A callable with what it came to. -/
structure Fate (α : Type) where
  declaration : Callable α
  outcome : Option (Outcome α)

/-- The descriptor that a callable became. -/
def Outcome.descriptor? : Outcome α → Option (Descriptor α)
  | .woven d => some d
  | .rejected _ => none

/-- The error that a callable was rejected with. -/
def Outcome.error? : Outcome α → Option GenerationError
  | .woven _ => none
  | .rejected e => some e

/-- Whether a callable was rejected. -/
def Fate.isRejected (f : Fate α) : Bool := (f.outcome.bind Outcome.error?).isSome

/-- What came of callables, in their order. -/
def outcomes (fs : List (Fate α)) : List (Outcome α) := fs.filterMap (·.outcome)

/-- The fates of the callables that were not rejected. -/
def kept (fs : List (Fate α)) : List (Fate α) := fs.filter (!·.isRejected)

section Course

variable {σ : Type} (step : σ → Callable α → Except Escape (Option (Outcome α) × σ))

/-- Callables that are taken one after the other by a step, with their fates. -/
inductive Course : σ → List (Fate α) → Prop where
  | done {s : σ} : Course s []
  | next {s after : σ} {c : Callable α} {o : Option (Outcome α)} {fs : List (Fate α)}
      (h : step s c = .ok (o, after)) (rest : Course after fs) : Course s (⟨c, o⟩ :: fs)

/-- A step that does not go on from a rejected callable. -/
def Forgets : Prop := ∀ s c e after, step s c = .ok (some (.rejected e), after) → after = s

variable {step}

/-- **REJECTED CALLABLES CAN BE TAKEN OUT** of a course whose steps forget them. -/
theorem Course.kept {s : σ} {fs : List (Fate α)} (hstep : Forgets step) (h : Course step s fs) :
    Course step s (kept fs) := by
  induction h with
  | done => exact .done
  | @next s after c o fs h rest ih =>
      match o, h with
      | none, h => exact .next h ih
      | some (.woven d), h => exact .next h ih
      | some (.rejected e), h =>
          obtain rfl := hstep s c e after h
          exact ih

theorem Course.forall {p : Fate α → Prop} {s : σ} {fs : List (Fate α)} (h : Course step s fs)
    (hstep : ∀ s c o after, step s c = .ok (o, after) → p ⟨c, o⟩) : ∀ f ∈ fs, p f := by
  induction h with
  | done => exact fun f hf => absurd hf List.not_mem_nil
  | @next s after c o fs h _ ih => exact List.forall_mem_cons.mpr ⟨hstep s c o after h, ih⟩

end Course

theorem outcomes_kept_errors (fs : List (Fate α)) :
    (outcomes (kept fs)).filterMap Outcome.error? = [] := by
  induction fs with
  | nil => rfl
  | cons f fs ih =>
      match f with
      | ⟨c, none⟩ => exact ih
      | ⟨c, some (.woven d)⟩ => exact ih
      | ⟨c, some (.rejected e)⟩ => exact ih

theorem outcomes_kept_descriptors (fs : List (Fate α)) :
    (outcomes (kept fs)).filterMap Outcome.descriptor? =
      (outcomes fs).filterMap Outcome.descriptor? := by
  induction fs with
  | nil => rfl
  | cons f fs ih =>
      match f with
      | ⟨c, none⟩ => exact ih
      | ⟨c, some (.woven d)⟩ => exact congrArg (d :: ·) ih
      | ⟨c, some (.rejected e)⟩ => exact ih

/-! ## Places -/

/-- The step in one place: within a type, or among the functions of one module. -/
def placeStep (enclosing : Option (TypeDecl α)) (invariants : List ParsedClause)
    (registry : Registry) (c : Callable α) : Except Escape (Option (Outcome α) × Registry) :=
  weaveCallable c enclosing invariants registry

/-- The step within a type. -/
def memberStep (T : TypeDecl α) (invariants : List ParsedClause) (registry : Registry)
    (c : Callable α) : Except Escape (Option (Outcome α) × Registry) :=
  weaveCallable c (some T) invariants registry

/-- The public names that are taken when the weaving of a type begins. -/
def memberRegistry (T : TypeDecl α) : Registry :=
  { owner := some T.name, taken := T.members ++ T.fields }

/-- The step among functions, whose modules have their public names each. -/
def functionStep (registries : Option String → Registry) (f : Callable α) :
    Except Escape (Option (Outcome α) × (Option String → Registry)) := do
  let (o, registry) ← weaveCallable f none [] (registries f.module)
  return (o, Function.update registries f.module registry)

/-- No public name of a module is taken when the weaving of functions begins. -/
def moduleRegistry (m : Option String) : Registry := { owner := m }

theorem memberStep_forgets (T : TypeDecl α) (invariants : List ParsedClause) :
    Forgets (memberStep T invariants) := by
  intro registry c e after h
  cases comesTo_of_weaveCallable h
  rfl

theorem functionStep_forgets : Forgets (functionStep (α := α)) := by
  intro registries f e after h
  obtain ⟨⟨o, registry⟩, hw, h⟩ := bind_eq_ok.mp h
  cases h
  cases comesTo_of_weaveCallable hw
  exact Function.update_eq_self _ _

theorem weaveCallables_eq_ok {T : TypeDecl α} {invariants : List ParsedClause}
    {registry : Registry} {cs : List (Callable α)} {os : List (Outcome α)} :
    weaveCallables T invariants registry cs = .ok os ↔
      ∃ fs, Course (memberStep T invariants) registry fs ∧ fs.map (·.declaration) = cs ∧
        outcomes fs = os := by
  constructor
  · intro h
    induction cs generalizing registry os with
    | nil =>
        cases h
        exact ⟨[], .done, rfl, rfl⟩
    | cons c cs ih =>
        obtain ⟨⟨o, after⟩, hc, h⟩ := bind_eq_ok.mp h
        obtain ⟨rest, hrest, h⟩ := bind_eq_ok.mp h
        cases h
        obtain ⟨fs, hfs, rfl, rfl⟩ := ih hrest
        refine ⟨⟨c, o⟩ :: fs, .next hc hfs, rfl, ?_⟩
        cases o <;> rfl
  · rintro ⟨fs, hfs, rfl, rfl⟩
    induction hfs with
    | done => rfl
    | @next s after c o fs h rest ih =>
        refine bind_eq_ok.mpr ⟨(o, after), h, bind_eq_ok.mpr ⟨_, ih, ?_⟩⟩
        cases o <;> rfl

/-- The registries of modules as a function; a module that has none yet starts with an empty
    one. -/
def registryOf (registries : List (Option String × Registry)) (m : Option String) : Registry :=
  (registries.lookup m).getD (moduleRegistry m)

theorem registryOf_cons (registries : List (Option String × Registry)) (m : Option String)
    (r : Registry) :
    registryOf ((m, r) :: registries) = Function.update (registryOf registries) m r := by
  funext n
  unfold registryOf
  rw [List.lookup_cons]
  by_cases h : n = m
  · subst h
    rw [Function.update_self, beq_self_eq_true]
    rfl
  · rw [Function.update_of_ne h, beq_false_of_ne h]

theorem weaveFunctions_eq_ok {registries : List (Option String × Registry)}
    {cs : List (Callable α)} {os : List (Outcome α)} :
    weaveFunctions registries cs = .ok os ↔
      ∃ fs, Course functionStep (registryOf registries) fs ∧ fs.map (·.declaration) = cs ∧
        outcomes fs = os := by
  constructor
  · intro h
    induction cs generalizing registries os with
    | nil =>
        cases h
        exact ⟨[], .done, rfl, rfl⟩
    | cons c cs ih =>
        obtain ⟨⟨o, after⟩, hc, h⟩ := bind_eq_ok.mp h
        obtain ⟨rest, hrest, h⟩ := bind_eq_ok.mp h
        cases h
        obtain ⟨fs, hfs, rfl, rfl⟩ := ih hrest
        rw [registryOf_cons] at hfs
        refine ⟨⟨c, o⟩ :: fs, .next (bind_eq_ok.mpr ⟨(o, after), hc, rfl⟩) hfs, rfl, ?_⟩
        cases o <;> rfl
  · rintro ⟨fs, hfs, rfl, rfl⟩
    induction fs generalizing registries with
    | nil => rfl
    | cons f fs ih =>
        obtain ⟨c, o⟩ := f
        cases hfs with
        | next h rest =>
            obtain ⟨⟨o', registry⟩, hc, h⟩ := bind_eq_ok.mp h
            cases h
            rw [← registryOf_cons] at rest
            refine bind_eq_ok.mpr ⟨(o, registry), hc, bind_eq_ok.mpr ⟨_, ih rest, ?_⟩⟩
            cases o <;> rfl

/-! ## Public names -/

theorem claim_eq_ok {r after : Registry} {publicName internalName : String} :
    r.claim publicName internalName = .ok after ↔
      r.claimed.lookup publicName = none ∧ publicName ∉ r.taken ∧
        { r with claimed := (publicName, internalName) :: r.claimed } = after := by
  unfold Registry.claim
  constructor
  · intro h
    split at h
    · exact nomatch h
    · rename_i hfree
      split_ifs at h with htaken
      exact ⟨hfree, fun hmem => htaken (List.contains_iff_mem.mpr hmem), Except.ok.inj h⟩
  · rintro ⟨hfree, htaken, rfl⟩
    simp only [hfree, List.contains_iff_mem, htaken, if_false]

/-- The descriptors that callables became, in their order. -/
def descriptorsOf (fs : List (Fate α)) : List (Descriptor α) :=
  (outcomes fs).filterMap Outcome.descriptor?

/-- The descriptors of declarations are what the declarations have become. -/
theorem mem_descriptorsOf {fs : List (Fate α)} {d : Descriptor α} :
    d ∈ descriptorsOf fs ↔ ∃ f ∈ fs, f.outcome = some (.woven d) := by
  rw [descriptorsOf, outcomes, List.filterMap_filterMap, List.mem_filterMap]
  refine exists_congr fun f => and_congr_right fun _ => ?_
  rw [Option.bind_eq_some_iff]
  constructor
  · rintro ⟨o, ho, hd⟩
    cases o with
    | rejected e => cases hd
    | woven d' => rw [ho, Option.some.inj hd]
  · intro h
    exact ⟨.woven d, h, rfl⟩

/-- In one place no public name is given twice, nor one that was taken. -/
theorem Course.publicNames_fresh {enclosing : Option (TypeDecl α)}
    {invariants : List ParsedClause} {registry : Registry} {fs : List (Fate α)}
    (h : Course (placeStep enclosing invariants) registry fs) :
    ((descriptorsOf fs).map (·.publicName)).Nodup ∧
      ∀ d ∈ descriptorsOf fs,
        d.publicName ∉ registry.taken ∧ registry.claimed.lookup d.publicName = none := by
  induction h with
  | done => exact ⟨List.nodup_nil, List.forall_mem_nil _⟩
  | @next registry after c o fs h _ ih =>
      cases comesTo_of_weaveCallable h with
      | nothing => exact ih
      | rejected => exact ih
      | @woven d _ _ _ hclaim =>
          obtain ⟨hfree, htaken, rfl⟩ := claim_eq_ok.1 hclaim
          obtain ⟨hnodup, hfresh⟩ := ih
          have hfresh' : ∀ d' ∈ descriptorsOf fs, d'.publicName ≠ d.publicName ∧
              d'.publicName ∉ registry.taken ∧ registry.claimed.lookup d'.publicName = none := by
            intro d' hd'
            obtain ⟨htaken', hfree'⟩ := hfresh d' hd'
            rw [List.lookup_cons] at hfree'
            by_cases heq : d'.publicName = d.publicName
            · rw [heq, beq_self_eq_true] at hfree'
              exact nomatch hfree'
            · rw [beq_false_of_ne heq] at hfree'
              exact ⟨heq, htaken', hfree'⟩
          refine ⟨List.nodup_cons.mpr ⟨?_, hnodup⟩, List.forall_mem_cons.mpr ⟨⟨htaken, hfree⟩, ?_⟩⟩
          · intro hmem
            obtain ⟨d', hd', heq⟩ := List.mem_map.mp hmem
            exact (hfresh' d' hd').1 heq
          · exact fun d' hd' => (hfresh' d' hd').2

/-! ## Tables -/

/-- What became of the declarations of a table: a type is rejected as a whole, or else there is
    a fate for each of its callables. -/
structure Account (α : Type) where
  types : List (TypeDecl α × Except GenerationError (List (Fate α)))
  functions : List (Fate α)

/-- What becomes of a type. -/
def TypeComesTo (T : TypeDecl α) : Except GenerationError (List (Fate α)) → Prop
  | .error e => ∃ e', validateType T = .error e' ∧ e = e'.locate (some T.name) none
  | .ok fs => ∃ invariants, validateType T = .ok invariants ∧
      Course (memberStep T invariants) (memberRegistry T) fs ∧ fs.map (·.declaration) = T.callables

/-- An account is that of a table if it goes through all declarations of the table in order. -/
structure Account.Of (a : Account α) (t : Table α) : Prop where
  types : a.types.map (·.1) = t.types
  members : ∀ p ∈ a.types, TypeComesTo p.1 p.2
  functions : a.functions.map (·.declaration) = t.functions
  course : Course functionStep moduleRegistry a.functions

/-- What came of a type. -/
def typeOutcomes : Except GenerationError (List (Fate α)) → List (Outcome α)
  | .error e => [.rejected e]
  | .ok fs => outcomes fs

/-- What came of all declarations, in their order. -/
def Account.outcomes (a : Account α) : List (Outcome α) :=
  a.types.flatMap (fun p => typeOutcomes p.2) ++ Weaving.outcomes a.functions

/-- The table without its carried errors and without everything that was rejected. -/
def Account.remainder (a : Account α) : Table α where
  types := a.types.filterMap fun p =>
    p.2.toOption.map fun fs => { p.1 with callables := (kept fs).map (·.declaration) }
  functions := (kept a.functions).map (·.declaration)
  errors := []

theorem weaveType_eq_ok {T : TypeDecl α} {os : List (Outcome α)} :
    weaveType T = .ok os ↔ ∃ fate, TypeComesTo T fate ∧ typeOutcomes fate = os := by
  unfold weaveType
  cases hT : validateType T with
  | error e =>
      constructor
      · intro h
        cases h
        exact ⟨.error _, ⟨e, hT, rfl⟩, rfl⟩
      · rintro ⟨fate, hfate, rfl⟩
        cases fate with
        | error e' =>
            obtain ⟨e'', he'', rfl⟩ := hfate
            obtain rfl := Except.error.inj (hT.symm.trans he'')
            rfl
        | ok fs =>
            obtain ⟨invariants, hinv, -⟩ := hfate
            exact nomatch hT.symm.trans hinv
  | ok invariants =>
      dsimp only
      rw [weaveCallables_eq_ok]
      constructor
      · rintro ⟨fs, hfs, hcs, rfl⟩
        exact ⟨.ok fs, ⟨invariants, hT, hfs, hcs⟩, rfl⟩
      · rintro ⟨fate, hfate, rfl⟩
        cases fate with
        | error e' =>
            obtain ⟨e'', he'', -⟩ := hfate
            exact nomatch hT.symm.trans he''
        | ok fs =>
            obtain ⟨invariants', hinv, hfs, hcs⟩ := hfate
            obtain rfl := Except.ok.inj (hT.symm.trans hinv)
            exact ⟨fs, hfs, hcs, rfl⟩

theorem weaveTypes_eq_ok {Ts : List (TypeDecl α)} {oss : List (List (Outcome α))} :
    Ts.mapM weaveType = .ok oss ↔ ∃ fates : List (TypeDecl α × Except GenerationError _),
      fates.map (·.1) = Ts ∧ (∀ p ∈ fates, TypeComesTo p.1 p.2) ∧
        fates.map (fun p => typeOutcomes p.2) = oss := by
  rw [mapM_eq_ok]
  constructor
  · intro h
    induction h with
    | nil => exact ⟨[], rfl, List.forall_mem_nil _, rfl⟩
    | cons hT _ ih =>
        obtain ⟨fates, rfl, hfates, rfl⟩ := ih
        obtain ⟨fate, hfate, rfl⟩ := weaveType_eq_ok.1 hT
        exact ⟨(_, fate) :: fates, rfl, List.forall_mem_cons.mpr ⟨hfate, hfates⟩, rfl⟩
  · rintro ⟨fates, rfl, hfates, rfl⟩
    rw [List.forall₂_map_left_iff, List.forall₂_map_right_iff, List.forall₂_same]
    exact fun p hp => weaveType_eq_ok.2 ⟨p.2, hfates p hp, rfl⟩

/-- **A TABLE IS ACCOUNTED FOR** exactly if weaving returns. -/
theorem weave_eq_ok {t : Table α} {r : Result α} :
    weave t = .ok r ↔ ∃ a : Account α, a.Of t ∧ Result.ofOutcomes t.errors a.outcomes = r := by
  unfold weave
  rw [bind_eq_ok]
  constructor
  · rintro ⟨oss, hoss, h⟩
    obtain ⟨os, hos, h⟩ := bind_eq_ok.mp h
    cases h
    obtain ⟨fates, htypes, hmembers, rfl⟩ := weaveTypes_eq_ok.1 hoss
    obtain ⟨fs, hcourse, hfunctions, rfl⟩ := weaveFunctions_eq_ok.1 hos
    exact ⟨⟨fates, fs⟩, ⟨htypes, hmembers, hfunctions, hcourse⟩, rfl⟩
  · rintro ⟨a, ha, rfl⟩
    refine ⟨_, weaveTypes_eq_ok.2 ⟨a.types, ha.types, ha.members, rfl⟩, ?_⟩
    exact bind_eq_ok.mpr ⟨_, weaveFunctions_eq_ok.2 ⟨a.functions, ha.course, ha.functions, rfl⟩,
      rfl⟩

/-! ## Names -/

/-- A callable is accounted for by name: nothing comes of one that has no contract, and what
    comes of another one names it and its type. -/
def Fate.Named (enclosing : Option (TypeDecl α)) (f : Fate α) : Prop :=
  match f.outcome with
  | none => f.declaration.hasContract = false
  | some (.rejected e) => f.declaration.hasContract = true ∧
      e.typeName = enclosing.map (·.name) ∧ e.callableName = some f.declaration.name
  | some (.woven d) => f.declaration.hasContract = true ∧
      d.owner = enclosing.map (·.name) ∧ d.internalName = f.declaration.name

theorem Weaves.owner {c : Callable α} {enclosing : Option (TypeDecl α)}
    {invariants : List ParsedClause} {d : Descriptor α} (h : Weaves c enclosing invariants d) :
    d.owner = enclosing.map (·.name) ∧ d.internalName = c.name := by
  obtain ⟨v, hv, hd⟩ := h
  refine ⟨?_, ?_⟩
  · unfold describe at hd
    obtain ⟨_, -, hd⟩ := bind_eq_ok.mp hd
    obtain ⟨_, -, hd⟩ := bind_eq_ok.mp hd
    obtain ⟨_, -, hd⟩ := bind_eq_ok.mp hd
    cases hd
    rfl
  · rw [(describes_of_describe hd).internalName, (accepts_of_validateCallable hv).declaration]

theorem named_of_weaveCallable {c : Callable α} {enclosing : Option (TypeDecl α)}
    {invariants : List ParsedClause} {registry after : Registry} {o : Option (Outcome α)}
    (h : weaveCallable c enclosing invariants registry = .ok (o, after)) :
    Fate.Named enclosing ⟨c, o⟩ := by
  cases comesTo_of_weaveCallable h with
  | nothing hc => exact hc
  | rejected hc htype hname => exact ⟨hc, htype, hname⟩
  | woven hc hw _ => exact ⟨hc, hw.owner⟩

/-- Everything that came of a table is accounted for by name. -/
structure Account.Named (a : Account α) : Prop where
  types : ∀ p ∈ a.types, ∀ e, p.2 = .error e →
    e.typeName = some p.1.name ∧ e.callableName = none
  members : ∀ p ∈ a.types, ∀ fs, p.2 = .ok fs → ∀ f ∈ fs, f.Named (some p.1)
  functions : ∀ f ∈ a.functions, f.Named none

theorem Account.Of.named {a : Account α} {t : Table α} (h : a.Of t) : a.Named where
  types := by
    intro p hp e he
    have hT := h.members p hp
    rw [he] at hT
    obtain ⟨e', he', rfl⟩ := hT
    exact (validateType_reported (some p.1) p.1 e' he').unlocated.locate none
  members := by
    intro p hp fs hfs
    have hT := h.members p hp
    rw [hfs] at hT
    obtain ⟨invariants, -, hcourse, -⟩ := hT
    exact hcourse.forall fun _ _ _ _ hstep => named_of_weaveCallable hstep
  functions := h.course.forall fun _ _ _ _ hstep => by
    obtain ⟨⟨o, registry⟩, hw, hstep⟩ := bind_eq_ok.mp hstep
    cases hstep
    exact named_of_weaveCallable hw

/-! ## What remains -/

/-- The account of what was not rejected. -/
def Account.kept (a : Account α) : Account α where
  types := a.types.filterMap fun p =>
    p.2.toOption.map fun fs =>
      ({ p.1 with callables := (Weaving.kept fs).map (·.declaration) }, .ok (Weaving.kept fs))
  functions := Weaving.kept a.functions

/-- Callables see no other callables of their type. -/
theorem memberStep_callables (T : TypeDecl α) (cs : List (Callable α))
    (invariants : List ParsedClause) :
    memberStep { T with callables := cs } invariants = memberStep T invariants := rfl

theorem TypeComesTo.kept {T : TypeDecl α} {fs : List (Fate α)} (h : TypeComesTo T (.ok fs)) :
    TypeComesTo { T with callables := (kept fs).map (·.declaration) } (.ok (kept fs)) := by
  obtain ⟨invariants, hinv, hcourse, -⟩ := h
  refine ⟨invariants, hinv, ?_, rfl⟩
  rw [memberStep_callables]
  exact hcourse.kept (memberStep_forgets T invariants)

/-- What was not rejected is all that comes of the rest of the table. -/
theorem Account.Of.kept {a : Account α} {t : Table α} (h : a.Of t) : a.kept.Of a.remainder where
  types := by
    unfold Account.kept Account.remainder
    rw [List.map_filterMap]
    congr 1
    funext p
    rw [Option.map_map]
    rfl
  members := by
    intro q hq
    obtain ⟨⟨T, fate⟩, hp, hq⟩ := List.mem_filterMap.mp hq
    have hT := h.members _ hp
    cases fate with
    | error e => exact nomatch hq
    | ok fs =>
        cases hq
        exact TypeComesTo.kept hT
  functions := rfl
  course := h.course.kept functionStep_forgets

theorem Account.kept_errors (a : Account α) : a.kept.outcomes.filterMap Outcome.error? = [] := by
  obtain ⟨types, functions⟩ := a
  unfold Account.outcomes
  rw [List.filterMap_append, List.append_eq_nil_iff]
  refine ⟨?_, outcomes_kept_errors functions⟩
  induction types with
  | nil => rfl
  | cons p types ih =>
      match p with
      | (T, .error e) => exact ih
      | (T, .ok fs) =>
          refine (List.filterMap_append ..).trans ?_
          rw [List.append_eq_nil_iff]
          exact ⟨outcomes_kept_errors fs, ih⟩

theorem Account.kept_descriptors (a : Account α) :
    a.kept.outcomes.filterMap Outcome.descriptor? =
      a.outcomes.filterMap Outcome.descriptor? := by
  obtain ⟨types, functions⟩ := a
  unfold Account.outcomes
  rw [List.filterMap_append, List.filterMap_append]
  refine congrArg₂ (· ++ ·) ?_ (outcomes_kept_descriptors functions)
  induction types with
  | nil => rfl
  | cons p types ih =>
      match p with
      | (T, .error e) => exact ih
      | (T, .ok fs) =>
          rw [List.flatMap_cons, List.filterMap_append, ← ih]
          refine (List.filterMap_append ..).trans ?_
          exact congrArg (· ++ _) (outcomes_kept_descriptors fs)

/-- **ISOLATION**: a woven table can be accounted for, declaration by declaration and by name;
    its errors are the carried ones and those of the account, its descriptors those of the
    account, both in the order of the declarations; and without the carried errors and
    everything that was rejected it weaves to the same descriptors and no errors. -/
theorem isolation {t : Table α} {r : Result α} (h : weave t = .ok r) :
    ∃ a : Account α, a.Of t ∧ a.Named ∧
      r.errors = t.errors ++ a.outcomes.filterMap Outcome.error? ∧
      r.descriptors = a.outcomes.filterMap Outcome.descriptor? ∧
      weave a.remainder = .ok { descriptors := r.descriptors, errors := [] } := by
  obtain ⟨a, ha, rfl⟩ := weave_eq_ok.1 h
  refine ⟨a, ha, ha.named, rfl, rfl, weave_eq_ok.2 ⟨a.kept, ha.kept, ?_⟩⟩
  have hresult : Result.ofOutcomes a.remainder.errors a.kept.outcomes =
      { descriptors := a.kept.outcomes.filterMap Outcome.descriptor?,
        errors := a.kept.outcomes.filterMap Outcome.error? } := rfl
  rw [hresult, a.kept_errors, a.kept_descriptors]
  rfl

/-- A ledger with a second method that is rejected, for its public name is taken, and a
    function that is rejected for its name. -/
def crowded : Table Value.Datum where
  types := [{ Demonstration.ledger with
    callables := Demonstration.ledger.callables ++
      [{ name := "__add", preconditions := [⟨"amount > 0", "amount must be positive"⟩] }] }]
  functions := [{
    name := "open", role := .function, preconditions := [⟨"amount > 0", "amount must be positive"⟩] }]

/-- Of the crowded ledger only the first method is woven, and the others are rejected by name. -/
theorem isolation_crowded : ∃ r, weave crowded = .ok r ∧
    r.descriptors.map (·.internalName) = ["_add"] ∧
    r.errors.map (fun e => (e.typeName, e.callableName)) =
      [(some "Ledger", some "__add"), (none, some "open")] ∧
    ∃ a : Account Value.Datum, a.Of crowded ∧ a.Named ∧
      weave a.remainder = .ok { descriptors := r.descriptors, errors := [] } := by
  have hwoven : (weave crowded).toOption.map (fun r => (r.descriptors.map (·.internalName),
      r.errors.map fun e => (e.typeName, e.callableName))) =
        some (["_add"], [(some "Ledger", some "__add"), (none, some "open")]) := by
    decide +kernel
  obtain ⟨r, hr, hseen⟩ := Option.map_eq_some_iff.mp hwoven
  obtain ⟨hdescriptors, herrors⟩ := Prod.mk.inj hseen
  obtain ⟨a, ha, hnamed, -, -, hremainder⟩ := isolation (toOption_eq_some.mp hr)
  exact ⟨r, toOption_eq_some.mp hr, hdescriptors, herrors, a, ha, hnamed, hremainder⟩

end Covenant.Weaving
