import Covenant.Machine.Call
import Covenant.Proofs.Condition.Insertion
import Covenant.Proofs.Declaration.Loading
import Covenant.Proofs.Machine.Wrapping
import Covenant.Proofs.Weaving.Captures
import Covenant.Proofs.Weaving.Isolation

/-! # Instances — which wrappers have one

    A callable states its role, and it stands in a type or outside of one.
    Clauses are rewritten for where it stands; whether the wrapper has an
    instance follows from the role.

    * Fields are captured, and `self` is inserted, in types only
      (`Describes.owned`).
    * The wrapper of a function runs without an instance and is emitted without
      a `self`; every other one asks for an instance and has a `self`
      (`alone_of_function`, `instanced_of_role`).
    * `instances_where_needed` joins them: where roles are those for the place,
      a wrapper that needs an instance has one. -/

namespace Covenant.Machine

open Covenant.Machine.Comp Declaration Wrapper

/-! ## Calls -/

/-- A wrapper that runs without an instance, whatever it is called with. -/
def RunsAlone (d : Descriptor Value) : Prop := ∀ host a implementation slots args kwargs,
  callWrapper host a d implementation slots args kwargs =
    if d.isAsync then make (.coroutine (.checked a none args kwargs) false)
    else runWrapper host d implementation slots none args kwargs

/-- A wrapper that is refused without an instance, and that runs with the one that it is called
    with, or with a new one of the class that it is called with. -/
structure AsksForInstance (d : Descriptor Value) : Prop where
  refuses : ∀ host a implementation slots kwargs,
    callWrapper host a d implementation slots [] kwargs = fail .wrongType
  runs : ∀ host a implementation slots v args kwargs, v.isNone = false →
    kwargs.lookup (if d.isFactory then "cls" else selfName) = none →
    callWrapper host a d implementation slots (v :: args) kwargs =
      if d.isFactory then do
        let made ← make (.record v [])
        runWrapper host d implementation slots (some made) args kwargs
      else if d.role = .constructor then do
        let _ ← runWrapper host d implementation slots (some v) args kwargs
        pure .none
      else if d.isAsync then make (.coroutine (.checked a (some v) args kwargs) false)
      else runWrapper host d implementation slots (some v) args kwargs

variable {d : Descriptor Value}

theorem runsAlone_of_function (hrole : d.role = .function) : RunsAlone d := by
  intro host a implementation slots args kwargs
  unfold callWrapper
  simp only [hrole]

theorem asksForInstance_of_role (hrole : d.role ≠ .function) : AsksForInstance d where
  refuses := by
    intro host a implementation slots kwargs
    unfold callWrapper
    cases hd : d.role with
    | function => exact absurd hd hrole
    | method => rfl
    | constructor => rfl
  runs := by
    intro host a implementation slots v args kwargs hv hkwargs
    have hinstance : instanceOf v = some v := if_neg (by rw [hv]; exact Bool.false_ne_true)
    have hfree : (kwargs.lookup (if d.isFactory then "cls" else selfName)).isSome = false := by
      rw [hkwargs]
      rfl
    unfold callWrapper
    cases hd : d.role with
    | function => exact absurd hd hrole
    | method => simp only [hfree, hinstance, Bool.false_eq_true, if_false]
    | constructor => simp only [hfree, hinstance, Bool.false_eq_true, if_false]

end Covenant.Machine

namespace Covenant.Weaving

open Condition Declaration Wrapper

variable {α : Type} {c : Callable α} {enclosing : Option (TypeDecl α)}
  {invariants : List ParsedClause} {v : Validated α} {d : Descriptor α}

/-! ## Need -/

/-- The names that rewriting inserts into clauses. -/
def insertedNames (s : Strategy) (qs : List ParsedClause) : List String :=
  qs.flatMap fun q => (insertions s s.shadowed [] q.tree).map (·.name)

/-- A wrapper needs an instance if it captures a field, or if `self` was inserted into one of its
    clauses. -/
inductive NeedsInstance (v : Validated α) (enclosing : Option (TypeDecl α)) (d : Descriptor α) :
    Prop where
  | captures (h : d.capturedFields ≠ [])
  | invariant (h : selfName ∈ insertedNames (invariantScope enclosing) v.invariants)
  | precondition (h : selfName ∈ insertedNames (callScope v.declaration enclosing) v.preconditions)
  | postcondition
      (h : selfName ∈ insertedNames (resultScope v.declaration enclosing) v.postconditions)

/-- Where `self` is inserted there are fields, and thus a type. -/
theorem exists_type_of_inserted {shadowed : List String} {qs : List ParsedClause}
    (h : selfName ∈ insertedNames (.memberScope (enclosedFields enclosing) shadowed) qs) :
    enclosing ≠ none := by
  rintro rfl
  obtain ⟨q, -, hq⟩ := List.mem_flatMap.mp h
  obtain ⟨i, hi, hname⟩ := List.mem_map.mp hq
  rcases name_of_mem_insertions _ _ _ i hi with ⟨-, hfields⟩ | ⟨hlookup, -⟩
  · exact hfields rfl
  · have hreserved : selfName ≠ lookupName := by decide
    exact hreserved (hname.symm.trans hlookup)

/-- **NEED**: only what stands in a type needs an instance. -/
theorem Describes.owned (ha : Accepts c enclosing invariants v) (hd : Describes v enclosing d)
    (h : NeedsInstance v enclosing d) : enclosing ≠ none := by
  cases h with
  | captures h =>
      obtain ⟨f, hf⟩ := List.exists_mem_of_ne_nil _ h
      obtain ⟨T, hT, -⟩ := hd.known ha f hf
      rw [hT]
      exact Option.some_ne_none T
  | invariant h => exact exists_type_of_inserted h
  | precondition h => exact exists_type_of_inserted h
  | postcondition h => exact exists_type_of_inserted h

/-! ## Emission -/

/-- The emitted definition has a `self`: its first parameter, or an instance that it makes. -/
def EmitsSelf (d : Descriptor Value.Datum) : Prop :=
  present d.signature.receiver = some selfName ∨ Statement.makeInstance ∈ d.body

theorem makeInstance_mem_body {d : Descriptor Value.Datum} :
    Statement.makeInstance ∈ d.body ↔ d.isFactory = true := by
  have hprotocol : Statement.makeInstance ∉ d.protocol := by
    intro h
    obtain ⟨step, -, hstep⟩ := List.mem_flatMap.mp h
    cases step with
    | checkInvariants => simp [Descriptor.statementsOf] at hstep
    | checkPreconditions => simp [Descriptor.statementsOf] at hstep
    | checkPostconditions => simp [Descriptor.statementsOf] at hstep
    | captureOld => simp [Descriptor.statementsOf] at hstep
    | invoke => simp [Descriptor.statementsOf] at hstep
    | answer =>
        rw [Descriptor.statementsOf] at hstep
        split_ifs at hstep <;> simp at hstep
  rw [Descriptor.body, List.mem_append, List.mem_append, or_iff_left hprotocol, or_iff_left]
  · cases d.isFactory <;> simp
  · intro h
    obtain ⟨p, -, hp⟩ := List.mem_map.mp h
    exact nomatch hp

/-! ## Roles -/

theorem receiver_of_describe (h : describe v enclosing = .ok d) :
    d.signature.receiver = receiverOf d.role d.publicName ∧
      d.publicName = publicName v.declaration.name d.role := by
  unfold describe at h
  obtain ⟨_, -, h⟩ := bind_eq_ok.mp h
  obtain ⟨_, -, h⟩ := bind_eq_ok.mp h
  obtain ⟨_, -, h⟩ := bind_eq_ok.mp h
  cases h
  exact ⟨rfl, rfl⟩

/-- A descriptor without an instance, when it is called and in the text. -/
structure Alone (d : Descriptor α) : Prop where
  called : ∀ g : α → Machine.Value, Machine.RunsAlone (d.map g)
  emitted : ∀ g : α → Value.Datum, ¬ EmitsSelf (d.map g)

/-- A descriptor with an instance, when it is called and in the text. -/
structure Instanced (d : Descriptor α) : Prop where
  called : ∀ g : α → Machine.Value, Machine.AsksForInstance (d.map g)
  emitted : ∀ g : α → Value.Datum, EmitsSelf (d.map g)

/-- **FUNCTIONS** have no instance, wherever they stand. -/
theorem alone_of_function (h : describe v enclosing = .ok d) (hrole : d.role = .function) :
    Alone d where
  called := fun g => Machine.runsAlone_of_function (d := d.map g) hrole
  emitted := by
    intro g hself
    obtain ⟨hreceiver, hname⟩ := receiver_of_describe h
    have hnone : d.signature.receiver = none := by
      rw [hreceiver, hname, hrole]
      exact Machine.receiverOf_function _
    rcases hself with hself | hmakes
    · have hreceiver' : (d.map g).signature.receiver = none := hnone
      rw [hreceiver'] at hself
      exact nomatch hself
    · have hfactory : d.isFactory = true := makeInstance_mem_body.1 hmakes
      rw [Descriptor.isFactory, hrole] at hfactory
      exact nomatch hfactory

/-- **METHODS AND CONSTRUCTORS** have an instance, wherever they stand. -/
theorem instanced_of_role (h : describe v enclosing = .ok d) (hrole : d.role ≠ .function) :
    Instanced d where
  called := fun g => Machine.asksForInstance_of_role (d := d.map g) hrole
  emitted := by
    intro g
    obtain ⟨hreceiver, -⟩ := receiver_of_describe h
    by_cases hself : d.role = .method ∨ d.publicName = publicInitializerName
    · refine .inl ?_
      have hreceiver' : (d.map g).signature.receiver = some selfName := by
        show d.signature.receiver = some selfName
        rw [hreceiver, receiverOf, if_pos hself]
      rw [hreceiver']
      rfl
    · -- a constructor under a name of its own makes its instance itself
      obtain ⟨hmethod, hname⟩ := not_or.mp hself
      refine .inr (makeInstance_mem_body.2 ?_)
      show d.isFactory = true
      have hconstructor : d.role = .constructor := by
        cases hd : d.role with
        | function => exact absurd hd hrole
        | method => exact absurd hd hmethod
        | constructor => rfl
      rw [Descriptor.isFactory, hconstructor, Bool.and_eq_true]
      exact ⟨rfl, bne_iff_ne.mpr hname⟩

/-! ## Tables -/

/-- How a descriptor comes to an instance: it has the role that its declaration states and the
    owner that it stands in; what needs an instance has an owner; and it has an instance exactly
    if it is no function. -/
structure Seated (v : Validated α) (enclosing : Option (TypeDecl α)) (d : Descriptor α) : Prop where
  role : d.role = v.declaration.role
  owner : d.owner = enclosing.map (·.name)
  owned : NeedsInstance v enclosing d → d.owner ≠ none
  alone : d.role = .function → Alone d
  instanced : d.role ≠ .function → Instanced d

theorem seated_of_describe (hv : validateCallable c enclosing invariants = .ok (some v))
    (hd : describe v enclosing = .ok d) : Seated v enclosing d where
  role := (describes_of_describe hd).role
  owner := (show Weaves c enclosing invariants d from ⟨v, hv, hd⟩).owner.1
  owned := by
    intro hneeds hnone
    rw [(show Weaves c enclosing invariants d from ⟨v, hv, hd⟩).owner.1,
      Option.map_eq_none_iff] at hnone
    exact (describes_of_describe hd).owned (accepts_of_validateCallable hv) hneeds hnone
  alone := alone_of_function hd
  instanced := instanced_of_role hd

/-- A callable that stands in a table whose roles are those for the place. -/
theorem Stands.role_iff {t : Table α} (h : Stands t c enclosing invariants) (ht : Aligned t) :
    c.role = .function ↔ enclosing = none := by
  cases h with
  | member hT hc =>
      exact iff_of_false (ht.members _ hT c hc) (Option.some_ne_none _)
  | function hc => exact iff_of_true (ht.functions c hc) rfl

/-- **INSTANCES WHERE THEY ARE NEEDED**: every descriptor of a woven table comes from a declaration
    of the table and has an instance exactly if this is no function, while only what stands in a
    type needs one.  If callables have the roles for where they stand, then exactly the functions
    have no owner, and every wrapper that needs an instance has one. -/
theorem instances_where_needed {t : Table α} {r : Result α} (h : weave t = .ok r) :
    ∀ d ∈ r.descriptors, ∃ c enclosing invariants v, Stands t c enclosing invariants ∧
      validateCallable c enclosing invariants = .ok (some v) ∧ describe v enclosing = .ok d ∧
      Seated v enclosing d ∧
      (Aligned t → (d.role = .function ↔ d.owner = none) ∧
        (NeedsInstance v enclosing d → Instanced d)) := by
  intro d hd
  obtain ⟨c, enclosing, invariants, hstands, v, hv, hdescribe⟩ := exists_of_mem_descriptors h hd
  have hseated := seated_of_describe hv hdescribe
  refine ⟨c, enclosing, invariants, v, hstands, hv, hdescribe, hseated, fun ht => ?_⟩
  have hiff : d.role = .function ↔ d.owner = none := by
    rw [hseated.role, (accepts_of_validateCallable hv).declaration, hseated.owner,
      Option.map_eq_none_iff]
    exact hstands.role_iff ht
  exact ⟨hiff, fun hneeds => hseated.instanced (mt hiff.mp (hseated.owned hneeds))⟩

/-- A document with a ledger and a callable of its that refers to the old total. -/
def ledgerWith (role : Role) : Document.Json := .obj [("types", .arr [.obj [
  ("name", .str "Ledger"), ("fields", .arr [.str "total"]),
  ("callables", .arr [.obj [("name", .str "_add"), ("role", .str role.text),
    ("parameters", .arr [.obj [("name", .str "amount")]]),
    ("postconditions", .obj [("total == old(total) + amount", .str "added")])]])]])]

/-- The roles, owners and captured fields of what is woven from a document, if nothing is rejected,
    with whether the roles in its table are those for the place. -/
def wovenRoles (j : Document.Json) : Option (Bool × List (Role × Option String × List String)) :=
  (Document.readTable [] j).toOption.bind fun t => (weave t).toOption.bind fun r =>
    if r.errors = [] then
      some (t.types.all (·.callables.all (·.role != .function)) && t.functions.all (·.role == .function),
        r.descriptors.map fun d => (d.role, d.owner, d.capturedFields))
    else none

theorem exists_of_wovenRoles {j : Document.Json} {aligned : Bool} {role : Role}
    {owner : Option String} {fields : List String}
    (h : wovenRoles j = some (aligned, [(role, owner, fields)])) : ∃ t r d,
      Document.readTable [] j = .ok t ∧ weave t = .ok r ∧ r.errors = [] ∧ r.descriptors = [d] ∧
      d.role = role ∧ d.owner = owner ∧ d.capturedFields = fields ∧ (aligned = true → Aligned t) := by
  obtain ⟨t, ht, h⟩ := Option.bind_eq_some_iff.mp h
  obtain ⟨r, hr, h⟩ := Option.bind_eq_some_iff.mp h
  obtain ⟨herrors, h⟩ := Option.ite_none_right_eq_some.mp h
  obtain ⟨haligned, hdescriptors⟩ := Prod.mk.inj (Option.some.inj h)
  obtain ⟨d, hd, hseen⟩ := List.map_eq_singleton_iff.mp hdescriptors
  obtain ⟨hrole, hseen⟩ := Prod.mk.inj hseen
  obtain ⟨howner, hfields⟩ := Prod.mk.inj hseen
  refine ⟨t, r, d, toOption_eq_some.mp ht, toOption_eq_some.mp hr, herrors, hd, hrole, howner,
    hfields, fun htrue => ?_⟩
  rw [htrue, Bool.and_eq_true, List.all_eq_true, List.all_eq_true] at haligned
  refine ⟨fun T hT c hc => ?_, fun f hf => beq_iff_eq.mp (haligned.2 f hf)⟩
  exact bne_iff_ne.mp (List.all_eq_true.mp (haligned.1 T hT) c hc)

/-- A method of the ledger captures the total and has an instance. -/
theorem instances_where_needed_ledger : ∃ t r d, Document.readTable [] (ledgerWith .method) = .ok t ∧
    weave t = .ok r ∧ r.descriptors = [d] ∧ d.capturedFields = ["total"] ∧ Instanced d := by
  obtain ⟨t, r, d, ht, hr, -, hds, -, -, hfields, haligned⟩ := exists_of_wovenRoles
    (show wovenRoles (ledgerWith .method) = some (true, [(.method, some "Ledger", ["total"])]) by
      decide +kernel)
  have hd : d ∈ r.descriptors := hds ▸ List.mem_singleton_self d
  obtain ⟨c, enclosing, invariants, v, -, -, -, -, hseated⟩ := instances_where_needed hr d hd
  have hneeds : NeedsInstance v enclosing d := .captures (hfields ▸ List.cons_ne_nil _ _)
  exact ⟨t, r, d, ht, hr, hds, hfields, (hseated (haligned rfl)).2 hneeds⟩

/-- As a function it is accepted, too: it captures the total of an instance that it has not got. -/
theorem instances_missing : ∃ t r d, Document.readTable [] (ledgerWith .function) = .ok t ∧
    weave t = .ok r ∧ r.errors = [] ∧ r.descriptors = [d] ∧ d.role = .function ∧
      d.owner = some "Ledger" ∧ d.capturedFields = ["total"] ∧ Alone d := by
  obtain ⟨t, r, d, ht, hr, herrors, hds, hrole, howner, hfields, -⟩ := exists_of_wovenRoles
    (show wovenRoles (ledgerWith .function)
      = some (false, [(.function, some "Ledger", ["total"])]) by decide +kernel)
  obtain ⟨c, enclosing, invariants, -, v, -, hdescribe⟩ :=
    exists_of_mem_descriptors hr (hds ▸ List.mem_singleton_self d)
  exact ⟨t, r, d, ht, hr, herrors, hds, hrole, howner, hfields, alone_of_function hdescribe hrole⟩

end Covenant.Weaving
