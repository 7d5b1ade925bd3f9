import Covenant.Proofs.Emission.Scopes
import Covenant.Proofs.Protocol.Emitted
import Covenant.Proofs.Weaving.Instances
import Covenant.Proofs.Weaving.Placement

/-! # Closure — whether emitted checks say what they say in memory

    A check that runs in memory and the same check in an emitted wrapper read
    their names in different places.

    * `Regular` is what the names of a woven descriptor are like
      (`regular_of_weave`).
    * What a run provides is in both places: the instance, the result, the
      captured values and the arguments (`found_self`, `found_result`,
      `found_lookup`, `found_argument`).
    * What a module provides need not be: `Survives` says which names stand for
      the same in both places, and `found_eq_seen_iff` that no others do.
    * `emission_closed_iff` puts this together for all woven tables. -/

namespace Covenant.Wrapper

open Condition Declaration Grammar Machine Signature Text Weaving Covenant.Tree
open Covenant.Value (Datum)

variable {d : Descriptor Datum} {ds : List (Descriptor Datum)} {x n : String}
  {before : List Statement} {kind : ViolationKind} {c : EnforcedClause} {s : Statement}
  {sourceModule : Option String} {globals : List String} {names : Names Origin}

/-! ## What comes before a check -/

/-- The statements in front of the steps. -/
def Descriptor.prologue (d : Descriptor Datum) : List Statement :=
  (if d.isFactory then [.makeInstance] else [])
    ++ d.signature.deferredDefaults.map (.resolveDefault ·.name)

theorem check_not_mem_prologue : .check kind c ∉ d.prologue := by
  rw [Descriptor.prologue, List.mem_append]
  rintro (h | h)
  · split_ifs at h
    · exact nomatch List.mem_singleton.mp h
    · exact nomatch h
  · obtain ⟨p, -, hp⟩ := List.mem_map.mp h
    exact nomatch hp

namespace ChecksBehind

variable (h : ChecksBehind d before kind c)
include h

theorem subset : ∀ s ∈ before, s ∈ d.body := by
  obtain ⟨after, hbody⟩ := h
  intro s hs
  rw [hbody]
  exact List.mem_append_left _ hs

/-- A check stands behind the prologue, among the steps. -/
theorem exists_steps : ∃ front after, before = d.prologue ++ front ∧
    d.protocol = front ++ .check kind c :: after := by
  obtain ⟨after, hbody⟩ := h
  have hparts : d.prologue ++ d.protocol = before ++ .check kind c :: after := hbody
  obtain ⟨front, hfront, hprotocol⟩ := exists_of_append_eq hparts check_not_mem_prologue
  exact ⟨front, after, hfront, hprotocol⟩

/-- A factory makes its instance first. -/
theorem makeInstance_mem (hfactory : d.isFactory = true) : .makeInstance ∈ before := by
  obtain ⟨front, -, rfl, -⟩ := h.exists_steps
  rw [Descriptor.prologue, if_pos hfactory]
  exact List.mem_cons_self

/-- A constructor checks nothing before it has called its implementation. -/
theorem invoke_mem_of_constructor (hrole : d.role = .constructor) : ∃ bind, .invoke bind ∈ before := by
  obtain ⟨front, after, rfl, hprotocol⟩ := h.exists_steps
  rw [d.protocol_of_constructor hrole] at hprotocol
  cases front with
  | nil => exact nomatch (List.cons.inj hprotocol).1
  | cons s front =>
      obtain ⟨rfl, -⟩ := List.cons.inj hprotocol
      exact ⟨_, List.mem_append_right _ List.mem_cons_self⟩

/-- A method or a function checks its postconditions behind the call of its implementation, and
    behind its store. -/
theorem mem_of_postcondition (hrole : d.role ≠ .constructor) (hkind : kind = .postcondition) :
    (∃ bind, .invoke bind ∈ before) ∧ (d.capturedFields ≠ [] → .openStore ∈ before) := by
  subst hkind
  obtain ⟨front, after, rfl, hprotocol⟩ := h.exists_steps
  rw [d.protocol_of_ne_constructor hrole] at hprotocol
  obtain ⟨front, rfl, hexit⟩ := exists_of_append_eq hprotocol (by
    rw [Descriptor.captureStatements]
    split_ifs <;> simp)
  cases front with
  | nil => cases (List.cons.inj hexit).1
  | cons s front =>
      obtain ⟨rfl, -⟩ := List.cons.inj hexit
      constructor
      · exact ⟨_, List.mem_append_right _ (List.mem_append_right _ List.mem_cons_self)⟩
      · intro hcaptured
        have hstore : .openStore ∈ d.captureStatements := by
          rw [Descriptor.captureStatements, if_neg (by simpa using hcaptured)]
          exact List.mem_cons_self
        exact List.mem_append_right _ (List.mem_append_left _ (List.mem_append_right _ hstore))

/-- A method or a function checks its preconditions before it calls its implementation. -/
theorem invoke_not_mem (hrole : d.role ≠ .constructor) (hkind : kind = .precondition) (bind : Bind) :
    .invoke bind ∉ before := by
  subst hkind
  obtain ⟨front, after, rfl, hprotocol⟩ := h.exists_steps
  rw [d.protocol_of_ne_constructor hrole] at hprotocol
  have hprologue : .invoke bind ∉ d.prologue := by
    rw [Descriptor.prologue]
    split_ifs <;> simp
  have hentry : .invoke bind ∉ d.invariants.map (Statement.check .invariant)
      ++ d.preconditions.map (.check .precondition) ++ d.captureStatements := by
    rw [Descriptor.captureStatements]
    split_ifs <;> simp
  rcases List.append_eq_append_iff.mp hprotocol with ⟨more, -, hexit⟩ | ⟨more, hfront, -⟩
  · -- behind the call there are no preconditions
    have hmem : Statement.check .precondition c ∈ more ++ .check .precondition c :: after :=
      List.mem_append_right _ List.mem_cons_self
    rw [← hexit] at hmem
    simp at hmem
  · rw [List.mem_append]
    rintro (hmem | hmem)
    · exact hprologue hmem
    · refine hentry ?_
      rw [hfront]
      exact List.mem_append_left _ hmem

end ChecksBehind

/-- The clauses that are checked as some kind. -/
def Descriptor.clausesOf (d : Descriptor Datum) : ViolationKind → List EnforcedClause
  | .invariant => d.invariants
  | .precondition => d.preconditions
  | .postcondition => d.postconditions

/-- What the steps check and what they bind the result to. -/
def Descriptor.Keeps (d : Descriptor Datum) : Statement → Prop
  | .check kind c => c ∈ d.clausesOf kind
  | .invoke bind => bind.origin = d.answer
  | _ => True

theorem keeps_of_mem_protocol (h : s ∈ d.protocol) : d.Keeps s := by
  obtain ⟨step, -, hs⟩ := List.mem_flatMap.mp h
  cases step with
  | checkInvariants | checkPreconditions | checkPostconditions =>
      obtain ⟨c, hc, rfl⟩ := List.mem_map.mp hs
      exact hc
  | captureOld =>
      rcases List.mem_cons.mp hs with rfl | hs
      · trivial
      · obtain ⟨f, -, rfl⟩ := List.mem_map.mp hs
        trivial
  | invoke =>
      obtain rfl := List.mem_singleton.mp hs
      show Bind.origin _ = d.answer
      rw [Descriptor.answer]
      split_ifs <;> rfl
  | answer =>
      rw [Descriptor.statementsOf] at hs
      split_ifs at hs
      · obtain rfl := List.mem_singleton.mp hs
        trivial
      · cases hs
      · obtain rfl := List.mem_singleton.mp hs
        trivial

theorem keeps_of_mem_body (h : s ∈ d.body) : d.Keeps s := by
  rcases List.mem_append.mp h with h | h
  · rcases List.mem_append.mp h with h | h
    · split_ifs at h
      · obtain rfl := List.mem_singleton.mp h
        trivial
      · exact nomatch h
    · obtain ⟨p, -, rfl⟩ := List.mem_map.mp h
      trivial
  · exact keeps_of_mem_protocol h

/-! ## Variables -/

/-- What a variable stands for that a body gives a value to. -/
def Descriptor.given (d : Descriptor Datum) (n : String) : Origin :=
  if n = selfName then .receiver else if n = lookupName then .captures else d.answer

theorem eq_given_of_mem_assigns (hs : s ∈ d.body) {p : String × Origin} (hp : p ∈ s.assigns) :
    p.2 = d.given p.1 := by
  cases s with
  | makeInstance =>
      obtain rfl := List.mem_singleton.mp hp
      rfl
  | openStore =>
      obtain rfl := List.mem_singleton.mp hp
      rfl
  | invoke bind =>
      obtain rfl := List.mem_singleton.mp hp
      exact keeps_of_mem_body hs
  | _ => exact nomatch hp

/-- Where all values of a name are one, and there is some, it is found. -/
theorem lookup_eq_of_forall {β : Type} {ps : Names β} {v : β} (hn : n ∈ ps.map (·.1))
    (h : ∀ p ∈ ps, p.1 = n → p.2 = v) : ps.lookup n = some v := by
  induction ps with
  | nil => exact nomatch hn
  | cons p ps ih =>
      rw [List.forall_mem_cons] at h
      rw [List.lookup_cons]
      by_cases hp : p.1 = n
      · rw [← hp, beq_self_eq_true, h.1 hp]
      · rw [beq_false_of_ne (Ne.symm hp)]
        exact ih ((List.mem_cons.mp hn).resolve_left (Ne.symm hp)) h.2

/-- A variable that the body has given a value to stands for this. -/
theorem lookup_held_of_assigned (h : ChecksBehind d before kind c) (hs : s ∈ before)
    (hn : n ∈ s.assigns.map (·.1)) : (d.held before).lookup n = some (d.given n) := by
  have hmem : n ∈ (before.flatMap Statement.assigns).reverse.map (·.1) := by
    rw [List.map_reverse, List.mem_reverse, List.map_flatMap]
    exact List.mem_flatMap.mpr ⟨s, hs, hn⟩
  have hgiven : (before.flatMap Statement.assigns).reverse.lookup n = some (d.given n) := by
    refine lookup_eq_of_forall hmem fun p hp hpn => ?_
    obtain ⟨s, hs, hp⟩ := List.mem_flatMap.mp (List.mem_reverse.mp hp)
    rw [← hpn]
    exact eq_given_of_mem_assigns (h.subset s hs) hp
  rw [Descriptor.held, lookup_append, hgiven, Option.some_or]

/-- A variable that the body has given no value to is a parameter. -/
theorem lookup_held_of_unassigned (h : ∀ s ∈ before, n ∉ s.assigns.map (·.1)) :
    (d.held before).lookup n = d.parameterVariables.lookup n := by
  have hnone : (before.flatMap Statement.assigns).reverse.lookup n = none := by
    rw [lookup_eq_none_iff_not_mem, List.map_reverse, List.mem_reverse, List.map_flatMap]
    intro hmem
    obtain ⟨s, hs, hn⟩ := List.mem_flatMap.mp hmem
    exact h s hs hn
  rw [Descriptor.held, lookup_append, hnone, Option.none_or]

/-- The parameters are stored under names of their own, as they have to be. -/
def Descriptor.Apart (d : Descriptor Datum) : Prop := (d.declaredNames.map d.scopeName).Nodup

instance (d : Descriptor Datum) : Decidable d.Apart := inferInstanceAs (Decidable (List.Nodup _))

/-- A parameter stands for its argument. -/
theorem lookup_parameter (hapart : d.Apart) (hx : x ∈ d.parameterNames) :
    d.parameterVariables.lookup (d.scopeName x) = some (.argument x) := by
  obtain ⟨p, hp, rfl⟩ := List.mem_map.mp hx
  have hkeys : (d.parameterVariables.map Prod.fst).Nodup := by
    rw [show d.parameterVariables.map Prod.fst = _ from keys_parameterVariables d]
    exact hapart
  have hmem : (d.scopeName p.name, Origin.argument p.name) ∈ d.parameterVariables :=
    List.mem_append_right _ (List.mem_map_of_mem hp)
  exact lookup_eq_some_of_mem hkeys hmem

/-- The receiver of a method or of an initializer stands for the instance. -/
theorem lookup_receiver (h : present d.signature.receiver = some selfName) :
    d.parameterVariables.lookup selfName = some .receiver := by
  have hself : d.scopeName selfName = selfName := (privateName_eq_iff unmarked_self).mpr rfl
  rw [Descriptor.parameterVariables, h, Option.toList_some, List.map_singleton, hself, if_pos rfl,
    List.singleton_append, List.lookup_cons_self]

/-! ## Woven descriptors -/

/-- What the names of a woven descriptor are like. -/
structure Regular (d : Descriptor Datum) : Prop where
  instanced : d.role ≠ .function → EmitsSelf d
  lookupFree : lookupName ∉ d.parameterNames
  stored : ∀ kind, ∀ c ∈ d.clausesOf kind, IsFree c.tree lookupName →
    kind = .postcondition ∧ d.role ≠ .constructor ∧ d.capturedFields ≠ []

theorem signature_of_describe {v : Validated Datum} {enclosing : Option (TypeDecl Datum)}
    (h : describe v enclosing = .ok d) : d.signature = reconstruct v.declaration.parameters
      v.declaration.typeParameters (receiverOf d.role d.publicName) := by
  unfold describe at h
  obtain ⟨_, -, h⟩ := bind_eq_ok.mp h
  obtain ⟨_, -, h⟩ := bind_eq_ok.mp h
  obtain ⟨_, -, h⟩ := bind_eq_ok.mp h
  cases h
  rfl

theorem mem_parameterNames_of_describe {v : Validated Datum}
    {enclosing : Option (TypeDecl Datum)} (h : describe v enclosing = .ok d) :
    x ∈ d.parameterNames ↔ x ∈ v.declaration.parameterNames := by
  rw [Descriptor.parameterNames, signature_of_describe h, reconstruct, Callable.parameterNames]
  simp only [List.mem_map, List.mem_mergeSort]

/-- A clause whose own tree does not read the store and that reads it when it is enforced has a
    call of `old`. -/
theorem exists_old_of_enforce {fields shadowed : List String} {q : ParsedClause}
    {e : EnforcedClause} (hunread : lookupName ∉ loadedNames q.tree)
    (h : enforce (.memberScope fields shadowed) q = .ok e) (hfree : IsFree e.tree lookupName) :
    ∃ n ∈ q.tree.nodes, isOldCall n = true := by
  rw [(enforces_of_enforce h).tree] at hfree
  have hreserved : selfName ≠ lookupName := by decide
  refine exists_old_of_isFree (s := .memberScope fields shadowed) hreserved (fun span hmem => ?_)
    hfree
  exact hunread (mem_loadedNames.mpr ⟨span, hmem⟩)

/-- **WOVEN DESCRIPTORS** are regular. -/
theorem regular_of_weave {t : Table Datum} {r : Result Datum} (h : weave t = .ok r)
    (hd : d ∈ r.descriptors) : Regular d := by
  obtain ⟨callable, enclosing, invariants, hstands, v, hv, hdescribe⟩ := exists_of_mem_descriptors h hd
  have ha := accepts_of_validateCallable hv
  have hdesc := describes_of_describe hdescribe
  refine ⟨fun hrole => ?_, fun hmem => ?_, fun kind c hc hfree => ?_⟩
  · rcases (instanced_of_role hdescribe hrole).emitted id with hself | hmakes
    · exact .inl hself
    · have hfactory : (d.map id).isFactory = true := makeInstance_mem_body.mp hmakes
      exact .inr (makeInstance_mem_body.mpr hfactory)
  · rw [mem_parameterNames_of_describe hdescribe, ha.declaration] at hmem
    exact (placementFault?_eq_none.mp ha.placed).lookupFree hmem
  · have henclosing : ∀ T, enclosing = some T → validateType T = .ok invariants := by
      rintro T rfl
      cases hstands with
      | member _ _ hinvariants => exact hinvariants
    cases kind with
    | invariant =>
        obtain ⟨q, hq, hqc⟩ := exists_of_forall₂_right hdesc.invariants c hc
        have htimeless := ha.timeless_invariants henclosing q hq
        obtain ⟨n, hn, hold⟩ := exists_old_of_enforce htimeless.unread hqc hfree
        exact absurd hold (htimeless.not_isOldCall n hn)
    | precondition =>
        obtain ⟨q, hq, hqc⟩ := exists_of_forall₂_right hdesc.preconditions c hc
        have htimeless := ha.timeless_preconditions q hq
        obtain ⟨n, hn, hold⟩ := exists_old_of_enforce htimeless.unread hqc hfree
        exact absurd hold (htimeless.not_isOldCall n hn)
    | postcondition =>
        obtain ⟨q, hq, hqc⟩ := exists_of_forall₂_right hdesc.postconditions c hc
        have hrefers := ha.refers hq
        obtain ⟨n, hn, hold⟩ := exists_old_of_enforce hrefers.unread hqc hfree
        obtain ⟨reference, hreference⟩ := (references_eq_ok hrefers.found).2 n hn hold
        have hcall : reference ∈ oldCalls selfName q.tree :=
          List.mem_filterMap.mpr ⟨n, hn, hreference⟩
        obtain ⟨i, hi⟩ := List.getElem?_of_mem (List.mem_map_of_mem (f := (·.tree)) hq)
        have hcaptured : reference.field ∈ d.capturedFields :=
          ((hdesc.occurrences ha).1 _).mpr ⟨i, reference, ⟨q.tree, hi, hcall⟩, rfl⟩
        refine ⟨rfl, fun hrole => ?_, List.ne_nil_of_mem hcaptured⟩
        rw [hdesc.capturedFields_of_constructor ha hrole] at hcaptured
        exact nomatch hcaptured

/-! ## What a run provides -/

/-- No check of the wrapper assigns a value to a name. -/
def Descriptor.Spares (d : Descriptor Datum) (x : String) : Prop :=
  d.scopeName x ∉ d.assigned.map d.scopeName

theorem found_of_held (hspared : d.Spares x) {o : Origin}
    (ho : (d.held before).lookup (d.scopeName x) = some o) : d.found names before x = o := by
  have hmeaning : d.meaning? before (d.scopeName x) = some o := by
    rw [Descriptor.meaning?, if_neg hspared, ho]
  rw [Descriptor.found, hmeaning]

section Provided

variable (h : ChecksBehind d before kind c) (hspared : d.Spares x)
include h hspared

/-- Behind the call of the implementation there is a result. -/
theorem found_result (hx : x = resultName) (hcalled : d.role = .constructor ∨ kind = .postcondition) :
    d.found names before x = d.answer := by
  subst hx
  obtain ⟨bind, hbind⟩ : ∃ bind, .invoke bind ∈ before := by
    by_cases hrole : d.role = .constructor
    · exact h.invoke_mem_of_constructor hrole
    · exact (h.mem_of_postcondition hrole (hcalled.resolve_left hrole)).1
  refine found_of_held hspared ?_
  rw [Descriptor.scopeName, (privateName_eq_iff unmarked_result).mpr rfl]
  exact lookup_held_of_assigned h hbind List.mem_cons_self

/-- A postcondition that reads the store stands behind it. -/
theorem found_lookup (hd : Regular d) (hx : x = lookupName) (hfree : IsFree c.tree x)
    (hkind : kind = .postcondition) : d.found names before x = .captures := by
  subst hx
  have hc : c ∈ d.clausesOf kind := by
    obtain ⟨after, hbody⟩ := h
    exact keeps_of_mem_body (hbody ▸ List.mem_append_right before List.mem_cons_self)
  obtain ⟨-, hrole, hcaptured⟩ := hd.stored kind c hc hfree
  have hstore := (h.mem_of_postcondition hrole hkind).2 hcaptured
  refine found_of_held hspared ?_
  rw [Descriptor.scopeName, (privateName_eq_iff unmarked_lookup).mpr rfl]
  exact lookup_held_of_assigned h hstore List.mem_cons_self

/-- A method or a constructor has its instance. -/
theorem found_self (hd : Regular d) (hx : x = selfName) (hrole : d.role ≠ .function) :
    d.found names before x = .receiver := by
  subst hx
  refine found_of_held hspared ?_
  rw [Descriptor.scopeName, (privateName_eq_iff unmarked_self).mpr rfl]
  by_cases hfactory : d.isFactory = true
  · exact lookup_held_of_assigned h (h.makeInstance_mem hfactory) List.mem_cons_self
  · -- the instance is the first parameter, and nothing is assigned to it
    have hmakes : .makeInstance ∉ d.body := mt makeInstance_mem_body.mp hfactory
    have hfree : ∀ s ∈ before, selfName ∉ s.assigns.map (·.1) := by
      intro s hs hmem
      cases s with
      | makeInstance => exact hmakes (h.subset _ hs)
      | openStore =>
          have hname : selfName = lookupName := List.mem_singleton.mp hmem
          exact absurd hname (by decide)
      | invoke bind =>
          have hname : selfName = resultName := List.mem_singleton.mp hmem
          exact absurd hname (by decide)
      | _ => exact nomatch hmem
    rw [lookup_held_of_unassigned hfree]
    exact lookup_receiver ((hd.instanced hrole).resolve_right hmakes)

/-- A parameter stands for its argument, unless the instance or the result has its name. -/
theorem found_argument (hd : Regular d) (hapart : d.Apart) (hx : x ∈ d.parameterNames)
    (hself : ¬ (d.role ≠ .function ∧ x = selfName))
    (hresult : x = resultName → d.role ≠ .constructor ∧ kind = .precondition) :
    d.found names before x = .argument x := by
  refine found_of_held hspared ?_
  have hfree : ∀ s ∈ before, d.scopeName x ∉ s.assigns.map (·.1) := by
    intro s hs hmem
    cases s with
    | makeInstance =>
        have hname : x = selfName := (privateName_eq_iff unmarked_self).mp (List.mem_singleton.mp hmem)
        have hfactory : d.isFactory = true := makeInstance_mem_body.mp (h.subset _ hs)
        refine hself ⟨fun hrole => ?_, hname⟩
        rw [Descriptor.isFactory, hrole] at hfactory
        cases hfactory
    | openStore =>
        have hname : x = lookupName :=
          (privateName_eq_iff unmarked_lookup).mp (List.mem_singleton.mp hmem)
        exact hd.lookupFree (hname ▸ hx)
    | invoke bind =>
        have hname : x = resultName :=
          (privateName_eq_iff unmarked_result).mp (List.mem_singleton.mp hmem)
        obtain ⟨hrole, hkind⟩ := hresult hname
        exact h.invoke_not_mem hrole hkind bind hs
    | _ => cases hmem
  rw [lookup_held_of_unassigned hfree]
  exact lookup_parameter hapart hx

end Provided

/-! ## What a module provides -/

/-- Whether something belongs to no wrapper. -/
def Origin.isOuter : Origin → Bool
  | .global _ | .builtin _ | .unknown => true
  | _ => false

theorem isOuter_inModule (globals : List String) (x : String) :
    (inModule (globals.map fun g => (g, .global g)) x).isOuter = true := by
  rw [inModule, lookup_map_self]
  split_ifs <;> rfl

theorem isOuter_of_mem_held {p : String × Origin} (hp : p ∈ d.held before) : p.2.isOuter = false := by
  rcases List.mem_append.mp hp with hp | hp
  · obtain ⟨s, -, hp⟩ := List.mem_flatMap.mp (List.mem_reverse.mp hp)
    cases s with
    | makeInstance | openStore =>
        obtain rfl := List.mem_singleton.mp hp
        rfl
    | invoke bind =>
        obtain rfl := List.mem_singleton.mp hp
        cases bind <;> rfl
    | _ => exact nomatch hp
  · rcases List.mem_append.mp hp with hp | hp
    · obtain ⟨r, -, rfl⟩ := List.mem_map.mp hp
      dsimp only
      split_ifs <;> rfl
    · obtain ⟨p, -, rfl⟩ := List.mem_map.mp hp
      rfl

theorem isOuter_of_meaning? {o : Origin} (ho : d.meaning? before n = some o) : o.isOuter = false := by
  rw [Descriptor.meaning?] at ho
  split_ifs at ho
  · obtain rfl := Option.some.inj ho
    rfl
  · obtain ⟨front, back, hheld, -⟩ := List.lookup_eq_some_iff.mp ho
    have hmem : (n, o) ∈ d.held before := hheld ▸ List.mem_append_right front List.mem_cons_self
    exact isOuter_of_mem_held hmem

/-- Where a name is hidden, it stands for nothing of a module. -/
theorem isOuter_found_of_hidden (hx : d.scopeName x ∈ d.hidingNames) :
    (d.found names before x).isOuter = false := by
  rw [Descriptor.found]
  cases hmeaning : d.meaning? before (d.scopeName x) with
  | some o => exact isOuter_of_meaning? hmeaning
  | none =>
      dsimp only
      split_ifs with hlocal hclass
      · rfl
      · rfl
      · exact absurd ((List.mem_append.mp hx).resolve_left hlocal) hclass

/-- Where it is not, it stands for what the module says. -/
theorem found_of_not_hidden (h : ChecksBehind d before kind c) (hx : d.scopeName x ∉ d.hidingNames) :
    d.found names before x = inModule names (d.scopeName x) := by
  obtain ⟨after, hbody⟩ := h
  obtain ⟨hlocal, hclass⟩ := not_or.mp (mt List.mem_append.mpr hx)
  have hmeaning : d.meaning? before (d.scopeName x) = none := by
    cases hmeaning : d.meaning? before (d.scopeName x) with
    | none => rfl
    | some o => exact absurd (mem_localVariables_of_meaning? hbody hmeaning) hlocal
  rw [Descriptor.found, hmeaning]
  dsimp only
  rw [if_neg hlocal, if_neg hclass]

/-! ## In both places -/

/-- Whether a name that stands for something in memory stands for the same in an emitted check.
    What a run provides does so unless a check assigns another value to the name, or it is an
    argument of the name of the result that a constructor has answered with.  What a module
    provides does so where nothing hides it and the emitted module has it, or does not have it
    either. -/
def Descriptor.Survives (d : Descriptor Datum) (ds : List (Descriptor Datum))
    (sourceModule : Option String) (kind : ViolationKind) (x : String) : Origin → Prop
  | .global _ => d.scopeName x = x ∧ x ∉ d.hidingNames ∧ x ∉ moduleNames ds ∧
      x ∈ importedNames (sourceImports ds sourceModule)
  | .builtin _ | .unknown => d.scopeName x ∉ d.hidingNames ∧
      d.scopeName x ∉ (moduleOrigins ds sourceModule).map (·.1)
  | _ => d.Spares x ∧ ¬ (kind = .precondition ∧ d.role = .constructor ∧ x = resultName)

instance (d : Descriptor Datum) (x : String) : Decidable (d.Spares x) :=
  inferInstanceAs (Decidable (_ ∉ _))

instance (d : Descriptor Datum) (ds : List (Descriptor Datum)) (sourceModule : Option String)
    (kind : ViolationKind) (x : String) : (o : Origin) → Decidable (d.Survives ds sourceModule kind x o)
  | .global _ => inferInstanceAs (Decidable (_ = _ ∧ _ ∉ _ ∧ _ ∉ _ ∧ _ ∈ _))
  | .builtin _ | .unknown => inferInstanceAs (Decidable (_ ∉ _ ∧ _ ∉ _))
  | .receiver | .result | .captures | .argument _ | .emitted _ | .assigned _ | .unset =>
      inferInstanceAs (Decidable (d.Spares x ∧ ¬ (_ = _ ∧ _ = _ ∧ _ = _)))

theorem found_of_not_spares (h : ¬ d.Spares x) :
    d.found names before x = .assigned (d.scopeName x) := by
  rw [Descriptor.found, Descriptor.meaning?, if_pos (not_not.mp h)]

/-- A name that is known everywhere is stored for itself only. -/
theorem scopeName_eq_iff_of_builtin (hn : (builtinNames.lookup n).isSome = true) :
    d.scopeName x = n ↔ x = n := by
  obtain ⟨v, hv⟩ := Option.isSome_iff_exists.mp hn
  obtain ⟨front, back, hnames, -⟩ := List.lookup_eq_some_iff.mp hv
  have hmem : (n, v) ∈ builtinNames := hnames ▸ List.mem_append_right front List.mem_cons_self
  exact privateName_eq_iff (unmarked_builtin (n, v) hmem)

/-- A name that is known everywhere or nowhere stands for the same where the emitted module does not
    have it. -/
theorem inModule_moduleOrigins_iff (hx : x ∉ globals) :
    inModule (moduleOrigins ds sourceModule) (d.scopeName x)
        = inModule (globals.map fun g => (g, .global g)) x ↔
      d.scopeName x ∉ (moduleOrigins ds sourceModule).map (·.1) := by
  have hglobals : (globals.map fun g => (g, Origin.global g)).lookup x = none := by
    rw [lookup_map_self, if_neg hx]
  rw [inModule, inModule, hglobals, ← lookup_eq_none_iff_not_mem]
  cases ho : (moduleOrigins ds sourceModule).lookup (d.scopeName x) with
  | some o =>
      refine iff_of_false (fun heq => ?_) (Option.some_ne_none o)
      rw [lookup_moduleOrigins] at ho
      dsimp only at heq
      subst heq
      split_ifs at ho <;> cases Option.some.inj ho
  | none =>
      refine iff_of_true ?_ rfl
      dsimp only
      by_cases hb : (builtinNames.lookup x).isSome = true
      · rw [(scopeName_eq_iff_of_builtin hb).mpr rfl, if_pos hb]
      · have hstored : ¬ (builtinNames.lookup (d.scopeName x)).isSome = true := by
          intro hb'
          rw [← (scopeName_eq_iff_of_builtin hb').mp rfl] at hb'
          exact hb hb'
        rw [if_neg hb, if_neg hstored]

/-- **NAMES OF MODULES** are kept exactly where they are seen and available. -/
theorem found_eq_inModule_iff (h : ChecksBehind d before kind c) :
    d.found (moduleOrigins ds sourceModule) before x
        = inModule (globals.map fun g => (g, .global g)) x ↔
      d.Survives ds sourceModule kind x (inModule (globals.map fun g => (g, .global g)) x) := by
  have hmodule : inModule (globals.map fun g => (g, .global g)) x
      = if x ∈ globals then .global x
        else if (builtinNames.lookup x).isSome then .builtin x else .unknown := by
    rw [inModule, lookup_map_self]
    split_ifs <;> rfl
  by_cases hhidden : d.scopeName x ∈ d.hidingNames
  · refine iff_of_false (fun heq => ?_) ?_
    · have houter := isOuter_inModule globals x
      rw [← heq, isOuter_found_of_hidden hhidden] at houter
      exact Bool.false_ne_true houter
    · rw [hmodule]
      split_ifs
      · rintro ⟨hname, hnot, -⟩
        exact hnot (hname ▸ hhidden)
      · exact fun hsurvives => hsurvives.1 hhidden
      · exact fun hsurvives => hsurvives.1 hhidden
  rw [found_of_not_hidden h hhidden]
  by_cases hx : x ∈ globals
  · rw [hmodule, if_pos hx, inModule, lookup_moduleOrigins]
    show _ ↔ d.scopeName x = x ∧ x ∉ d.hidingNames ∧ x ∉ moduleNames ds ∧
      x ∈ importedNames (sourceImports ds sourceModule)
    by_cases hname : d.scopeName x = x
    · rw [hname] at hhidden ⊢
      split_ifs with hown himported hgiven <;> simp_all
    · refine iff_of_false (fun heq => ?_) fun hsurvives => hname hsurvives.1
      split_ifs at heq <;> simp_all
  · rw [inModule_moduleOrigins_iff hx, hmodule, if_neg hx]
    split_ifs
    · exact ⟨fun hnot => ⟨hhidden, hnot⟩, And.right⟩
    · exact ⟨fun hnot => ⟨hhidden, hnot⟩, And.right⟩

theorem not_precondition {p : Prop} (hkind : kind = .postcondition) :
    ¬ (kind = .precondition ∧ p) := by
  rintro ⟨rfl, -⟩
  cases hkind

/-- **WHAT A NAME STANDS FOR** where a check is emitted is what it stands for in memory exactly if
    it survives. -/
theorem found_eq_seen_iff (hd : Regular d) (hapart : d.Apart) (h : ChecksBehind d before kind c)
    (hfree : IsFree c.tree x) :
    d.found (moduleOrigins ds sourceModule) before x = d.seen kind globals x ↔
      d.Survives ds sourceModule kind x (d.seen kind globals x) := by
  -- what a check assigns to a name is none of what a run provides
  have hprovided {o : Origin} (hnot : ∀ n, Origin.assigned n ≠ o)
      (hfound : d.Spares x → (d.found (moduleOrigins ds sourceModule) before x = o ↔
        ¬ (kind = .precondition ∧ d.role = .constructor ∧ x = resultName))) :
      d.found (moduleOrigins ds sourceModule) before x = o ↔
        d.Spares x ∧ ¬ (kind = .precondition ∧ d.role = .constructor ∧ x = resultName) := by
    by_cases hspared : d.Spares x
    · rw [hfound hspared, and_iff_right hspared]
    · rw [found_of_not_spares hspared]
      exact iff_of_false (hnot _) fun hboth => hspared hboth.1
  rw [Descriptor.seen]
  by_cases hcaptures : kind = .postcondition ∧ x = lookupName
  · obtain ⟨hkind, hname⟩ := hcaptures
    rw [if_pos ⟨hkind, hname⟩]
    refine hprovided (by rintro _ ⟨⟩) fun hspared => iff_of_true ?_ ?_
    · exact found_lookup h hspared hd hname hfree hkind
    · exact not_precondition hkind
  rw [if_neg hcaptures]
  by_cases hresult : kind = .postcondition ∧ x = resultName
  · obtain ⟨hkind, hname⟩ := hresult
    rw [if_pos ⟨hkind, hname⟩]
    have hpre : ¬ (kind = .precondition ∧ d.role = .constructor ∧ x = resultName) :=
      not_precondition hkind
    have hfound (hspared : d.Spares x) : d.found (moduleOrigins ds sourceModule) before x = d.answer :=
      found_result h hspared hname (.inr hkind)
    rw [Descriptor.answer] at hfound ⊢
    split_ifs at hfound ⊢
    · exact hprovided (by rintro _ ⟨⟩) fun hspared => iff_of_true (hfound hspared) hpre
    · exact hprovided (by rintro _ ⟨⟩) fun hspared => iff_of_true (hfound hspared) hpre
  rw [if_neg hresult]
  by_cases hself : d.role ≠ .function ∧ x = selfName
  · rw [if_pos hself]
    refine hprovided (by rintro _ ⟨⟩) fun hspared => iff_of_true ?_ ?_
    · exact found_self h hspared hd hself.2 hself.1
    · rintro ⟨-, -, hname⟩
      exact absurd (hself.2.symm.trans hname) (by decide)
  rw [if_neg hself]
  by_cases hx : kind ≠ .invariant ∧ x ∈ d.parameterNames
  · rw [if_pos hx]
    refine hprovided (by rintro _ ⟨⟩) fun hspared => ?_
    by_cases hpre : kind = .precondition ∧ d.role = .constructor ∧ x = resultName
    · -- the constructor has answered before
      rw [found_result h hspared hpre.2.2 (.inl hpre.2.1), Descriptor.answer, if_pos hpre.2.1]
      exact iff_of_false (by rintro ⟨⟩) fun hnot => hnot hpre
    · refine iff_of_true (found_argument h hspared hd hapart hx.2 hself fun hname => ?_) hpre
      cases kind with
      | invariant => exact absurd rfl hx.1
      | postcondition => exact absurd ⟨rfl, hname⟩ hresult
      | precondition => exact ⟨fun hrole => hpre ⟨rfl, hrole, hname⟩, rfl⟩
  · rw [if_neg hx]
    exact found_eq_inModule_iff h

/-! ## Modules -/

theorem seen_map (d : Descriptor Datum) (g : Datum → Value) : (d.map g).seen = d.seen := by
  have hnames : (d.map g).parameterNames = d.parameterNames := by
    rw [Descriptor.parameterNames, Descriptor.parameterNames]
    exact List.map_map ..
  funext kind globals x
  rw [Descriptor.seen, Descriptor.seen, hnames]
  rfl

/-- The checks of a descriptor, in memory and emitted: the machine answers with the values of what
    their names stand for, in both places, and these are the same exactly for the names that
    survive. -/
structure Resolved (ds : List (Descriptor Datum)) (d : Descriptor Datum) : Prop where
  seen : ∀ g : Datum → Value, SeenInMemory (d.map g) ∧ (d.map g).seen = d.seen
  found : ∀ before kind c, ChecksBehind d before kind c → ∀ sourceModule,
    FoundInScope d (moduleOrigins ds sourceModule) before
  same : d.Apart → ∀ before kind c, ChecksBehind d before kind c → ∀ x, IsFree c.tree x →
    ∀ sourceModule globals,
      (d.found (moduleOrigins ds sourceModule) before x = d.seen kind globals x ↔
        d.Survives ds sourceModule kind x (d.seen kind globals x))

/-- **CLOSURE**: at every check of a woven descriptor, a free name stands in memory for what the
    run and the module of the implementation give it, where it is emitted for what the wrapper and
    the emitted module give it, and for the same in both exactly if it survives.  A module that can
    be emitted is read as a program in which the wrappers have these variables, and the module
    these names. -/
theorem emission_closed_iff {t : Table Datum} {r : Result Datum} (h : weave t = .ok r) :
    (∀ d ∈ r.descriptors, Resolved r.descriptors d) ∧
      ∀ sourceModule, (∀ d ∈ r.descriptors, Emittable d) →
        (∀ m ∈ present sourceModule, IsModuleName m) →
        ∃ text ss, renderModule r.descriptors sourceModule = .ok text ∧
          readProgram? text.toList = some ss ∧ ScopesOf r.descriptors sourceModule ss := by
  refine ⟨fun d hd => ⟨fun g => ⟨seenInMemory _, seen_map d g⟩, ?_, ?_⟩, ?_⟩
  · rintro before kind c ⟨after, hbody⟩ sourceModule
    exact foundInScope hbody
  · intro hapart before kind c hchecks x hfree sourceModule globals
    exact found_eq_seen_iff (regular_of_weave h hd) hapart hchecks hfree
  · intro sourceModule hds hsource
    obtain ⟨text, ss, htext, hread, heach⟩ :=
      renderModule_readBy hds (fun d hd => (hds d hd).renders) hsource
    exact ⟨text, ss, htext, hread, scopesOf_of_reads heach⟩

/-! ## A limit -/

/-- A module with a limit, and a function that wants a number below it. -/
def limitedSource : String :=
  "LIMIT = 9\n\n@function_contract(\x7b'n < LIMIT': 'small'\x7d)\ndef _f(n):\n    return n\n"

/-- The program that the module is read as, what is woven from it, and its check. -/
structure Limited where
  program : List Stmt
  table : Table Datum
  result : Result Datum
  descriptor : Descriptor Datum
  clause : EnforcedClause

/-- It is that of the module. -/
structure Limited.Of (l : Limited) : Prop where
  program : readProgram? limitedSource.toList = some l.program
  table : Source.readTable none limitedSource = .ok l.table
  result : weave l.table = .ok l.result
  errors : l.result.errors = []
  descriptors : l.result.descriptors = [l.descriptor]
  check : ChecksBehind l.descriptor [] .precondition l.clause

/-- What can be seen of the module, if its only wrapper starts with a check. -/
def limited? {α : Type} (view : Limited → α) : Option α :=
  (readProgram? limitedSource.toList).bind fun program =>
    (Source.readTable none limitedSource).toOption.bind fun table =>
      (weave table).toOption.bind fun result =>
        match result.errors, result.descriptors with
        | [], [d] =>
          match d.body with
          | .check .precondition c :: _ => some (view ⟨program, table, result, d, c⟩)
          | _ => none
        | _, _ => none

theorem exists_of_limited? {α : Type} {view : Limited → α} {v : α} (h : limited? view = some v) :
    ∃ l : Limited, l.Of ∧ view l = v := by
  rw [limited?] at h
  obtain ⟨program, hprogram, h⟩ := Option.bind_eq_some_iff.mp h
  obtain ⟨table, htable, h⟩ := Option.bind_eq_some_iff.mp h
  obtain ⟨result, hresult, h⟩ := Option.bind_eq_some_iff.mp h
  split at h
  next d herrors hdescriptors =>
    split at h
    next c rest hbody =>
      refine ⟨⟨program, table, result, d, c⟩, ?_, Option.some.inj h⟩
      exact { program := hprogram
              table := toOption_eq_some.mp htable
              result := toOption_eq_some.mp hresult
              errors := herrors
              descriptors := hdescriptors
              check := ⟨rest, hbody⟩ }
    · exact nomatch h
  · exact nomatch h

/-- What the argument and the limit are seen as and found as. -/
theorem limited?_seen : limited? (fun l => decide (l.descriptor.Apart ∧
    (IsFree l.clause.tree "n" ∧
      l.descriptor.seen .precondition (boundNamesAll l.program) "n" = .argument "n" ∧
      l.descriptor.Survives l.result.descriptors (some "ledger") .precondition "n"
        (.argument "n")) ∧
    IsFree l.clause.tree "LIMIT" ∧
      l.descriptor.seen .precondition (boundNamesAll l.program) "LIMIT" = .global "LIMIT" ∧
      l.descriptor.found (moduleOrigins l.result.descriptors (some "ledger")) [] "LIMIT" = .unknown))
    = some true := by
  have hchars : limitedSource.toList = _ := String.toList_ofList
  unfold limited? Source.readTable
  rw [hchars]
  decide +kernel

/-- The argument survives. -/
theorem emission_closed_argument : ∃ l : Limited, l.Of ∧ IsFree l.clause.tree "n" ∧
    l.descriptor.seen .precondition (boundNamesAll l.program) "n" = .argument "n" ∧
      l.descriptor.found (moduleOrigins l.result.descriptors (some "ledger")) [] "n"
        = .argument "n" := by
  obtain ⟨l, hl, hview⟩ := exists_of_limited? limited?_seen
  obtain ⟨hapart, ⟨hfree, hseen, hsurvives⟩, -⟩ := of_decide_eq_true hview
  have hmem : l.descriptor ∈ l.result.descriptors := by
    rw [hl.descriptors]
    exact List.mem_singleton_self _
  have hresolved := (emission_closed_iff hl.result).1 l.descriptor hmem
  refine ⟨l, hl, hfree, hseen, ?_⟩
  rw [← hseen] at hsurvives ⊢
  exact (hresolved.same hapart [] .precondition l.clause hl.check "n" hfree _ _).mpr hsurvives

/-- The limit does not: in memory it is a global of the module, and where the check is emitted
    nothing has its name, so that the machine knows no value for it. -/
theorem emission_closed_fails : ∃ l : Limited, l.Of ∧ IsFree l.clause.tree "LIMIT" ∧
    l.descriptor.seen .precondition (boundNamesAll l.program) "LIMIT" = .global "LIMIT" ∧
      l.descriptor.found (moduleOrigins l.result.descriptors (some "ledger")) [] "LIMIT" = .unknown ∧
      ∀ e s h, InScope l.descriptor (moduleOrigins l.result.descriptors (some "ledger")) [] e s h →
        ∃ m, Comp.lookup s (s.nameHere "LIMIT") h = .thrown (.mistake m) h := by
  obtain ⟨l, hl, hview⟩ := exists_of_limited? limited?_seen
  obtain ⟨-, -, hfree, hseen, hfound⟩ := of_decide_eq_true hview
  refine ⟨l, hl, hfree, hseen, hfound, fun e s h hs => ?_⟩
  obtain ⟨after, hbody⟩ := hl.check
  have hanswers := foundInScope hbody e s h hs "LIMIT"
  rw [hfound] at hanswers
  exact hanswers

end Covenant.Wrapper
