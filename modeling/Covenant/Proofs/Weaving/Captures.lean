import Covenant.Demonstration
import Covenant.Proofs.Condition.Lookup
import Covenant.Proofs.Condition.RightCalls
import Covenant.Proofs.Protocol.History
import Covenant.Proofs.Weaving.Accepted

/-! # Captured fields — what is looked up was captured

    Three passes have to agree: the collector that validation runs, the
    rewriter that makes the enforced clauses, and the list of fields that a
    wrapper captures.

    * The fields of an accepted callable are those of its calls of `old`, once
      and in source order (`capturedFields_eq`).
    * The rewritten clauses look up no other fields (`lookups_enforced`), and
      preconditions and invariants none at all.
    * A run that asks for a postcondition has captured them all, so no look-up
      in its own store fails. -/

namespace Covenant.Weaving

open Condition Declaration Text Covenant.Tree Wrapper

variable {α : Type}

/-! ## Clauses -/

/-- An accepted clause has fine nodes only. -/
theorem fine_of_references {e : Expr} {source : Option String} {rs : List OldReference}
    (hunread : lookupName ∉ loadedNames e) (h : references source selfName e = .ok rs) :
    ∀ x ∈ e.nodes, Fine selfName x := by
  intro x hx
  refine ⟨?_, (references_eq_ok h).2 x hx⟩
  rintro span rfl
  exact hunread (mem_loadedNames.mpr ⟨span, hx⟩)

/-- An enforced clause looks up fields of calls of `old` only. -/
theorem lookups_enforced {fields shadowed : List String} {q : ParsedClause} {e : EnforcedClause}
    (hfine : ∀ x ∈ q.tree.nodes, Fine selfName x)
    (h : enforce (.memberScope fields shadowed) q = .ok e) :
    ∀ f ∈ lookups e.tree, ∃ r ∈ oldCalls selfName q.tree, r.field = f := by
  intro f hf
  rw [(enforces_of_enforce h).tree] at hf
  obtain ⟨x, hx, r, hr, hfield⟩ := lookups_rewriteWith (s := .memberScope fields shadowed) rfl
    q.tree _ hfine f hf
  exact ⟨r, List.mem_filterMap.mpr ⟨x, hx, hr⟩, hfield⟩

/-- A clause without old values has no calls of `old`. -/
theorem Timeless.oldCalls_eq_nil {q : ParsedClause} (hq : Timeless q) :
    oldCalls selfName q.tree = [] := by
  have hsorted := (references_eq_ok hq.noOld).1
  have hperm := perm_inSourceOrder (oldCalls selfName q.tree)
  rw [← hsorted] at hperm
  exact hperm.nil_eq.symm

theorem Timeless.not_isOldCall {q : ParsedClause} (hq : Timeless q) :
    ∀ x ∈ q.tree.nodes, ¬ isOldCall x = true := by
  intro x hx hold
  obtain ⟨r, hr⟩ := (references_eq_ok hq.noOld).2 x hx hold
  have hmem : r ∈ oldCalls selfName q.tree := List.mem_filterMap.mpr ⟨x, hx, hr⟩
  rw [hq.oldCalls_eq_nil] at hmem
  exact absurd hmem List.not_mem_nil

/-- An enforced clause that has no old values looks up nothing. -/
theorem lookups_of_timeless {fields shadowed : List String} {q : ParsedClause}
    {e : EnforcedClause} (hq : Timeless q) (h : enforce (.memberScope fields shadowed) q = .ok e) :
    lookups e.tree = [] := by
  rw [List.eq_nil_iff_forall_not_mem]
  intro f hf
  obtain ⟨r, hr, -⟩ := lookups_enforced (fine_of_references hq.unread hq.noOld) h f hf
  rw [hq.oldCalls_eq_nil] at hr
  exact absurd hr List.not_mem_nil

/-! ## Fields -/

/-- The trees of the postconditions. -/
def Validated.postTrees (v : Validated α) : List Expr := v.postconditions.map (·.tree)

section Fields

variable {c : Callable α} {enclosing : Option (TypeDecl α)} {invariants : List ParsedClause}
  {v : Validated α} {d : Descriptor α}

/-- What is known of each accepted postcondition. -/
theorem Accepts.refers (ha : Accepts c enclosing invariants v) {q : ParsedClause}
    (hq : q ∈ v.postconditions) :
    Refers q c.role enclosing (inSourceOrder (oldCalls selfName q.tree)) := by
  obtain ⟨found, -, hfound⟩ := ha.references
  obtain ⟨rs, -, hrs⟩ := exists_of_forall₂_right
    (r := fun rs (q : ParsedClause) => q.checkPostcondition c.role enclosing = .ok rs)
    hfound.flip q hq
  have hrefers := refers_of_checkPostcondition hrs
  obtain ⟨rfl, -⟩ := references_eq_ok hrefers.found
  exact hrefers

/-- The references of an accepted callable are the calls of `old` of its postconditions. -/
theorem Accepts.references_eq (ha : Accepts c enclosing invariants v) :
    v.references
      = (Validated.postTrees v |>.map fun e => inSourceOrder (oldCalls selfName e)).flatten := by
  obtain ⟨found, hreferences, hfound⟩ := ha.references
  have hmap : v.postconditions.map (fun q => inSourceOrder (oldCalls selfName q.tree))
      = found.map id :=
    map_eq_map_of_forall₂ hfound fun q rs h =>
      ((references_eq_ok (refers_of_checkPostcondition h).found).1).symm
  unfold Validated.postTrees
  rw [hreferences, List.map_map]
  exact congrArg List.flatten (hmap.trans (List.map_id _)).symm

/-- The captured fields are read off the calls of `old` of the postconditions. -/
theorem Describes.capturedFields_eq (hd : Describes v enclosing d)
    (ha : Accepts c enclosing invariants v) :
    d.capturedFields = distinctFields
      (Validated.postTrees v |>.map fun e => inSourceOrder (oldCalls selfName e)).flatten := by
  rw [hd.capturedFields, ha.references_eq]

/-- A field is captured exactly if a call of `old` in a postcondition names it; each is captured
    once, in the order of the first calls. -/
theorem Describes.occurrences (ha : Accepts c enclosing invariants v)
    (hd : Describes v enclosing d) :
    (∀ f, f ∈ d.capturedFields ↔ ∃ i r, OccursAt (Validated.postTrees v) i r ∧ r.field = f) ∧
      d.capturedFields.Nodup ∧
      d.capturedFields.Pairwise (FirstBefore (Validated.postTrees v)) := by
  rw [hd.capturedFields_eq ha]
  exact distinctFields_occurrences (Validated.postTrees v)

/-- Behind a captured field stands an accepted postcondition with a call of `old`. -/
theorem Describes.exists_call (ha : Accepts c enclosing invariants v)
    (hd : Describes v enclosing d) {f : String} (hf : f ∈ d.capturedFields) :
    ∃ q ∈ v.postconditions, ∃ r ∈ inSourceOrder (oldCalls selfName q.tree), r.field = f := by
  obtain ⟨i, r, ⟨tree, htree, hr⟩, hfield⟩ := ((hd.occurrences ha).1 f).mp hf
  obtain ⟨q, hq, rfl⟩ := List.mem_map.mp (List.mem_of_getElem? htree)
  exact ⟨q, hq, r, (perm_inSourceOrder _).mem_iff.mpr hr, hfield⟩

/-- What an enforced postcondition looks up is captured. -/
theorem Describes.looked (ha : Accepts c enclosing invariants v) (hd : Describes v enclosing d) :
    ∀ e ∈ d.postconditions, ∀ f ∈ lookups e.tree, f ∈ d.capturedFields := by
  intro e he f hf
  obtain ⟨q, hq, hqe⟩ := exists_of_forall₂_right hd.postconditions e he
  have hrefers := ha.refers hq
  obtain ⟨r, hr, hrf⟩ :=
    lookups_enforced (fine_of_references hrefers.unread hrefers.found) hqe f hf
  obtain ⟨i, hi⟩ := List.getElem?_of_mem (List.mem_map_of_mem (f := (·.tree)) hq)
  exact ((hd.occurrences ha).1 f).mpr ⟨i, r, ⟨q.tree, hi, hr⟩, hrf⟩

/-- Captured fields are fields of the enclosing type. -/
theorem Describes.known (ha : Accepts c enclosing invariants v) (hd : Describes v enclosing d) :
    ∀ f ∈ d.capturedFields, ∃ T, enclosing = some T ∧ f ∈ T.fields := by
  intro f hf
  obtain ⟨q, hq, r, hr, rfl⟩ := hd.exists_call ha hf
  exact (ha.refers hq).known r hr

/-- A constructor captures nothing. -/
theorem Describes.capturedFields_of_constructor (ha : Accepts c enclosing invariants v)
    (hd : Describes v enclosing d) (hcon : d.role = .constructor) : d.capturedFields = [] := by
  rw [List.eq_nil_iff_forall_not_mem]
  intro f hf
  obtain ⟨q, hq, r, hr, -⟩ := hd.exists_call ha hf
  have hrole : c.role = .constructor := by rw [← hcon, hd.role, ha.declaration]
  rw [(ha.refers hq).noneInConstructor hrole] at hr
  exact absurd hr List.not_mem_nil

/-- Preconditions and invariants look up nothing. -/
theorem Describes.timeless (ha : Accepts c enclosing invariants v) (hd : Describes v enclosing d)
    (henclosing : ∀ T, enclosing = some T → validateType T = .ok invariants) :
    ∀ e ∈ d.preconditions ++ d.invariants, lookups e.tree = [] := by
  intro e he
  rcases List.mem_append.mp he with he | he
  · obtain ⟨q, hq, hqe⟩ := exists_of_forall₂_right hd.preconditions e he
    exact lookups_of_timeless (ha.timeless_preconditions q hq) hqe
  · obtain ⟨q, hq, hqe⟩ := exists_of_forall₂_right hd.invariants e he
    exact lookups_of_timeless (ha.timeless_invariants henclosing q hq) hqe

end Fields

/-! ## Steps -/

/-- Only a method or a function captures, and before it is invoked. -/
theorem captureOld_plan (role : Role) (i p c q : Bool) :
    (Step.captureOld ∈ plan role i p c q ↔ role ≠ .constructor ∧ c = true) ∧
      (Step.captureOld ∈ plan role i p c q →
        (plan role i p c q).idxOf .captureOld < (plan role i p c q).idxOf .invoke) := by
  cases role <;> cases i <;> cases p <;> cases c <;> cases q <;> decide

/-- A clause that is checked as a postcondition is one. -/
theorem mem_postconditions_of_mem_tasks {d : Descriptor α} {e : EnforcedClause}
    (h : Task.check .postcondition e ∈ d.tasks) : e ∈ d.postconditions := by
  obtain ⟨step, -, hstep⟩ := List.mem_flatMap.mp h
  cases step with
  | checkPostconditions => simpa [Descriptor.tasksOf] using hstep
  | _ => simp [Descriptor.tasksOf] at hstep

/-- Where all look-ups are captured, every run finds what its postconditions look up. -/
theorem found_of_looked {d : Descriptor α}
    (hlooked : ∀ e ∈ d.postconditions, ∀ f ∈ lookups e.tree, f ∈ d.capturedFields)
    (hconstructor : d.role = .constructor → d.capturedFields = []) (a b : Activation α)
    (h : List (Exchange α)) (e : EnforcedClause) (next : Bool → Dialogue α (Option α))
    (hfollows : (d.dialogue a).Follows h (.ask (.holds .postcondition e b) next)) :
    ∀ f ∈ lookups e.tree, ∃ x, (b.captures.getD {}).lookup f = some x := by
  intro f hf
  by_cases hcon : d.role = .constructor
  · obtain ⟨before, after, p, htasks, -, -⟩ := passes_of_asks hfollows
    have hmem : Task.check .postcondition e ∈ d.tasks := by
      rw [htasks]
      exact List.mem_append_right _ List.mem_cons_self
    have hcaptured := hlooked e (mem_postconditions_of_mem_tasks hmem) f hf
    rw [hconstructor hcon] at hcaptured
    exact absurd hcaptured List.not_mem_nil
  · obtain ⟨he, _, _, _, _, -, -, -, hfound⟩ := captured_of_asked hcon hfollows
    obtain ⟨x, -, hx⟩ := hfound f (hlooked e he f hf)
    exact ⟨x, hx⟩

/-! ## The agreement -/

/-- Captured fields and look-ups of a descriptor agree with the declaration. -/
structure Agrees (v : Validated α) (enclosing : Option (TypeDecl α)) (d : Descriptor α) :
    Prop where
  /-- Whatever the postconditions look up is captured. -/
  looked : ∀ e ∈ d.postconditions, ∀ f ∈ lookups e.tree, f ∈ d.capturedFields
  /-- The captured fields are those of the calls of `old` of the postconditions. -/
  named : ∀ f, f ∈ d.capturedFields ↔
    ∃ i r, OccursAt (Validated.postTrees v) i r ∧ r.field = f
  once : d.capturedFields.Nodup
  inOrder : d.capturedFields.Pairwise (FirstBefore (Validated.postTrees v))
  known : ∀ f ∈ d.capturedFields, ∃ T, enclosing = some T ∧ f ∈ T.fields
  timeless : ∀ e ∈ d.preconditions ++ d.invariants, lookups e.tree = []
  constructor : d.role = .constructor → d.capturedFields = []
  unenclosed : enclosing = none → d.capturedFields = []
  /-- The wrapper captures exactly if there is something to capture, and before it invokes. -/
  captures : Step.captureOld ∈ d.steps ↔ d.capturedFields ≠ []
  before : Step.captureOld ∈ d.steps →
    d.steps.idxOf .captureOld < d.steps.idxOf .invoke
  /-- In every run the store has what a postcondition looks up. -/
  found : ∀ (a b : Activation α) (h : List (Exchange α)) (e : EnforcedClause)
    (next : Bool → Dialogue α (Option α)),
    (d.dialogue a).Follows h (.ask (.holds .postcondition e b) next) →
    ∀ f ∈ lookups e.tree, ∃ x, (b.captures.getD {}).lookup f = some x

/-- **WHAT IS LOOKED UP WAS CAPTURED**, for every callable that is accepted and described. -/
theorem lookups_captured {c : Callable α} {enclosing : Option (TypeDecl α)}
    {invariants : List ParsedClause} {v : Validated α} {d : Descriptor α}
    (henclosing : ∀ T, enclosing = some T → validateType T = .ok invariants)
    (hv : validateCallable c enclosing invariants = .ok (some v))
    (hd : describe v enclosing = .ok d) : Agrees v enclosing d := by
  have ha := accepts_of_validateCallable hv
  have hdesc := describes_of_describe hd
  obtain ⟨hnamed, honce, hinOrder⟩ := hdesc.occurrences ha
  have hlooked := hdesc.looked ha
  have hknown := hdesc.known ha
  have hconstructor := hdesc.capturedFields_of_constructor ha
  have hplan := captureOld_plan d.role (!d.invariants.isEmpty) (!d.preconditions.isEmpty)
    (!d.capturedFields.isEmpty) (!d.postconditions.isEmpty)
  refine ⟨hlooked, hnamed, honce, hinOrder, hknown, hdesc.timeless ha henclosing, hconstructor,
    ?_, ?_, hplan.2, found_of_looked hlooked hconstructor⟩
  · rintro rfl
    rw [List.eq_nil_iff_forall_not_mem]
    intro f hf
    obtain ⟨T, hT, -⟩ := hknown f hf
    cases hT
  · rw [Descriptor.steps, hplan.1]
    constructor
    · rintro ⟨-, hsome⟩ hnone
      rw [hnone] at hsome
      cases hsome
    · intro hsome
      refine ⟨fun hcon => hsome (hconstructor hcon), ?_⟩
      rw [Bool.not_eq_true', List.isEmpty_eq_false_iff]
      exact hsome

/-- The ledger's method is accepted, and its descriptor captures the total. -/
theorem ledger_described : ∃ c ∈ Demonstration.ledger.callables, ∃ invariants v d,
    validateType Demonstration.ledger = .ok invariants ∧
      validateCallable c (some Demonstration.ledger) invariants = .ok (some v) ∧
      describe v (some Demonstration.ledger) = .ok d ∧ d.capturedFields = ["total"] := by
  obtain ⟨r, d, hr, -, hds, -, -, -, -, hfields⟩ := ledger_woven
  have hmem : d ∈ r.descriptors := by
    rw [hds]
    exact List.mem_singleton_self d
  obtain ⟨c, enclosing, invariants, hstands, v, hv, hd⟩ := exists_of_mem_descriptors hr hmem
  cases hstands with
  | member hT hc hi =>
      obtain rfl := List.mem_singleton.mp hT
      exact ⟨c, hc, invariants, v, d, hi, hv, hd, hfields⟩
  | function hc => exact absurd hc List.not_mem_nil

/-- The ledger's method looks up its total, and has captured it. -/
theorem lookups_captured_ledger : ∃ c ∈ Demonstration.ledger.callables, ∃ invariants v d,
    validateType Demonstration.ledger = .ok invariants ∧
      validateCallable c (some Demonstration.ledger) invariants = .ok (some v) ∧
      describe v (some Demonstration.ledger) = .ok d ∧ d.capturedFields = ["total"] ∧
      Agrees v (some Demonstration.ledger) d := by
  obtain ⟨c, hc, invariants, v, d, hi, hv, hd, hfields⟩ := ledger_described
  refine ⟨c, hc, invariants, v, d, hi, hv, hd, hfields, lookups_captured ?_ hv hd⟩
  intro T hT
  cases hT
  exact hi

end Covenant.Weaving
