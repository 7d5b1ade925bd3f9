import Covenant.Proofs.Condition.Hygiene
import Covenant.Proofs.Machine.Resolution
import Covenant.Proofs.Weaving.Captures
import Mathlib.Data.List.Forall2

/-! # Hygiene of woven clauses — what inserted names stand for

    The enforced clauses of an accepted callable have names that their texts
    do not have.  The instance is inserted for fields and the store for calls
    of `old`; both are meant for the namespace of the clause.

    * In that namespace they stand for what is meant (`exists_meant`), for a
      clause of every kind that can have them.
    * They get there exactly if no scope around their place makes them local
      (`lands_iff`), and all of them do exactly if the clause is unshadowed
      (`insertions_hygienic`).
    * Validation rejects a clause that reads the store, not one that binds its
      name: `insertions_hygienic_fails` has a callable that is accepted and
      whose inserted look-up goes to a parameter of a `lambda`. -/

namespace Covenant.Weaving

open Condition Declaration Covenant.Tree Wrapper

variable {α : Type}

/-! ## Insertions that land -/

/-- An inserted name lands if it stands, at its place, for the instance or the store of the
    activation. -/
def Lands (a : Activation Machine.Value) (h : Machine.Heap) (names : Names Machine.Value)
    (r : Reading) : Prop :=
  ∃ v, Machine.Meant a h r.name v ∧ Machine.Resolves names r.name r.scopes v

/-- An activation of a callable inside a type has an instance. -/
def HasInstance (enclosing : Option (TypeDecl α)) (a : Activation Machine.Value) : Prop :=
  ∀ T, enclosing = some T → ∃ v, a.receiver? = some v

/-- The insertions into a clause of some kind, seen by the rewriter, by the rewritten tree and by
    the machine. -/
structure Inserts (enclosing : Option (TypeDecl α)) (kind : ViolationKind) (s : Strategy)
    (q : ParsedClause) (e : EnforcedClause) : Prop where
  /-- They are the edits of the rewriter. -/
  edits : (insertions s s.shadowed [] q.tree).map (·.edit) = (rewriteWith s s.shadowed q.tree).2
  /-- The enforced clause reads them in the scopes of their places. -/
  placed : ∀ i ∈ insertions s s.shadowed [] q.tree, i.toReading ∈ readings [] e.tree
  /-- Each of them lands exactly if no scope around it makes its name local. -/
  lands : ∀ a implementation h names h', HasInstance enclosing a →
    Machine.clauseNames implementation kind a h = .done names h' →
    ∀ i ∈ insertions s s.shadowed [] q.tree, (Lands a h' names i.toReading ↔ i.toReading.Free)
  /-- All of them land exactly if the clause is unshadowed. -/
  hygienic : ∀ a implementation h names h', HasInstance enclosing a →
    Machine.clauseNames implementation kind a h = .done names h' →
    ((∀ i ∈ insertions s s.shadowed [] q.tree, Lands a h' names i.toReading) ↔
      unshadowed s s.shadowed q.tree = true)

section Clause

variable {enclosing : Option (TypeDecl α)} {kind : ViolationKind} {shadowed : List String}
  {q : ParsedClause} {e : EnforcedClause} {a : Activation Machine.Value}
  {implementation : Machine.Value} {h h' : Machine.Heap} {names : Names Machine.Value}

/-- The namespace of the clause has what an inserted name is meant to stand for. -/
theorem exists_meant {i : Insertion} (ha : HasInstance enclosing a)
    (hold : ∀ x ∈ q.tree.nodes, isOldCall x = true → kind = .postcondition)
    (hnames : Machine.clauseNames implementation kind a h = .done names h')
    (hi : Caused (.memberScope (enclosedFields enclosing) shadowed) q.tree.nodes i) :
    ∃ v, Machine.Meant a h' i.name v ∧ names.lookup i.name = some v := by
  obtain ⟨hself, hstore⟩ := Machine.clauseNames_reserved hnames
  rcases hi with ⟨hname, hfields⟩ | ⟨hname, x, hx, hxold⟩
  · -- a field was replaced, so there is a type around and an instance of it
    obtain ⟨T, hT⟩ : ∃ T, enclosing = some T := by
      cases enclosing with
      | none => exact absurd rfl hfields
      | some T => exact ⟨T, rfl⟩
    obtain ⟨v, hv⟩ := ha T hT
    rw [hname]
    exact ⟨v, .inl ⟨rfl, hv⟩, hself v hv⟩
  · obtain ⟨store, hlookup, hobject⟩ := hstore (hold x hx hxold)
    rw [hname]
    exact ⟨store, .inr ⟨rfl, hobject⟩, hlookup⟩

/-- An inserted name lands exactly if it is free. -/
theorem lands_iff {i : Insertion}
    (hmeant : ∃ v, Machine.Meant a h' i.name v ∧ names.lookup i.name = some v) :
    Lands a h' names i.toReading ↔ i.toReading.Free := by
  constructor
  · rintro ⟨v, -, hres⟩ locals hlocals hmem
    exact Machine.not_resolves_of_mem hlocals hmem hres
  · intro hfree
    obtain ⟨v, hv, hlookup⟩ := hmeant
    exact ⟨v, hv, Machine.resolves_of_forall hlookup hfree⟩

/-- The insertions into an enforced clause whose calls of `old` stand in a postcondition. -/
theorem inserts_of_enforce
    (he : enforce (.memberScope (enclosedFields enclosing) shadowed) q = .ok e)
    (hold : ∀ x ∈ q.tree.nodes, isOldCall x = true → kind = .postcondition) :
    Inserts enclosing kind (.memberScope (enclosedFields enclosing) shadowed) q e := by
  have hlands : ∀ a implementation h names h', HasInstance enclosing a →
      Machine.clauseNames implementation kind a h = .done names h' →
      ∀ i ∈ insertions (.memberScope (enclosedFields enclosing) shadowed) shadowed [] q.tree,
        (Lands a h' names i.toReading ↔ i.toReading.Free) := by
    intro a implementation h names h' ha hnames i hi
    exact lands_iff (exists_meant ha hold hnames (name_of_mem_insertions _ _ _ i hi))
  refine ⟨edit_insertions _ _ _ _, ?_, hlands, ?_⟩
  · intro i hi
    rw [(enforces_of_enforce he).tree]
    exact readings_insertions _ _ _ i hi
  · intro a implementation h names h' ha hnames
    have hfree := free_iff (s := .memberScope (enclosedFields enclosing) shadowed)
      q.tree shadowed []
    rw [and_iff_left (avoid_nil _)] at hfree
    refine Iff.trans ?_ hfree
    exact forall₂_congr fun i hi => hlands a implementation h names h' ha hnames i hi

end Clause

/-! ## The law -/

section Law

variable {c : Callable α} {enclosing : Option (TypeDecl α)} {invariants : List ParsedClause}
  {v : Validated α} {d : Descriptor α}

/-- The insertions into all clauses of a descriptor. -/
structure InsertsAll (v : Validated α) (enclosing : Option (TypeDecl α)) (d : Descriptor α) :
    Prop where
  invariants : List.Forall₂ (Inserts enclosing .invariant (invariantScope enclosing))
    v.invariants d.invariants
  preconditions : List.Forall₂
    (Inserts enclosing .precondition (callScope v.declaration enclosing))
    v.preconditions d.preconditions
  postconditions : List.Forall₂
    (Inserts enclosing .postcondition (resultScope v.declaration enclosing))
    v.postconditions d.postconditions

/-- **WHEN INSERTED NAMES LAND**, for every callable that is accepted and described. -/
theorem insertions_hygienic
    (henclosing : ∀ T, enclosing = some T → validateType T = .ok invariants)
    (hv : validateCallable c enclosing invariants = .ok (some v))
    (hd : describe v enclosing = .ok d) : InsertsAll v enclosing d := by
  have ha := accepts_of_validateCallable hv
  have hdesc := describes_of_describe hd
  refine ⟨?_, ?_, ?_⟩
  · refine ((List.forall₂_and_left _ _).mpr
      ⟨ha.timeless_invariants henclosing, hdesc.invariants⟩).imp ?_
    rintro q e ⟨hq, he⟩
    exact inserts_of_enforce he fun x hx hold => absurd hold (hq.not_isOldCall x hx)
  · refine ((List.forall₂_and_left _ _).mpr
      ⟨ha.timeless_preconditions, hdesc.preconditions⟩).imp ?_
    rintro q e ⟨hq, he⟩
    exact inserts_of_enforce he fun x hx hold => absurd hold (hq.not_isOldCall x hx)
  · exact hdesc.postconditions.imp fun q e he => inserts_of_enforce he fun _ _ _ => rfl

end Law

/-- The law at the ledger's method. -/
theorem insertions_hygienic_ledger : ∃ c ∈ Demonstration.ledger.callables, ∃ invariants v d,
    validateType Demonstration.ledger = .ok invariants ∧
      validateCallable c (some Demonstration.ledger) invariants = .ok (some v) ∧
      describe v (some Demonstration.ledger) = .ok d ∧ d.capturedFields = ["total"] ∧
      InsertsAll v (some Demonstration.ledger) d := by
  obtain ⟨c, hc, invariants, v, d, hi, hv, hd, hfields⟩ := ledger_described
  refine ⟨c, hc, invariants, v, d, hi, hv, hd, hfields, insertions_hygienic ?_ hv hd⟩
  intro T hT
  cases hT
  exact hi

/-! ## A clause that is not hygienic -/

/-- A ledger with a method whose postcondition takes the old total inside a `lambda` that has the
    name of the store for its parameter. -/
def shadowingLedger : TypeDecl Value.Datum where
  name := "Ledger"
  fields := ["total"]
  callables := [{
    name := "_add"
    postconditions := [⟨"(lambda __old__: old(total))(str) == 10", "kept"⟩] }]

/-- Where the names go that are inserted into the postconditions of a callable. -/
def insertionsAfter (v : Validated α) (enclosing : Option (TypeDecl α)) : List Reading :=
  v.postconditions.flatMap fun q =>
    (insertions (resultScope v.declaration enclosing)
      (resultScope v.declaration enclosing).shadowed [] q.tree).map (·.toReading)

/-- The method is accepted, and the look-up in its postcondition does not go to the store. -/
theorem insertions_hygienic_fails : ∃ c ∈ shadowingLedger.callables, ∃ invariants v d,
    validateType shadowingLedger = .ok invariants ∧
      validateCallable c (some shadowingLedger) invariants = .ok (some v) ∧
      describe v (some shadowingLedger) = .ok d ∧
      ∃ r ∈ insertionsAfter v (some shadowingLedger), r.name = lookupName ∧
        ∀ a h names, ¬ Lands a h names r := by
  have hmade : describedMembers shadowingLedger
      (fun v _ => insertionsAfter v (some shadowingLedger))
      = [some [⟨lookupName, [[lookupName]]⟩]] := by
    decide +kernel
  obtain ⟨c, hc, invariants, v, d, hi, hv, hd, hinserted⟩ := exists_of_describedMembers hmade
  refine ⟨c, hc, invariants, v, d, hi, hv, hd, ⟨lookupName, [[lookupName]]⟩, ?_, rfl, ?_⟩
  · rw [hinserted]
    exact List.mem_singleton_self _
  · rintro a h names ⟨w, -, hres⟩
    exact Machine.not_resolves_of_mem (List.mem_singleton_self _) (List.mem_singleton_self _) hres

end Covenant.Weaving
