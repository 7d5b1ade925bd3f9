import Covenant.Proofs.Condition.Readings
import Covenant.Proofs.Weaving.Placement

/-! # Free names — what the rules on reserved names look at

    A condition reads a name freely if nothing around the place binds it there,
    and locally if a `lambda` or a comprehension does.  The collector of names
    walks the tree without its scopes.

    * `mem_loadedNames_iff`: it gives the names that are read freely and those
      that are read locally.
    * `loadedNames_eq_free_iff`: these are the free names exactly if each name
      that is read locally is also read freely.
    * `result_rule` is the law with its consequence: the rule on the result
      of a call rejects a precondition or an invariant exactly if the result is
      read there, freely or locally.  In `result_rule_fails` it is a target of
      a comprehension. -/

namespace Covenant.Weaving

open Condition Declaration Covenant.Tree

variable {e : Expr} {q : ParsedClause} {x : String}

/-! ## Names of a condition -/

/-- The name is read where nothing in the tree binds it. -/
def ReadsFreely (e : Expr) (x : String) : Prop := ∃ r ∈ readings [] e, r.name = x ∧ r.Free

/-- The name is read where a `lambda` or a comprehension of the tree binds it. -/
def ReadsLocally (e : Expr) (x : String) : Prop := ∃ r ∈ readings [] e, r.name = x ∧ ¬ r.Free

instance (r : Reading) : Decidable r.Free :=
  inferInstanceAs (Decidable (∀ locals ∈ r.scopes, r.name ∉ locals))

instance (e : Expr) : Decidable (NoOld e) :=
  inferInstanceAs (Decidable (∀ n ∈ e.nodes, isOldCall n = false))

instance (e : Expr) (x : String) : Decidable (Loads e x) :=
  decidable_of_iff (x ∈ loadedNames e) mem_loadedNames

instance (e : Expr) (x : String) : Decidable (ReadsFreely e x) :=
  inferInstanceAs (Decidable (∃ r ∈ readings [] e, r.name = x ∧ r.Free))

/-- A name is loaded at a node exactly if it is read, freely or locally. -/
theorem loads_iff : Loads e x ↔ ReadsFreely e x ∨ ReadsLocally e x := by
  constructor
  · rintro ⟨span, hnode⟩
    obtain ⟨r, hr, hname⟩ := exists_reading_of_node e [] span hnode
    by_cases hfree : r.Free
    · exact .inl ⟨r, hr, hname, hfree⟩
    · exact .inr ⟨r, hr, hname, hfree⟩
  · intro h
    obtain ⟨r, hr, rfl⟩ : ∃ r ∈ readings [] e, r.name = x := by
      rcases h with ⟨r, hr, hname, -⟩ | ⟨r, hr, hname, -⟩
      · exact ⟨r, hr, hname⟩
      · exact ⟨r, hr, hname⟩
    exact exists_node_of_reading e [] r hr

/-- **THE COLLECTOR** gives the names that a tree reads freely and those that it reads locally. -/
theorem mem_loadedNames_iff : x ∈ loadedNames e ↔ ReadsFreely e x ∨ ReadsLocally e x :=
  mem_loadedNames.trans loads_iff

/-- The collector gives the free names alone exactly if each name that is read locally is also read
    freely. -/
theorem loadedNames_eq_free_iff :
    (∀ x, x ∈ loadedNames e ↔ ReadsFreely e x) ↔ ∀ x, ReadsLocally e x → ReadsFreely e x := by
  constructor
  · intro hfree x hlocal
    exact (hfree x).mp (mem_loadedNames_iff.2 (.inr hlocal))
  · intro hboth x
    rw [mem_loadedNames_iff]
    exact ⟨fun h => h.elim id (hboth x), .inl⟩

/-! ## The rule on results -/

theorem reject_eq_reject_iff {fault fault' : PlacementFault} :
    q.reject fault = q.reject fault' ↔ fault = fault' := by
  unfold ParsedClause.reject inClause
  simp

theorem rejectIf_eq_reject_iff {broken : Bool} {fault : PlacementFault} :
    q.rejectIf broken fault = q.reject fault ↔ broken = true := by
  unfold ParsedClause.rejectIf
  cases broken with
  | true => exact iff_of_true rfl rfl
  | false => exact iff_of_false (by rintro ⟨⟩) Bool.false_ne_true

/-- Another rule that comes first has to be kept for a fault to be reported. -/
theorem rejectIf_bind_eq_reject_iff {broken : Bool} {fault fault' : PlacementFault}
    (hne : fault ≠ fault') {rest : Unit → Except GenerationError Unit} :
    q.rejectIf broken fault >>= rest = q.reject fault' ↔
      broken = false ∧ rest () = q.reject fault' := by
  unfold ParsedClause.rejectIf
  cases broken with
  | true =>
      refine iff_of_false (fun h => ?_) fun h => Bool.false_ne_true h.1.symm
      exact hne (reject_eq_reject_iff.1 h)
  | false => exact (and_iff_right rfl).symm

/-- The rule on results is only looked at where there are no calls of `old`. -/
theorem checkNoOld_bind_eq_reject_iff {place : NoOldPlace}
    {rest : Unit → Except GenerationError Unit} :
    q.checkNoOld place >>= rest = q.reject .resultOutsidePostcondition ↔
      NoOld q.tree ∧ rest () = q.reject .resultOutsidePostcondition := by
  rw [← @checkNoOld_iff q place]
  cases hcheck : q.checkNoOld place with
  | ok u => exact (and_iff_right rfl).symm
  | error fault =>
      refine iff_of_false (fun h => ?_) fun h => by cases h.1
      have hfault : q.checkNoOld place = q.reject .resultOutsidePostcondition := hcheck.trans h
      unfold ParsedClause.checkNoOld ParsedClause.oldReferences at hfault
      cases hfound : references (some q.text) selfName q.tree with
      | error old =>
          rw [hfound] at hfault
          cases hfault
      | ok rs =>
          rw [hfound] at hfault
          cases rs with
          | nil => cases hfault
          | cons r rs => cases reject_eq_reject_iff.1 hfault

theorem checkPrecondition_eq_reject_iff {parameters : List String} :
    q.checkPrecondition parameters = q.reject .resultOutsidePostcondition ↔
      ¬ Loads q.tree lookupName ∧ NoOld q.tree ∧ Loads q.tree resultName ∧
        resultName ∉ parameters := by
  rw [ParsedClause.checkPrecondition, ParsedClause.checkLookup,
    rejectIf_bind_eq_reject_iff (by decide), checkNoOld_bind_eq_reject_iff, rejectIf_eq_reject_iff,
    reads_eq_false, Bool.and_eq_true, reads_iff, Bool.not_eq_true', ← Bool.not_eq_true,
    List.contains_iff_mem]

theorem checkInvariant_eq_reject_iff :
    q.checkInvariant = q.reject .resultOutsidePostcondition ↔
      NoOld q.tree ∧ ¬ Loads q.tree lookupName ∧ Loads q.tree resultName := by
  rw [ParsedClause.checkInvariant, checkNoOld_bind_eq_reject_iff, ParsedClause.checkLookup,
    rejectIf_bind_eq_reject_iff (by decide), rejectIf_eq_reject_iff, reads_eq_false, reads_iff]

theorem parseClause_of_parse {text message : String} {e : Expr} (h : parse text = .ok e) :
    parseClause ⟨text, message⟩ = .ok ⟨text, message, e⟩ := by
  rw [parseClause, h]

/-- **THE RULE ON RESULTS** goes by the names of the collector: these are the names that a condition
    reads freely and those that it reads locally, and the free ones alone exactly if none is read
    only locally.  Once the other rules on a clause are kept, a precondition that reads the result
    in either way is rejected for it unless a parameter has the name, and an invariant always. -/
theorem result_rule {text message : String} {e : Expr} (hparse : parse text = .ok e)
    (hold : NoOld e) (hlookup : ¬ Loads e lookupName) :
    (∀ x, x ∈ loadedNames e ↔ ReadsFreely e x ∨ ReadsLocally e x) ∧
    ((∀ x, x ∈ loadedNames e ↔ ReadsFreely e x) ↔ ∀ x, ReadsLocally e x → ReadsFreely e x) ∧
    ∃ q, parseClause ⟨text, message⟩ = .ok q ∧ q.tree = e ∧
      (∀ parameters, q.checkPrecondition parameters = q.reject .resultOutsidePostcondition ↔
        (ReadsFreely e resultName ∨ ReadsLocally e resultName) ∧ resultName ∉ parameters) ∧
      (q.checkInvariant = q.reject .resultOutsidePostcondition ↔
        ReadsFreely e resultName ∨ ReadsLocally e resultName) := by
  refine ⟨fun x => mem_loadedNames_iff, loadedNames_eq_free_iff, ⟨text, message, e⟩,
    parseClause_of_parse hparse, rfl, ?_, ?_⟩
  · intro parameters
    rw [checkPrecondition_eq_reject_iff, ← loads_iff]
    exact ⟨fun h => h.2.2, fun h => ⟨hlookup, hold, h⟩⟩
  · rw [checkInvariant_eq_reject_iff, ← loads_iff]
    exact ⟨fun h => h.2.2, fun h => ⟨hold, hlookup, h⟩⟩

/-- An invariant that compares a result with all elements reads it freely and is rejected for it. -/
theorem result_rule_free : ∃ e q, parse "all(result > n for n in xs)" = .ok e ∧
    parseClause ⟨"all(result > n for n in xs)", ""⟩ = .ok q ∧ q.tree = e ∧
    ReadsFreely e resultName ∧ q.checkInvariant = q.reject .resultOutsidePostcondition := by
  have hread : (parse "all(result > n for n in xs)").toOption.map (fun e =>
      decide (NoOld e ∧ ¬ Loads e lookupName ∧ ReadsFreely e resultName)) = some true := by
    rw [parse_ofList]
    decide +kernel
  obtain ⟨e, he, hread⟩ := Option.map_eq_some_iff.mp hread
  have hparse := toOption_eq_some.mp he
  obtain ⟨hold, hlookup, hfree⟩ := of_decide_eq_true hread
  obtain ⟨-, -, q, hq, htree, -, hinvariant⟩ := @result_rule _ "" e hparse hold hlookup
  exact ⟨e, q, hparse, hq, htree, hfree, hinvariant.mpr (.inl hfree)⟩

/-- A target of a comprehension that is called like the result is collected, though nothing reads
    the result, and the condition is rejected for it. -/
theorem result_rule_fails : ∃ e q, parse "all(result > 0 for result in xs)" = .ok e ∧
    parseClause ⟨"all(result > 0 for result in xs)", ""⟩ = .ok q ∧ q.tree = e ∧
    resultName ∈ loadedNames e ∧ ¬ ReadsFreely e resultName ∧
    q.checkPrecondition ["xs"] = q.reject .resultOutsidePostcondition ∧
    q.checkInvariant = q.reject .resultOutsidePostcondition := by
  have hread : (parse "all(result > 0 for result in xs)").toOption.map (fun e => decide
      (NoOld e ∧ ¬ Loads e lookupName ∧ Loads e resultName ∧ ¬ ReadsFreely e resultName))
      = some true := by
    rw [parse_ofList]
    decide +kernel
  obtain ⟨e, he, hread⟩ := Option.map_eq_some_iff.mp hread
  have hparse := toOption_eq_some.mp he
  obtain ⟨hold, hlookup, hresult, hfree⟩ := of_decide_eq_true hread
  refine ⟨e, ⟨"all(result > 0 for result in xs)", "", e⟩, hparse, parseClause_of_parse hparse, rfl,
    mem_loadedNames.mpr hresult, hfree, ?_, ?_⟩
  · exact checkPrecondition_eq_reject_iff.2 ⟨hlookup, hold, hresult, by decide⟩
  · exact checkInvariant_eq_reject_iff.2 ⟨hold, hlookup, hresult⟩

end Covenant.Weaving
