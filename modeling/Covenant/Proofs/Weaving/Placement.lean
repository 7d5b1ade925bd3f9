import Covenant.Proofs.Condition.RightCalls
import Covenant.Proofs.Weaving.Captures

/-! # Placement — which declarations validation accepts

    Validation takes its rules in a fixed order and reports the first one that
    is broken.  It accepts a declaration exactly if none is.

    * The rules on a callable as such are kept exactly if there is no placement
      fault (`placementFault?_eq_none`).
    * The rules on a clause, whose calls of `old` the collector looks for, are
      kept exactly if the check of the clause passes
      (`checkPrecondition_eq_ok`, `checkPostcondition_ok_iff`,
      `checkInvariant_eq_ok`).
    * `validation_exact` joins them for a callable and for the invariants of a
      type. -/

namespace Covenant.Weaving

open Condition Declaration Covenant.Tree

variable {α : Type} {c : Callable α} {enclosing : Option (TypeDecl α)}
  {invariants : List ParsedClause} {q : ParsedClause} {name : String} {e : Expr}

/-! ## Names -/

/-- A name of an implementation: it starts with an underscore, has something else in it, and is
    not written between double underscores. -/
structure PrivateName (name : String) : Prop where
  starts : ∃ rest, name = "_" ++ rest
  named : ∃ ch ∈ name.toList, ch ≠ '_'
  plain : ¬ ∃ middle, name = "__" ++ middle ++ "__"

theorem exists_eq_append_iff {front : String} :
    (∃ rest, name = front ++ rest) ↔ front.toList <+: name.toList := by
  constructor
  · rintro ⟨rest, rfl⟩
    rw [String.toList_append]
    exact List.prefix_append _ _
  · rintro ⟨rest, h⟩
    refine ⟨String.ofList rest, String.toList_inj.mp ?_⟩
    rw [String.toList_append, String.toList_ofList, h]

/-- A name that is more than underscores is written between double underscores exactly if two of
    them stand at both of its ends. -/
theorem exists_middle_iff (h : ∃ ch ∈ name.toList, ch ≠ '_') :
    (∃ middle, name = "__" ++ middle ++ "__") ↔
      ['_', '_'] <+: name.toList ∧ ['_', '_'] <:+ name.toList := by
  constructor
  · rintro ⟨middle, rfl⟩
    rw [String.toList_append, String.toList_append, List.append_assoc]
    exact ⟨⟨_, rfl⟩, ⟨"__".toList ++ middle.toList, List.append_assoc _ _ _⟩⟩
  · rintro ⟨⟨behind, hfront⟩, ⟨before, hend⟩⟩
    obtain ⟨ch, hmem, hch⟩ := h
    -- the two ends do not overlap, or there were nothing but underscores
    match before with
    | [] =>
        rw [← hend] at hmem
        simp at hmem
        exact absurd hmem hch
    | [a] =>
        rw [← hend] at hfront hmem
        have ha : '_' = a := (List.cons.inj hfront).1
        subst ha
        simp at hmem
        exact absurd hmem hch
    | a :: b :: middle =>
        rw [← hend] at hfront
        have ha : '_' = a := (List.cons.inj hfront).1
        have hb : '_' = b := (List.cons.inj (List.cons.inj hfront).2).1
        subst ha hb
        refine ⟨String.ofList middle, String.toList_inj.mp ?_⟩
        rw [String.toList_append, String.toList_append, String.toList_ofList, ← hend]
        simp

theorem isPrivateName_iff : isPrivateName name = true ↔ PrivateName name := by
  have hstarts : name.toList.head? = some '_' ↔ ∃ rest, name = "_" ++ rest := by
    rw [exists_eq_append_iff, List.head?_eq_some_iff]
    exact exists_congr fun _ => eq_comm
  have hnamed : name.toList.any (· != '_') = true ↔ ∃ ch ∈ name.toList, ch ≠ '_' := by
    simp
  have hends : (['_', '_'].isPrefixOf name.toList && ['_', '_'].isSuffixOf name.toList) = true ↔
      ['_', '_'] <+: name.toList ∧ ['_', '_'] <:+ name.toList := by
    rw [Bool.and_eq_true, List.isPrefixOf_iff_prefix, List.isSuffixOf_iff_suffix]
  rw [isPrivateName]
  simp only [Bool.and_eq_true, beq_iff_eq, Bool.not_eq_true', ← Bool.not_eq_true]
  rw [← Bool.and_eq_true, hends, hstarts, hnamed]
  constructor
  · rintro ⟨⟨hfront, hmore⟩, hplain⟩
    exact ⟨hfront, hmore, mt (exists_middle_iff hmore).mp hplain⟩
  · rintro ⟨hfront, hmore, hplain⟩
    exact ⟨⟨hfront, hmore⟩, mt (exists_middle_iff hmore).mpr hplain⟩

/-! ## Callables -/

/-- What is asked of a callable whatever its clauses say. -/
structure Placed (c : Callable α) (enclosed : Bool) : Prop where
  privateName : PrivateName c.name
  enclosed : enclosed = false → c.role ≠ .constructor ∧ c.applyInvariants = false
  synchronous : c.role = .constructor → c.isAsync = false
  lookupFree : lookupName ∉ c.parameterNames
  resultFree : c.postconditions ≠ [] → resultName ∉ c.parameterNames

/-- **NO PLACEMENT FAULT** is found exactly if every rule on callables is kept. -/
theorem placementFault?_eq_none {enclosed : Bool} :
    placementFault? c enclosed = none ↔ Placed c enclosed := by
  have hcontains {ns : List String} {n : String} : ns.contains n = true ↔ n ∈ ns :=
    List.contains_iff_mem
  unfold placementFault?
  constructor
  · intro h
    split_ifs at h with hname hrole happlied hasync hlookup hresult
    simp only [Bool.not_eq_true', Bool.and_eq_true, decide_eq_true_eq, not_and,
      Bool.not_eq_true, hcontains, Bool.not_eq_false] at hname hrole happlied hasync hlookup hresult
    refine ⟨isPrivateName_iff.1 hname, fun h => ⟨hrole h, happlied h⟩, hasync, hlookup, ?_⟩
    intro hpost hmem
    refine hresult ?_ hmem
    rw [Bool.eq_false_iff]
    exact fun h => hpost (List.isEmpty_iff.mp h)
  · intro h
    rw [if_neg (by rw [isPrivateName_iff.2 h.privateName]; exact Bool.false_ne_true)]
    rw [if_neg, if_neg, if_neg, if_neg, if_neg]
    · rw [Bool.and_eq_true, hcontains]
      rintro ⟨hpost, hmem⟩
      refine h.resultFree (fun hnil => ?_) hmem
      rw [hnil] at hpost
      exact nomatch hpost
    · rw [hcontains]
      exact h.lookupFree
    · rw [Bool.and_eq_true, decide_eq_true_eq]
      rintro ⟨hrole, hasync⟩
      rw [h.synchronous hrole] at hasync
      exact nomatch hasync
    · rw [Bool.and_eq_true, Bool.not_eq_true']
      rintro ⟨henclosed, happlied⟩
      rw [(h.enclosed henclosed).2] at happlied
      exact nomatch happlied
    · rw [Bool.and_eq_true, Bool.not_eq_true', decide_eq_true_eq]
      rintro ⟨henclosed, hrole⟩
      exact (h.enclosed henclosed).1 hrole

/-! ## Clauses -/

/-- A tree reads a name if a node of it does. -/
def Loads (e : Expr) (name : String) : Prop := ∃ span, Expr.name span name .load ∈ e.nodes

theorem reads_iff : q.reads name = true ↔ Loads q.tree name :=
  List.contains_iff_mem.trans mem_loadedNames

theorem reads_eq_false : q.reads name = false ↔ ¬ Loads q.tree name := by
  rw [← Bool.not_eq_true, reads_iff]

theorem checkNoOld_iff {place : NoOldPlace} : q.checkNoOld place = .ok () ↔ NoOld q.tree :=
  checkNoOld_eq_ok.trans references_eq_nil_iff

/-- The calls of `old` of a tree name fields of the enclosing type. -/
def NamesFields (enclosing : Option (TypeDecl α)) (e : Expr) : Prop :=
  ∀ x ∈ e.nodes, isOldCall x = true →
    ∃ f T, NamesField selfName x f ∧ enclosing = some T ∧ f ∈ T.fields

theorem checkInvariant_eq_ok : q.checkInvariant = .ok () ↔
    NoOld q.tree ∧ ¬ Loads q.tree lookupName ∧ ¬ Loads q.tree resultName := by
  rw [ParsedClause.checkInvariant, check_bind_eq_ok, check_bind_eq_ok, checkNoOld_iff,
    ParsedClause.checkLookup, rejectIf_eq_ok, rejectIf_eq_ok, reads_eq_false, reads_eq_false]

theorem checkPrecondition_eq_ok {parameters : List String} :
    q.checkPrecondition parameters = .ok () ↔
      ¬ Loads q.tree lookupName ∧ NoOld q.tree ∧
        (Loads q.tree resultName → resultName ∈ parameters) := by
  have hresult : (q.reads resultName && !parameters.contains resultName) = false ↔
      (Loads q.tree resultName → resultName ∈ parameters) := by
    rw [Bool.and_eq_false_iff, reads_eq_false, Bool.not_eq_false', List.contains_iff_mem,
      imp_iff_not_or]
  rw [ParsedClause.checkPrecondition, check_bind_eq_ok, check_bind_eq_ok, checkNoOld_iff,
    ParsedClause.checkLookup, rejectIf_eq_ok, rejectIf_eq_ok, reads_eq_false, hresult]

theorem checkPostcondition_ok_iff {role : Role} :
    (∃ rs, q.checkPostcondition role enclosing = .ok rs) ↔
      ¬ Loads q.tree lookupName ∧ NamesFields enclosing q.tree ∧
        (role = .constructor → NoOld q.tree) := by
  constructor
  · rintro ⟨rs, h⟩
    have hrefers := refers_of_checkPostcondition h
    refine ⟨fun hload => hrefers.unread (mem_loadedNames.mpr hload), fun x hx hold => ?_, ?_⟩
    · obtain ⟨f, hf⟩ := references_ok_iff.mp ⟨rs, hrefers.found⟩ x hx hold
      obtain ⟨r, hr, rfl⟩ := (exists_reference_iff hrefers.found).mpr ⟨x, hx, hf⟩
      obtain ⟨T, hT, hfield⟩ := hrefers.known r hr
      exact ⟨r.field, T, hf, hT, hfield⟩
    · intro hrole
      have hfound := hrefers.found
      rw [hrefers.noneInConstructor hrole] at hfound
      exact references_eq_nil_iff.mp hfound
  · rintro ⟨hlookup, hnames, hrole⟩
    have hright : q.tree.All (Right selfName) := fun x hx hold => by
      obtain ⟨f, -, hf, -, -⟩ := hnames x hx hold
      exact ⟨f, hf⟩
    obtain ⟨rs, hrs⟩ : ∃ rs, references (some q.text) selfName q.tree = .ok rs :=
      references_ok_iff.mpr hright
    have hconstructor : (decide (role = .constructor) && !rs.isEmpty) = false := by
      rw [Bool.and_eq_false_iff, decide_eq_false_iff_not, Bool.not_eq_false', List.isEmpty_iff]
      by_cases hnew : role = .constructor
      · have hnil : references (some q.text) selfName q.tree = .ok [] :=
          references_eq_nil_iff.mpr (hrole hnew)
        rw [hnil] at hrs
        exact .inr (Except.ok.inj hrs).symm
      · exact .inl hnew
    have hknown : ∀ r ∈ rs, q.checkField enclosing r = .ok () := fun r hr => by
      obtain ⟨x, hx, hf⟩ := (exists_reference_iff hrs).mp ⟨r, hr, rfl⟩
      obtain ⟨f, T, hf', hT, hfield⟩ := hnames x hx hf.isOldCall
      have heq : r.field = f := congrArg OldReference.field
        (Option.some.inj (hf.oldCall?.symm.trans hf'.oldCall?))
      exact checkField_eq_ok.mpr ⟨T, hT, heq ▸ hfield⟩
    refine ⟨rs, check_bind_eq_ok.mpr ⟨rejectIf_eq_ok.mpr (reads_eq_false.2 hlookup), ?_⟩⟩
    refine bind_eq_ok.mpr ⟨rs, oldReferences_eq_ok.mpr hrs, ?_⟩
    refine check_bind_eq_ok.mpr ⟨rejectIf_eq_ok.mpr hconstructor, ?_⟩
    exact check_bind_eq_ok.mpr ⟨forM_eq_ok.mpr hknown, rfl⟩

/-! ## Parsing -/

/-- Clauses with the trees of their texts. -/
def Parsed (cs : List Clause) (es : List Expr) : Prop :=
  List.Forall₂ (fun k e => parse k.text = .ok e) cs es

theorem trees_of_parseClauses {cs : List Clause} {qs : List ParsedClause} {es : List Expr}
    (hes : Parsed cs es) (hqs : List.Forall₂ (fun k q => parseClause k = .ok q) cs qs) :
    qs.map (·.tree) = es := by
  induction hes generalizing qs with
  | nil =>
      cases hqs
      rfl
  | cons he _ ih =>
      cases hqs with
      | cons hq hmore =>
          obtain ⟨-, -, htree⟩ := of_parseClause hq
          rw [List.map_cons, ih hmore, Except.ok.inj (htree.symm.trans he)]

theorem parseClauses_of_parsed {cs : List Clause} {es : List Expr} (h : Parsed cs es) :
    ∃ qs, parseClauses cs = .ok qs ∧ qs.map (·.tree) = es := by
  have hmade : ∃ qs, List.Forall₂ (fun k q => parseClause k = .ok q) cs qs := by
    induction h with
    | nil => exact ⟨[], .nil⟩
    | @cons k e _ _ he _ ih =>
        obtain ⟨qs, hqs⟩ := ih
        refine ⟨⟨k.text, k.message, e⟩ :: qs, .cons ?_ hqs⟩
        rw [parseClause, he]
  obtain ⟨qs, hqs⟩ := hmade
  exact ⟨qs, mapM_eq_ok.mpr hqs, trees_of_parseClauses h hqs⟩

/-! ## Declarations -/

/-- A callable that keeps every rule, with the trees of its preconditions and postconditions. -/
structure WellPlaced (c : Callable α) (enclosing : Option (TypeDecl α)) (pre post : List Expr) :
    Prop extends Placed c enclosing.isSome where
  unread : ∀ e ∈ pre ++ post, ¬ Loads e lookupName
  timeless : ∀ e ∈ pre, NoOld e
  resultKnown : ∀ e ∈ pre, Loads e resultName → resultName ∈ c.parameterNames
  named : ∀ e ∈ post, NamesFields enclosing e
  newborn : c.role = .constructor → ∀ e ∈ post, NoOld e

theorem wellPlaced_of_accepts {v : Validated α} {pre post : List Expr}
    (h : Accepts c enclosing invariants v) (hpre : Parsed c.preconditions pre)
    (hpost : Parsed c.postconditions post) : WellPlaced c enclosing pre post := by
  obtain rfl := trees_of_parseClauses hpre h.preconditions
  obtain rfl := trees_of_parseClauses hpost h.postconditions
  have hkept : ∀ q ∈ v.preconditions, _ := fun q hq => checkPrecondition_eq_ok.1 (h.kept q hq)
  obtain ⟨found, -, hfound⟩ := h.references
  have hrefers : ∀ q ∈ v.postconditions, ¬ Loads q.tree lookupName ∧
      NamesFields enclosing q.tree ∧ (c.role = .constructor → NoOld q.tree) := by
    intro q hq
    obtain ⟨rs, -, hrs⟩ := exists_of_forall₂_right hfound.flip q hq
    exact checkPostcondition_ok_iff.1 ⟨rs, hrs⟩
  refine { placementFault?_eq_none.1 h.placed with
    unread := ?_, timeless := ?_, resultKnown := ?_, named := ?_, newborn := ?_ }
  · rw [← List.map_append, List.forall_mem_map, List.forall_mem_append]
    exact ⟨fun q hq => (hkept q hq).1, fun q hq => (hrefers q hq).1⟩
  · exact List.forall_mem_map.mpr fun q hq => (hkept q hq).2.1
  · exact List.forall_mem_map.mpr fun q hq => (hkept q hq).2.2
  · exact List.forall_mem_map.mpr fun q hq => (hrefers q hq).2.1
  · exact fun hrole => List.forall_mem_map.mpr fun q hq => (hrefers q hq).2.2 hrole

theorem validateCallable_of_wellPlaced {pre post : List Expr} (hc : c.hasContract = true)
    (hpre : Parsed c.preconditions pre) (hpost : Parsed c.postconditions post)
    (h : WellPlaced c enclosing pre post) :
    ∃ v, validateCallable c enclosing invariants = .ok (some v) := by
  obtain ⟨ps, hps, rfl⟩ := parseClauses_of_parsed hpre
  obtain ⟨qs, hqs, rfl⟩ := parseClauses_of_parsed hpost
  have hunread := h.unread
  rw [← List.map_append, List.forall_mem_map, List.forall_mem_append] at hunread
  have hkept : ∀ q ∈ ps, q.checkPrecondition c.parameterNames = .ok () := fun q hq =>
    checkPrecondition_eq_ok.2 ⟨hunread.1 q hq, h.timeless _ (List.mem_map_of_mem hq),
      h.resultKnown _ (List.mem_map_of_mem hq)⟩
  have hrefers : ∀ q ∈ qs, ∃ rs, q.checkPostcondition c.role enclosing = .ok rs := fun q hq =>
    checkPostcondition_ok_iff.2 ⟨hunread.2 q hq, h.named _ (List.mem_map_of_mem hq),
      fun hrole => h.newborn hrole _ (List.mem_map_of_mem hq)⟩
  obtain ⟨found, hfound⟩ := mapM_ok_iff.mpr hrefers
  have hplaced := placementFault?_eq_none.2 h.toPlaced
  unfold validateCallable
  rw [hc, Bool.not_true, if_neg Bool.false_ne_true]
  dsimp only
  rw [hplaced]
  exact ⟨_, bind_eq_ok.mpr ⟨ps, hps, bind_eq_ok.mpr ⟨qs, hqs,
    check_bind_eq_ok.mpr ⟨forM_eq_ok.mpr hkept, bind_eq_ok.mpr ⟨found, hfound, rfl⟩⟩⟩⟩⟩

/-- An invariant that keeps every rule. -/
structure Permanent (e : Expr) : Prop where
  timeless : NoOld e
  unread : ¬ Loads e lookupName
  resultless : ¬ Loads e resultName

/-- Invariants are accepted exactly if each of them keeps every rule. -/
theorem validateType_ok_iff {T : TypeDecl α} {trees : List Expr}
    (h : Parsed T.invariants trees) :
    (∃ qs, validateType T = .ok qs) ↔ ∀ e ∈ trees, Permanent e := by
  obtain ⟨qs, hqs, rfl⟩ := parseClauses_of_parsed h
  have hvalid : (∃ qs, validateType T = .ok qs) ↔ ∀ q ∈ qs, q.checkInvariant = .ok () := by
    rw [← forM_eq_ok]
    constructor
    · rintro ⟨_, h⟩
      obtain ⟨qs', hqs', h⟩ := bind_eq_ok.mp h
      obtain rfl := Except.ok.inj (hqs.symm.trans hqs')
      exact (check_bind_eq_ok.mp h).1
    · intro hkept
      exact ⟨qs, bind_eq_ok.mpr ⟨qs, hqs, check_bind_eq_ok.mpr ⟨hkept, rfl⟩⟩⟩
  rw [hvalid, List.forall_mem_map]
  refine forall₂_congr fun q _ => checkInvariant_eq_ok.trans ?_
  exact ⟨fun ⟨hold, hlookup, hresult⟩ => ⟨hold, hlookup, hresult⟩,
    fun ⟨hold, hlookup, hresult⟩ => ⟨hold, hlookup, hresult⟩⟩

/-- **VALIDATION IS EXACT**: a callable that has a contract, and clauses that can be read, is
    accepted exactly if it is well placed, and readable invariants are exactly if each of them is
    permanent. -/
theorem validation_exact {pre post trees : List Expr} {T : TypeDecl α}
    (hc : c.hasContract = true) (hpre : Parsed c.preconditions pre)
    (hpost : Parsed c.postconditions post) (hT : Parsed T.invariants trees) :
    ((∃ v, validateCallable c enclosing invariants = .ok (some v)) ↔
      WellPlaced c enclosing pre post) ∧
    ((∃ qs, validateType T = .ok qs) ↔ ∀ e ∈ trees, Permanent e) := by
  refine ⟨⟨?_, validateCallable_of_wellPlaced hc hpre hpost⟩, validateType_ok_iff hT⟩
  rintro ⟨v, hv⟩
  exact wellPlaced_of_accepts (accepts_of_validateCallable hv) hpre hpost

/-- The ledger's method is well placed, and its invariant is permanent. -/
theorem validation_exact_ledger : ∃ c ∈ Demonstration.ledger.callables, ∃ pre post trees,
    Parsed c.preconditions pre ∧ Parsed c.postconditions post ∧
      Parsed Demonstration.ledger.invariants trees ∧
      WellPlaced c (some Demonstration.ledger) pre post ∧ ∀ e ∈ trees, Permanent e := by
  obtain ⟨c, hc, invariants, v, -, hi, hv, -, -⟩ := ledger_described
  have ha := accepts_of_validateCallable hv
  have hparsed {cs : List Clause} {qs : List ParsedClause}
      (h : List.Forall₂ (fun k q => parseClause k = .ok q) cs qs) :
      Parsed cs (qs.map (·.tree)) :=
    List.forall₂_map_right_iff.mpr (h.imp fun k q hq => (of_parseClause hq).2.2)
  have hcontract : c.hasContract = true := by
    obtain rfl := List.mem_singleton.mp hc
    rfl
  obtain ⟨hcallable, htype⟩ := @validation_exact _ c (some Demonstration.ledger) invariants _ _ _ _
    hcontract (hparsed ha.preconditions) (hparsed ha.postconditions)
    (hparsed (of_validateType hi).1)
  exact ⟨c, hc, _, _, _, hparsed ha.preconditions, hparsed ha.postconditions,
    hparsed (of_validateType hi).1, hcallable.mp ⟨v, hv⟩, htype.mp ⟨invariants, hi⟩⟩

end Covenant.Weaving
