import Covenant.Condition.Parse
import Covenant.Proofs.Condition.OldCalls
import Covenant.Proofs.Grammar.Plain

/-! # Right calls — which trees the collector accepts

    A call of `old` is right if it has one argument, which names a field.

    * The collector stops at the first call that is not right, and does not
      look inside of any.  It accepts exactly the trees all of whose calls are
      right, wherever they stand (`collect_ok_iff`).
    * Then the fields that it finds are those that the calls name
      (`exists_reference_iff`), and it finds none exactly if there are no calls
      (`references_eq_nil_iff`). -/

namespace Covenant.Condition

open Covenant.Tree

variable {self : String} {show_ : Expr → String} {source : Option String} {e x : Expr}
  {f : String} {rs : List OldReference}

/-! ## Names -/

/-- A tree loads a name if a node of it does. -/
theorem mem_loadedNames {id : String} :
    id ∈ loadedNames e ↔ ∃ span, Expr.name span id .load ∈ e.nodes := by
  rw [loadedNames, mem_marks, preorder_eq_filterMap, List.mem_filterMap]
  constructor
  · rintro ⟨x, hx, hid⟩
    split at hid
    · cases hid
      exact ⟨_, hx⟩
    · cases hid
  · rintro ⟨span, hspan⟩
    exact ⟨_, hspan, rfl⟩

/-! ## Calls -/

/-- `NamesField self x f`: the expression is a call of `old` whose only argument names the field
    `f`, by itself or behind the instance. -/
inductive NamesField (self : String) : Expr → String → Prop where
  | bare {s s' s'' : Span} {a a' : Access} {f : String} (h : f ≠ self) :
      NamesField self (.call s (.name s' oldName a) [.name s'' f a'] []) f
  | member {s s' s'' t : Span} {a a' a'' : Access} {f : String} :
      NamesField self (.call s (.name s' oldName a) [.field s'' (.name t self a') f a''] []) f

/-- A node is right if it names a field in case it is a call of `old`. -/
def Right (self : String) (x : Expr) : Prop := isOldCall x = true → ∃ f, NamesField self x f

theorem right_of_not (h : isOldCall x = false) : Right self x := fun hold => by
  rw [h] at hold
  exact nomatch hold

theorem NamesField.isOldCall (h : NamesField self x f) : isOldCall x = true := by
  cases h <;> exact beq_self_eq_true oldName

theorem exists_of_isOldCall {s : Span} {g : Expr} {as : List Expr} {ks : List Keyword}
    (h : Condition.isOldCall (.call s g as ks) = true) : ∃ s' a, g = .name s' oldName a := by
  cases g with
  | name s' id a => exact ⟨s', a, by rw [eq_of_beq h]⟩
  | constant | field | call | lambda | comprehension | compound => exact nomatch h

theorem operandField_eq_some {operand : Expr} {s s' : Span} {a : Access} :
    operandField self operand = some f ↔
      NamesField self (.call s (.name s' oldName a) [operand] []) f := by
  constructor
  · intro h
    unfold operandField at h
    split at h
    · split_ifs at h with hid
      cases h
      exact .bare hid
    · split_ifs at h with hid
      cases h
      rw [hid]
      exact .member
    · exact nomatch h
  · intro h
    cases h with
    | bare hid => exact if_neg hid
    | member => exact if_pos rfl

/-- The reference that a right call is. -/
theorem NamesField.oldCall? (h : NamesField self x f) : oldCall? self x = some ⟨f, x.span⟩ := by
  have hold := h.isOldCall
  cases h with
  | bare hid =>
      rw [Condition.oldCall?, if_pos hold]
      exact congrArg (Option.map _) (if_neg hid)
  | member =>
      rw [Condition.oldCall?, if_pos hold]
      exact congrArg (Option.map _) (if_pos rfl)

/-- The collector accepts a call of `old` exactly if it is right. -/
theorem reference_ok_iff {s s' : Span} {a : Access} {as : List Expr} {ks : List Keyword} :
    (∃ rs, reference self show_ s as ks = .ok rs) ↔
      ∃ f, NamesField self (.call s (.name s' oldName a) as ks) f := by
  constructor
  · rintro ⟨rs, h⟩
    unfold reference at h
    split at h
    · split at h
      · rename_i field hfield
        exact ⟨field, operandField_eq_some.1 hfield⟩
      · exact nomatch h
    · exact nomatch h
  · rintro ⟨f, h⟩
    have hone : ∃ operand, as = [operand] ∧ ks = [] := by
      cases h <;> exact ⟨_, rfl, rfl⟩
    obtain ⟨operand, rfl, rfl⟩ := hone
    refine ⟨[⟨f, s⟩], ?_⟩
    simp only [reference, operandField_eq_some.2 h]
    rfl

/-- Nothing inside of a right call is a call. -/
theorem all_right_of_namesField (h : NamesField self x f) : x.All (Right self) := by
  have hself : Right self x := fun _ => ⟨f, h⟩
  have hname {s : Span} {id : String} {a : Access} : (Expr.name s id a).All (Right self) :=
    all_name.mpr (right_of_not rfl)
  cases h with
  | bare => exact all_call.mpr ⟨hself, hname, List.forall_mem_singleton.mpr hname, nofun⟩
  | member =>
      exact all_call.mpr ⟨hself, hname,
        List.forall_mem_singleton.mpr (all_field.mpr ⟨right_of_not rfl, hname⟩), nofun⟩

/-! ## Collecting -/

theorem append_ok_iff {a b : Found} :
    (∃ rs, a.append b = .ok rs) ↔ (∃ rs, a = .ok rs) ∧ ∃ rs, b = .ok rs := by
  constructor
  · rintro ⟨rs, h⟩
    obtain ⟨xs, ys, ha, hb, -⟩ := append_eq_ok.mp h
    exact ⟨⟨xs, ha⟩, ys, hb⟩
  · rintro ⟨⟨xs, ha⟩, ys, hb⟩
    exact ⟨xs ++ ys, append_eq_ok.mpr ⟨xs, ys, ha, hb, rfl⟩⟩

mutual

/-- **THE COLLECTOR ACCEPTS** a tree exactly if all its calls of `old` are right. -/
theorem collect_ok_iff : (e : Expr) →
    ((∃ rs, collect self show_ e = .ok rs) ↔ e.All (Right self))
  | .name .. => ⟨fun _ => all_name.mpr (right_of_not rfl), fun _ => ⟨[], rfl⟩⟩
  | .constant .. => ⟨fun _ => all_constant.mpr (right_of_not rfl), fun _ => ⟨[], rfl⟩⟩
  | .field s v attr a => by
      rw [all_field, and_iff_right (right_of_not rfl)]
      exact collect_ok_iff v
  | .call s g as ks => by
      unfold collect
      split_ifs with hold
      · obtain ⟨s', a, rfl⟩ := exists_of_isOldCall hold
        constructor
        · intro hcollect
          obtain ⟨f, h⟩ := reference_ok_iff.1 hcollect
          exact all_right_of_namesField h
        · intro h
          exact reference_ok_iff.2 (h.self hold)
      · rw [append_ok_iff, append_ok_iff, all_call,
          and_iff_right (right_of_not (Bool.eq_false_iff.mpr hold)), collect_ok_iff g,
          collectAll_ok_iff as, collectKeywords_ok_iff ks]
  | .lambda s b kd ds e => by
      rw [collect, append_ok_iff, append_ok_iff, all_lambda, and_iff_right (right_of_not rfl),
        collectAll_ok_iff kd, collectAll_ok_iff ds, collect_ok_iff e]
  | .comprehension s k es gs => by
      rw [collect, append_ok_iff, all_comprehension, and_iff_right (right_of_not rfl),
        collectAll_ok_iff es, collectGenerators_ok_iff gs]
  | .compound s form ps => by
      rw [collect, all_compound, and_iff_right (right_of_not rfl), collectAll_ok_iff ps]

theorem collectAll_ok_iff : (es : List Expr) →
    ((∃ rs, collectAll self show_ es = .ok rs) ↔ ∀ e ∈ es, e.All (Right self))
  | [] => ⟨fun _ => nofun, fun _ => ⟨[], rfl⟩⟩
  | e :: es => by
      rw [collectAll, append_ok_iff, List.forall_mem_cons, collect_ok_iff e, collectAll_ok_iff es]

theorem collectKeywords_ok_iff : (ks : List Keyword) →
    ((∃ rs, collectKeywords self show_ ks = .ok rs) ↔ ∀ k ∈ ks, k.value.All (Right self))
  | [] => ⟨fun _ => nofun, fun _ => ⟨[], rfl⟩⟩
  | .mk s name v :: ks => by
      rw [collectKeywords, append_ok_iff, List.forall_mem_cons, collect_ok_iff v,
        collectKeywords_ok_iff ks]
      rfl

theorem collectGenerators_ok_iff : (gs : List Generator) →
    ((∃ rs, collectGenerators self show_ gs = .ok rs) ↔ ∀ g ∈ gs, g.All (Right self))
  | [] => ⟨fun _ => nofun, fun _ => ⟨[], rfl⟩⟩
  | .mk t i fs a :: gs => by
      rw [collectGenerators, append_ok_iff, append_ok_iff, append_ok_iff, List.forall_mem_cons,
        collect_ok_iff t, collect_ok_iff i, collectAll_ok_iff fs, collectGenerators_ok_iff gs]
      rfl

end

/-! ## References -/

theorem references_ok_iff :
    (∃ rs, references source self e = .ok rs) ↔ e.All (Right self) := by
  constructor
  · rintro ⟨rs, h⟩
    obtain ⟨found, hfound, -⟩ := map_eq_ok.mp h
    exact (collect_ok_iff e).mp ⟨found, hfound⟩
  · intro h
    obtain ⟨found, hfound⟩ := (collect_ok_iff e).mpr h
    exact ⟨inSourceOrder found, map_eq_ok.mpr ⟨found, hfound, rfl⟩⟩

/-- The fields of the references are those that the calls name. -/
theorem exists_reference_iff (h : references source self e = .ok rs) :
    (∃ r ∈ rs, r.field = f) ↔ ∃ x ∈ e.nodes, NamesField self x f := by
  have hright := references_ok_iff.1 ⟨rs, h⟩
  obtain ⟨rfl, -⟩ := references_eq_ok h
  constructor
  · rintro ⟨r, hr, rfl⟩
    obtain ⟨x, hx, hcall⟩ :=
      List.mem_filterMap.mp ((perm_inSourceOrder (oldCalls self e)).mem_iff.mp hr)
    have hold : isOldCall x = true := by
      unfold Condition.oldCall? at hcall
      split at hcall
      · split_ifs at hcall with hold
        exact hold
      · exact nomatch hcall
    obtain ⟨f, hf⟩ := hright x hx hold
    rw [hf.oldCall?] at hcall
    rw [← Option.some.inj hcall]
    exact ⟨x, hx, hf⟩
  · rintro ⟨x, hx, hf⟩
    refine ⟨⟨f, x.span⟩, ?_, rfl⟩
    exact (perm_inSourceOrder (oldCalls self e)).mem_iff.mpr
      (List.mem_filterMap.mpr ⟨x, hx, hf.oldCall?⟩)

/-- A tree without calls of `old`. -/
def NoOld (e : Expr) : Prop := ∀ x ∈ e.nodes, isOldCall x = false

/-- There are no references exactly if there are no calls. -/
theorem references_eq_nil_iff : references source self e = .ok [] ↔ NoOld e := by
  constructor
  · intro h x hx
    rw [Bool.eq_false_iff]
    intro hold
    obtain ⟨f, hf⟩ := references_ok_iff.1 ⟨[], h⟩ x hx hold
    obtain ⟨r, hr, -⟩ := (exists_reference_iff h).mpr ⟨x, hx, hf⟩
    exact nomatch hr
  · intro h
    have hright : e.All (Right self) := fun x hx => right_of_not (h x hx)
    obtain ⟨rs, hrs⟩ : ∃ rs, references source self e = .ok rs := references_ok_iff.2 hright
    cases rs with
    | nil => exact hrs
    | cons r rs =>
        obtain ⟨x, hx, hf⟩ := (exists_reference_iff hrs).mp ⟨r, List.mem_cons_self, rfl⟩
        have hold := hf.isOldCall
        rw [h x hx] at hold
        exact nomatch hold

end Covenant.Condition
