import Covenant.Proofs.Condition.Lookup

/-! # Replacements — the calls of `old` that rewriting reaches

    The collector looks at every node of a condition; the rewriter leaves the
    targets of comprehensions as they are.  A call of `old` inside of a target
    is a reference that no look-up answers.

    * `changes` says what each edit of the rewriter is for (`edits_eq_changes`).
    * `count_changes` follows both walks at once: a reference is looked up or
      stands in a target, and never both.
    * `mem_nodes_rewriteWith` finds the calls of `old` that are left: they are
      those in the targets.
    * `lookups_answer_references` puts this together.  The agreement holds
      exactly for the conditions whose targets have no calls of `old`, and
      `lookups_answer_references_fails` has one with such a target. -/

namespace Covenant.Condition

open Text Covenant.Tree

/-! ## What edits are for -/

/-- A change that rewriting makes. -/
inductive Change where
  /-- A name becomes a field of the instance. -/
  | member (span : Span) (id : String)
  /-- A call of `old` becomes a look-up. -/
  | lookup (call : OldReference)

/-- The edit of the text that makes a change. -/
def Change.edit (s : Strategy) : Change → Edit
  | .member span id => memberEdit s span id
  | .lookup r => lookupEdit s r.span r.field

/-- The call of `old` that a change replaces. -/
def Change.call? : Change → Option OldReference
  | .member .. => none
  | .lookup r => some r

/-- The calls of `old` that some changes replace. -/
def replacedCalls (cs : List Change) : List OldReference := cs.filterMap Change.call?

section Changes

variable (s : Strategy)

mutual

/-- The changes that rewriting makes in a tree, in the order of its edits. -/
def changes (bound : List String) : Expr → List Change
  | .name span id access =>
    if access = .load ∧ s.fields.contains id = true ∧ bound.contains id = false then
      [.member span id]
    else []
  | .constant .. => []
  | .field _ v _ _ => changes bound v
  | .call span f as ks =>
    if isOldCall (.call span f as ks) then [.lookup ⟨lookedUpField s as, span⟩]
    else changes bound f ++ changesAll bound as ++ changesKeywords bound ks
  | .lambda _ b kd ds e =>
    changesAll bound kd ++ changesAll bound ds ++ changes (b.names ++ bound) e
  | .comprehension _ _ es gs =>
    changesGenerators bound gs ++ changesAll (rewriteGenerators s bound gs).2.1 es
  | .compound _ _ ps => changesAll bound ps

/-- The changes that rewriting makes in several trees. -/
def changesAll (bound : List String) : List Expr → List Change
  | [] => []
  | e :: es => changes bound e ++ changesAll bound es

/-- The changes that rewriting makes in keyword arguments. -/
def changesKeywords (bound : List String) : List Keyword → List Change
  | [] => []
  | .mk _ _ v :: ks => changes bound v ++ changesKeywords bound ks

/-- The changes that rewriting makes in the parts of a comprehension. -/
def changesGenerators (bound : List String) : List Generator → List Change
  | [] => []
  | .mk t i fs _ :: gs =>
    changes bound i ++ changesAll (allNames t ++ bound) fs
      ++ changesGenerators (allNames t ++ bound) gs

end

mutual

/-- Each edit of the rewriter makes a change. -/
theorem edits_eq_changes : (e : Expr) → (bound : List String) →
    (rewriteWith s bound e).2 = (changes s bound e).map (Change.edit s)
  | .name .., bound => by
      rw [rewriteWith, changes]
      split <;> rfl
  | .constant .., _ => rfl
  | .field _ v _ _, bound => edits_eq_changes v bound
  | .call span f as ks, bound => by
      rw [rewriteWith, changes]
      split
      · rfl
      · rw [List.map_append, List.map_append, ← edits_eq_changes f, ← edits_eq_changesAll as,
          ← edits_eq_changesKeywords ks]
  | .lambda _ b kd ds e, bound => by
      rw [changes, List.map_append, List.map_append, ← edits_eq_changesAll kd,
        ← edits_eq_changesAll ds, ← edits_eq_changes e]
      rfl
  | .comprehension _ _ es gs, bound => by
      rw [changes, List.map_append, ← edits_eq_changesGenerators gs, ← edits_eq_changesAll es]
      rfl
  | .compound _ _ ps, bound => edits_eq_changesAll ps bound

theorem edits_eq_changesAll : (es : List Expr) → (bound : List String) →
    (rewriteAll s bound es).2 = (changesAll s bound es).map (Change.edit s)
  | [], _ => rfl
  | e :: es, bound => by
      rw [changesAll, List.map_append, ← edits_eq_changes e, ← edits_eq_changesAll es]
      rfl

theorem edits_eq_changesKeywords : (ks : List Keyword) → (bound : List String) →
    (rewriteKeywords s bound ks).2 = (changesKeywords s bound ks).map (Change.edit s)
  | [], _ => rfl
  | .mk _ _ v :: ks, bound => by
      rw [changesKeywords, List.map_append, ← edits_eq_changes v, ← edits_eq_changesKeywords ks]
      rfl

theorem edits_eq_changesGenerators : (gs : List Generator) → (bound : List String) →
    (rewriteGenerators s bound gs).2.2 = (changesGenerators s bound gs).map (Change.edit s)
  | [], _ => rfl
  | .mk t i fs _ :: gs, bound => by
      rw [changesGenerators, List.map_append, List.map_append, ← edits_eq_changes i,
        ← edits_eq_changesAll fs, ← edits_eq_changesGenerators gs]
      rfl

end

end Changes

/-! ## Targets -/

mutual

/-- The targets of the comprehensions in a tree; what stands inside of a target or of a call of
    `old` is not looked at. -/
def targetsIn : Expr → List Expr
  | .name .. | .constant .. => []
  | .field _ v _ _ => targetsIn v
  | .call span f as ks =>
    if isOldCall (.call span f as ks) then []
    else targetsIn f ++ targetsInAll as ++ targetsInKeywords ks
  | .lambda _ _ kd ds e => targetsInAll kd ++ targetsInAll ds ++ targetsIn e
  | .comprehension _ _ es gs => targetsInGenerators gs ++ targetsInAll es
  | .compound _ _ ps => targetsInAll ps

/-- The targets in several trees. -/
def targetsInAll : List Expr → List Expr
  | [] => []
  | e :: es => targetsIn e ++ targetsInAll es

/-- The targets in keyword arguments. -/
def targetsInKeywords : List Keyword → List Expr
  | [] => []
  | .mk _ _ v :: ks => targetsIn v ++ targetsInKeywords ks

/-- The targets of the parts of a comprehension, and those inside of the parts. -/
def targetsInGenerators : List Generator → List Expr
  | [] => []
  | .mk t i fs _ :: gs => t :: (targetsIn i ++ targetsInAll fs ++ targetsInGenerators gs)

end

/-- The calls of `old` that stand in targets. -/
def callsInTargets (self : String) (e : Expr) : List OldReference :=
  (targetsIn e).flatMap (oldCalls self)

section Counting

variable {s : Strategy} {show_ : Expr → String} {r : OldReference}

/-- How often a call of `old` is replaced by some changes. -/
def replacedCount (r : OldReference) (cs : List Change) : Nat := (replacedCalls cs).count r

/-- How often a call of `old` stands in some targets. -/
def targetCount (self : String) (r : OldReference) (ts : List Expr) : Nat :=
  (ts.flatMap (oldCalls self)).count r

@[simp] theorem replacedCount_append (cs cs' : List Change) :
    replacedCount r (cs ++ cs') = replacedCount r cs + replacedCount r cs' := by
  show ((cs ++ cs').filterMap Change.call?).count r = _
  rw [List.filterMap_append, List.count_append]
  rfl

@[simp] theorem targetCount_append (self : String) (ts us : List Expr) :
    targetCount self r (ts ++ us) = targetCount self r ts + targetCount self r us := by
  show ((ts ++ us).flatMap (oldCalls self)).count r = _
  rw [List.flatMap_append, List.count_append]
  rfl

@[simp] theorem targetCount_cons (self : String) (t : Expr) (ts : List Expr) :
    targetCount self r (t :: ts) = (oldCalls self t).count r + targetCount self r ts := by
  show ((t :: ts).flatMap (oldCalls self)).count r = _
  rw [List.flatMap_cons, List.count_append]
  rfl

/-- The only reference of a call of `old` is the one that its look-up is for. -/
theorem reference_eq_lookedUp {span : Span} {as : List Expr} {ks : List Keyword}
    {rs : List OldReference} (h : reference s.self show_ span as ks = .ok rs) :
    rs = [⟨lookedUpField s as, span⟩] := by
  unfold reference at h
  split at h
  · rename_i operand
    split at h
    · rename_i field hfield
      cases h
      have hlooked : lookedUpField s [operand] = field := by
        show ((some operand).bind (operandField s.self)).getD "" = field
        rw [Option.bind_some, hfield]
        rfl
      rw [hlooked]
    · cases h
  · cases h

mutual

/-- A reference is replaced or stands in a target, and as often as the collector finds it. -/
theorem count_changes : (e : Expr) → (bound : List String) → {rs : List OldReference} →
    collect s.self show_ e = .ok rs →
    replacedCount r (changes s bound e) + targetCount s.self r (targetsIn e) = rs.count r
  | .name .., bound, rs, h => by
      cases h
      rw [changes]
      split <;> rfl
  | .constant .., bound, rs, h => by
      cases h
      rfl
  | .field _ v _ _, bound, rs, h => count_changes v bound h
  | .call span f as ks, bound, rs, h => by
      rw [collect] at h
      rw [changes, targetsIn]
      split at h
      · rename_i hold
        rw [if_pos hold, if_pos hold, reference_eq_lookedUp h]
        rfl
      · rename_i hnot
        obtain ⟨xs, ys, hf, hrest, rfl⟩ := append_eq_ok.mp h
        obtain ⟨ys, zs, has, hks, rfl⟩ := append_eq_ok.mp hrest
        have hf := count_changes f bound hf
        have has := count_changesAll as bound has
        have hks := count_changesKeywords ks bound hks
        rw [if_neg hnot, if_neg hnot]
        simp only [replacedCount_append, targetCount_append, List.count_append]
        omega
  | .lambda _ b kd ds e, bound, rs, h => by
      obtain ⟨xs, ys, hkd, hrest, rfl⟩ := append_eq_ok.mp h
      obtain ⟨ys, zs, hds, he, rfl⟩ := append_eq_ok.mp hrest
      have hkd := count_changesAll kd bound hkd
      have hds := count_changesAll ds bound hds
      have he := count_changes e (b.names ++ bound) he
      rw [changes, targetsIn]
      simp only [replacedCount_append, targetCount_append, List.count_append]
      omega
  | .comprehension _ _ es gs, bound, rs, h => by
      obtain ⟨xs, ys, hes, hgs, rfl⟩ := append_eq_ok.mp h
      have hes := count_changesAll es (rewriteGenerators s bound gs).2.1 hes
      have hgs := count_changesGenerators gs bound hgs
      rw [changes, targetsIn]
      simp only [replacedCount_append, targetCount_append, List.count_append]
      omega
  | .compound _ _ ps, bound, rs, h => count_changesAll ps bound h

theorem count_changesAll : (es : List Expr) → (bound : List String) → {rs : List OldReference} →
    collectAll s.self show_ es = .ok rs →
    replacedCount r (changesAll s bound es) + targetCount s.self r (targetsInAll es) = rs.count r
  | [], bound, rs, h => by
      cases h
      rfl
  | e :: es, bound, rs, h => by
      obtain ⟨xs, ys, he, hes, rfl⟩ := append_eq_ok.mp h
      have he := count_changes e bound he
      have hes := count_changesAll es bound hes
      rw [changesAll, targetsInAll]
      simp only [replacedCount_append, targetCount_append, List.count_append]
      omega

theorem count_changesKeywords : (ks : List Keyword) → (bound : List String) →
    {rs : List OldReference} → collectKeywords s.self show_ ks = .ok rs →
    replacedCount r (changesKeywords s bound ks) + targetCount s.self r (targetsInKeywords ks)
      = rs.count r
  | [], bound, rs, h => by
      cases h
      rfl
  | .mk _ _ v :: ks, bound, rs, h => by
      obtain ⟨xs, ys, hv, hks, rfl⟩ := append_eq_ok.mp h
      have hv := count_changes v bound hv
      have hks := count_changesKeywords ks bound hks
      rw [changesKeywords, targetsInKeywords]
      simp only [replacedCount_append, targetCount_append, List.count_append]
      omega

theorem count_changesGenerators : (gs : List Generator) → (bound : List String) →
    {rs : List OldReference} → collectGenerators s.self show_ gs = .ok rs →
    replacedCount r (changesGenerators s bound gs)
      + targetCount s.self r (targetsInGenerators gs) = rs.count r
  | [], bound, rs, h => by
      cases h
      rfl
  | .mk t i fs _ :: gs, bound, rs, h => by
      obtain ⟨xs, ys, hhere, hgs, rfl⟩ := append_eq_ok.mp h
      obtain ⟨xs, zs, ht, hrest, rfl⟩ := append_eq_ok.mp hhere
      obtain ⟨zs, ws, hi, hfs, rfl⟩ := append_eq_ok.mp hrest
      -- the collector goes into the target, and there it finds all calls
      obtain ⟨rfl, -⟩ := collect_eq_ok ht
      have hi := count_changes i bound hi
      have hfs := count_changesAll fs (allNames t ++ bound) hfs
      have hgs := count_changesGenerators gs (allNames t ++ bound) hgs
      rw [changesGenerators, targetsInGenerators]
      simp only [replacedCount_append, targetCount_append, targetCount_cons, List.count_append]
      omega

end

/-- What is looked up and what stands in targets are the references of a tree. -/
theorem perm_collect {e : Expr} {rs : List OldReference} (h : collect s.self show_ e = .ok rs)
    (bound : List String) :
    (replacedCalls (changes s bound e) ++ callsInTargets s.self e).Perm rs := by
  rw [List.perm_iff_count]
  intro r
  rw [List.count_append]
  exact count_changes e bound h

end Counting

/-! ## The calls that are left -/

/-- A call of `old`; nothing for other expressions. -/
def callOfOld? (e : Expr) : Option Expr := if isOldCall e then some e else none

/-- The calls of `old` in some trees, right or not. -/
def callsOfOld (es : List Expr) : List Expr := es.flatMap (Expr.preorder callOfOld?)

section Left

variable {s : Strategy} {x : Expr}

@[simp] theorem mem_callsOfOld_cons {e : Expr} {es : List Expr} :
    x ∈ callsOfOld (e :: es) ↔ x ∈ e.preorder callOfOld? ∨ x ∈ callsOfOld es := by
  simp only [callsOfOld, List.flatMap_cons, List.mem_append]

@[simp] theorem mem_callsOfOld_append {es es' : List Expr} :
    x ∈ callsOfOld (es ++ es') ↔ x ∈ callsOfOld es ∨ x ∈ callsOfOld es' := by
  simp only [callsOfOld, List.flatMap_append, List.mem_append]

theorem mem_preorder_callOfOld? {e : Expr} :
    x ∈ e.preorder callOfOld? ↔ x ∈ e.nodes ∧ isOldCall x = true := by
  rw [preorder_eq_filterMap, List.mem_filterMap]
  constructor
  · rintro ⟨y, hy, h⟩
    obtain ⟨hold, hxy⟩ := Option.ite_none_right_eq_some.mp h
    cases hxy
    exact ⟨hy, hold⟩
  · rintro ⟨hx, hold⟩
    exact ⟨x, hx, if_pos hold⟩

/-- A call of something else than `old` does not become one. -/
theorem callOfOld?_call {span : Span} {f : Expr} {as as' : List Expr} {ks ks' : List Keyword}
    {bound : List String} (h : isOldCall (.call span f as ks) ≠ true) :
    callOfOld? (.call span (rewriteWith s bound f).1 as' ks') = none := by
  refine if_neg fun hold => h ?_
  cases hf : (rewriteWith s bound f).1 with
  | name span' id a =>
      rw [hf] at hold
      rw [eq_name_of_rewriteWith hf]
      exact hold
  | constant | field | call | lambda | comprehension | compound =>
      rw [hf] at hold
      cases hold

/-- A look-up is no call of `old`. -/
theorem preorder_lookupCall (hlookup : s.lookup ≠ oldName) (span : Span) (f : String) :
    (lookupCall s span f).preorder callOfOld? = [] := by
  have hcall : isOldCall (lookupCall s span f) = false := beq_false_of_ne hlookup
  have hnone : callOfOld? (lookupCall s span f) = none := if_neg (by rw [hcall]; nofun)
  show (callOfOld? (lookupCall s span f)).toList ++ _ ++ _ ++ _ = _
  rw [hnone]
  rfl

mutual

/-- The calls of `old` that are left in a rewritten tree are those in targets. -/
theorem mem_preorder_rewriteWith (hlookup : s.lookup ≠ oldName) :
    (e : Expr) → (bound : List String) →
      (x ∈ (rewriteWith s bound e).1.preorder callOfOld? ↔ x ∈ callsOfOld (targetsIn e))
  | .name span id a, bound => by
      rw [rewriteWith]
      split <;> exact Iff.rfl
  | .constant .., bound => Iff.rfl
  | .field _ v _ _, bound => mem_preorder_rewriteWith hlookup v bound
  | .call span f as ks, bound => by
      rw [rewriteWith, targetsIn]
      split
      · show x ∈ (lookupCall s span (lookedUpField s as)).preorder callOfOld? ↔ _
        rw [preorder_lookupCall hlookup]
        exact Iff.rfl
      · rename_i hnot
        simp only [Expr.preorder, callOfOld?_call hnot, Option.toList_none, List.nil_append,
          List.mem_append, mem_callsOfOld_append, mem_preorder_rewriteWith hlookup f bound,
          mem_preorder_rewriteAll hlookup as bound, mem_preorder_rewriteKeywords hlookup ks bound]
  | .lambda span b kd ds e, bound => by
      have hnone : callOfOld? (rewriteWith s bound (.lambda span b kd ds e)).1 = none := rfl
      simp only [rewriteWith, targetsIn, Expr.preorder] at hnone ⊢
      simp only [hnone, Option.toList_none, List.nil_append, List.mem_append,
        mem_callsOfOld_append, mem_preorder_rewriteWith hlookup e (b.names ++ bound),
        mem_preorder_rewriteAll hlookup kd bound, mem_preorder_rewriteAll hlookup ds bound]
  | .comprehension span k es gs, bound => by
      have hnone : callOfOld? (rewriteWith s bound (.comprehension span k es gs)).1 = none := rfl
      simp only [rewriteWith, targetsIn, Expr.preorder] at hnone ⊢
      simp only [hnone, Option.toList_none, List.nil_append, List.mem_append,
        mem_callsOfOld_append, mem_preorder_rewriteAll hlookup es,
        mem_preorder_rewriteGenerators hlookup gs bound, or_comm]
  | .compound _ _ ps, bound => mem_preorder_rewriteAll hlookup ps bound

theorem mem_preorder_rewriteAll (hlookup : s.lookup ≠ oldName) :
    (es : List Expr) → (bound : List String) →
      (x ∈ preorderAll callOfOld? (rewriteAll s bound es).1 ↔ x ∈ callsOfOld (targetsInAll es))
  | [], bound => Iff.rfl
  | e :: es, bound => by
      simp only [rewriteAll, targetsInAll, preorderAll, List.mem_append, mem_callsOfOld_append,
        mem_preorder_rewriteWith hlookup e bound, mem_preorder_rewriteAll hlookup es bound]

theorem mem_preorder_rewriteKeywords (hlookup : s.lookup ≠ oldName) :
    (ks : List Keyword) → (bound : List String) →
      (x ∈ preorderKeywords callOfOld? (rewriteKeywords s bound ks).1 ↔
        x ∈ callsOfOld (targetsInKeywords ks))
  | [], bound => Iff.rfl
  | .mk _ _ v :: ks, bound => by
      simp only [rewriteKeywords, targetsInKeywords, preorderKeywords, List.mem_append,
        mem_callsOfOld_append, mem_preorder_rewriteWith hlookup v bound,
        mem_preorder_rewriteKeywords hlookup ks bound]

theorem mem_preorder_rewriteGenerators (hlookup : s.lookup ≠ oldName) :
    (gs : List Generator) → (bound : List String) →
      (x ∈ preorderGenerators callOfOld? (rewriteGenerators s bound gs).1 ↔
        x ∈ callsOfOld (targetsInGenerators gs))
  | [], bound => Iff.rfl
  | .mk t i fs _ :: gs, bound => by
      simp only [rewriteGenerators, targetsInGenerators, preorderGenerators, List.mem_append,
        mem_callsOfOld_append, mem_callsOfOld_cons, mem_preorder_rewriteWith hlookup i bound,
        mem_preorder_rewriteAll hlookup fs, mem_preorder_rewriteGenerators hlookup gs, or_assoc]

end

/-- A node of a rewritten tree that is a call of `old` stands in a target. -/
theorem mem_nodes_rewriteWith (hlookup : s.lookup ≠ oldName) {e : Expr} {bound : List String} :
    (x ∈ (rewriteWith s bound e).1.nodes ∧ isOldCall x = true) ↔
      ∃ t ∈ targetsIn e, x ∈ t.nodes ∧ isOldCall x = true := by
  rw [← mem_preorder_callOfOld?, mem_preorder_rewriteWith hlookup e bound]
  show x ∈ (targetsIn e).flatMap (Expr.preorder callOfOld?) ↔ _
  rw [List.mem_flatMap]
  simp only [mem_preorder_callOfOld?]

end Left

/-! ## Targets are nodes -/

section Nodes

variable {t : Expr}

mutual

/-- The targets in a tree are nodes of it. -/
theorem mem_nodes_of_mem_targetsIn : (e : Expr) → t ∈ targetsIn e → t ∈ e.nodes
  | .name .., h | .constant .., h => nomatch h
  | .field _ v _ _, h => mem_nodes_field.mpr (.inr (mem_nodes_of_mem_targetsIn v h))
  | .call span f as ks, h => by
      rw [targetsIn] at h
      split at h
      · exact nomatch h
      · rcases List.mem_append.mp h with h | h
        · rcases List.mem_append.mp h with h | h
          · exact mem_nodes_call.mpr (.inr (.inl (mem_nodes_of_mem_targetsIn f h)))
          · exact mem_nodes_call.mpr (.inr (.inr (.inl (mem_nodes_of_mem_targetsInAll as h))))
        · exact mem_nodes_call.mpr (.inr (.inr (.inr (mem_nodes_of_mem_targetsInKeywords ks h))))
  | .lambda _ _ kd ds e, h => by
      rcases List.mem_append.mp h with h | h
      · rcases List.mem_append.mp h with h | h
        · exact mem_nodes_lambda.mpr (.inr (.inl (mem_nodes_of_mem_targetsInAll kd h)))
        · exact mem_nodes_lambda.mpr (.inr (.inr (.inl (mem_nodes_of_mem_targetsInAll ds h))))
      · exact mem_nodes_lambda.mpr (.inr (.inr (.inr (mem_nodes_of_mem_targetsIn e h))))
  | .comprehension _ _ es gs, h => by
      rcases List.mem_append.mp h with h | h
      · exact mem_nodes_comprehension.mpr (.inr (.inr (mem_nodes_of_mem_targetsInGenerators gs h)))
      · exact mem_nodes_comprehension.mpr (.inr (.inl (mem_nodes_of_mem_targetsInAll es h)))
  | .compound _ _ ps, h => mem_nodes_compound.mpr (.inr (mem_nodes_of_mem_targetsInAll ps h))

theorem mem_nodes_of_mem_targetsInAll :
    (es : List Expr) → t ∈ targetsInAll es → t ∈ preorderAll some es
  | [], h => nomatch h
  | e :: es, h => by
      rcases List.mem_append.mp h with h | h
      · exact mem_preorderAll_cons.mpr (.inl (mem_nodes_of_mem_targetsIn e h))
      · exact mem_preorderAll_cons.mpr (.inr (mem_nodes_of_mem_targetsInAll es h))

theorem mem_nodes_of_mem_targetsInKeywords :
    (ks : List Keyword) → t ∈ targetsInKeywords ks → t ∈ preorderKeywords some ks
  | [], h => nomatch h
  | .mk _ _ v :: ks, h => by
      rcases List.mem_append.mp h with h | h
      · exact mem_preorderKeywords_cons.mpr (.inl (mem_nodes_of_mem_targetsIn v h))
      · exact mem_preorderKeywords_cons.mpr (.inr (mem_nodes_of_mem_targetsInKeywords ks h))

theorem mem_nodes_of_mem_targetsInGenerators :
    (gs : List Generator) → t ∈ targetsInGenerators gs → t ∈ preorderGenerators some gs
  | [], h => nomatch h
  | .mk u i fs _ :: gs, h => by
      rw [targetsInGenerators] at h
      rcases List.mem_cons.mp h with rfl | h
      · exact mem_preorderGenerators_cons.mpr (.inl (self_mem_nodes _))
      · rcases List.mem_append.mp h with h | h
        · rcases List.mem_append.mp h with h | h
          · exact mem_preorderGenerators_cons.mpr (.inr (.inl (mem_nodes_of_mem_targetsIn i h)))
          · exact mem_preorderGenerators_cons.mpr
              (.inr (.inr (.inl (mem_nodes_of_mem_targetsInAll fs h))))
        · exact mem_preorderGenerators_cons.mpr
            (.inr (.inr (.inr (mem_nodes_of_mem_targetsInGenerators gs h))))

end

end Nodes

/-- The old value that an expression is makes it a call of `old`. -/
theorem isOldCall_of_oldCall? {self : String} {x : Expr} {r : OldReference}
    (h : oldCall? self x = some r) : isOldCall x = true := by
  cases x with
  | call span f as ks =>
      rw [oldCall?] at h
      split at h
      · assumption
      · cases h
  | name | constant | field | lambda | comprehension | compound => cases h

/-- On a tree whose calls of `old` are right, the targets have none of them exactly if nothing
    that stands in a target is one. -/
theorem callsInTargets_eq_nil {self : String} {e : Expr}
    (hright : ∀ x ∈ e.nodes, isOldCall x = true → ∃ r, oldCall? self x = some r) :
    callsInTargets self e = [] ↔ ∀ t ∈ targetsIn e, ∀ x ∈ t.nodes, isOldCall x = false := by
  show (targetsIn e).flatMap (fun t => t.nodes.filterMap (oldCall? self)) = [] ↔ _
  simp only [List.flatMap_eq_nil_iff, List.filterMap_eq_nil_iff]
  constructor
  · intro h t ht x hx
    rw [Bool.eq_false_iff]
    intro hold
    obtain ⟨r, hr⟩ := hright x (mem_nodes_trans hx e (mem_nodes_of_mem_targetsIn e ht)) hold
    rw [h t ht x hx] at hr
    cases hr
  · intro h t ht x hx
    cases hr : oldCall? self x with
    | none => rfl
    | some r =>
        have hold := isOldCall_of_oldCall? hr
        rw [h t ht x hx] at hold
        cases hold

/-! ## Which text is at hand -/

section Texts

variable {self : String} {show_ show' : Expr → String}

theorem reference_any_text {span : Span} {as : List Expr} {ks : List Keyword}
    {rs : List OldReference} (h : reference self show_ span as ks = .ok rs) :
    reference self show' span as ks = .ok rs := by
  unfold reference at h ⊢
  split at h
  · split at h
    · exact h
    · cases h
  · cases h

mutual

/-- What the collector finds does not depend on how operands are shown in faults. -/
theorem collect_any_text : (e : Expr) → {rs : List OldReference} →
    collect self show_ e = .ok rs → collect self show' e = .ok rs
  | .name .., rs, h | .constant .., rs, h => h
  | .field _ v _ _, rs, h => collect_any_text v h
  | .call span f as ks, rs, h => by
      rw [collect] at h ⊢
      split at h
      · rename_i hold
        rw [if_pos hold]
        exact reference_any_text h
      · rename_i hnot
        obtain ⟨xs, ys, hf, hrest, rfl⟩ := append_eq_ok.mp h
        obtain ⟨ys, zs, has, hks, rfl⟩ := append_eq_ok.mp hrest
        rw [if_neg hnot]
        exact append_eq_ok.mpr ⟨_, _, collect_any_text f hf, append_eq_ok.mpr
          ⟨_, _, collectAll_any_text as has, collectKeywords_any_text ks hks, rfl⟩, rfl⟩
  | .lambda _ _ kd ds e, rs, h => by
      obtain ⟨xs, ys, hkd, hrest, rfl⟩ := append_eq_ok.mp h
      obtain ⟨ys, zs, hds, he, rfl⟩ := append_eq_ok.mp hrest
      exact append_eq_ok.mpr ⟨_, _, collectAll_any_text kd hkd, append_eq_ok.mpr
        ⟨_, _, collectAll_any_text ds hds, collect_any_text e he, rfl⟩, rfl⟩
  | .comprehension _ _ es gs, rs, h => by
      obtain ⟨xs, ys, hes, hgs, rfl⟩ := append_eq_ok.mp h
      exact append_eq_ok.mpr
        ⟨_, _, collectAll_any_text es hes, collectGenerators_any_text gs hgs, rfl⟩
  | .compound _ _ ps, rs, h => collectAll_any_text ps h

theorem collectAll_any_text : (es : List Expr) → {rs : List OldReference} →
    collectAll self show_ es = .ok rs → collectAll self show' es = .ok rs
  | [], rs, h => h
  | e :: es, rs, h => by
      obtain ⟨xs, ys, he, hes, rfl⟩ := append_eq_ok.mp h
      exact append_eq_ok.mpr ⟨_, _, collect_any_text e he, collectAll_any_text es hes, rfl⟩

theorem collectKeywords_any_text : (ks : List Keyword) → {rs : List OldReference} →
    collectKeywords self show_ ks = .ok rs → collectKeywords self show' ks = .ok rs
  | [], rs, h => h
  | .mk _ _ v :: ks, rs, h => by
      obtain ⟨xs, ys, hv, hks, rfl⟩ := append_eq_ok.mp h
      exact append_eq_ok.mpr ⟨_, _, collect_any_text v hv, collectKeywords_any_text ks hks, rfl⟩

theorem collectGenerators_any_text : (gs : List Generator) → {rs : List OldReference} →
    collectGenerators self show_ gs = .ok rs → collectGenerators self show' gs = .ok rs
  | [], rs, h => h
  | .mk t i fs _ :: gs, rs, h => by
      obtain ⟨xs, ys, hhere, hgs, rfl⟩ := append_eq_ok.mp h
      obtain ⟨xs, zs, ht, hrest, rfl⟩ := append_eq_ok.mp hhere
      obtain ⟨zs, ws, hi, hfs, rfl⟩ := append_eq_ok.mp hrest
      have hhere := append_eq_ok.mpr ⟨_, _, collect_any_text i hi, collectAll_any_text fs hfs, rfl⟩
      exact append_eq_ok.mpr ⟨_, _, append_eq_ok.mpr ⟨_, _, collect_any_text t ht, hhere, rfl⟩,
        collectGenerators_any_text gs hgs, rfl⟩

end

end Texts

/-- The references of a tree are the same for every text. -/
theorem references_any_text {source source' : Option String} {self : String} {e : Expr}
    {rs : List OldReference} (h : references source self e = .ok rs) :
    references source' self e = .ok rs := by
  obtain ⟨found, hfound, rfl⟩ := map_eq_ok.mp h
  exact map_eq_ok.mpr ⟨found, collect_any_text e hfound, rfl⟩

/-! ## The agreement -/

/-- **LOOK-UPS ANSWER REFERENCES** but for those in targets.  A condition whose calls of `old` are
    right is rewritten; the calls that its edits replace and those that stand in targets are its
    references, each once.  The edits answer all references exactly if no target has a call of
    `old`, and exactly then the rewritten tree has none. -/
theorem lookups_answer_references {s : Strategy} {source : Option String} {e : Expr}
    {rs : List OldReference} (hlookup : s.lookup ≠ oldName)
    (h : references source s.self e = .ok rs) :
    ∃ e' cs, rewriteWithEdits s e = .ok (e', cs.map (Change.edit s)) ∧
      (replacedCalls cs ++ callsInTargets s.self e).Perm rs ∧
      ((replacedCalls cs).Perm rs ↔ callsInTargets s.self e = []) ∧
      ((∀ x ∈ e'.nodes, isOldCall x = false) ↔ callsInTargets s.self e = []) := by
  have hrewritten : rewriteWithEdits s e = .ok
      ((rewriteWith s s.shadowed e).1, (changes s s.shadowed e).map (Change.edit s)) := by
    rw [rewriteWithEdits, references_any_text h, ← edits_eq_changes]
    rfl
  have hperm : (replacedCalls (changes s s.shadowed e) ++ callsInTargets s.self e).Perm rs := by
    obtain ⟨found, hfound, rfl⟩ := map_eq_ok.mp h
    exact (perm_collect hfound s.shadowed).trans (perm_inSourceOrder found).symm
  have hright := (references_eq_ok h).2
  refine ⟨_, _, hrewritten, hperm, ?_, ?_⟩
  · constructor
    · intro hall
      have hlength := hperm.length_eq
      rw [List.length_append, ← hall.length_eq] at hlength
      exact List.length_eq_zero_iff.mp (by omega)
    · intro hnone
      rw [hnone, List.append_nil] at hperm
      exact hperm
  · rw [callsInTargets_eq_nil hright]
    constructor
    · intro hall t ht x hx
      rw [Bool.eq_false_iff]
      intro hold
      obtain ⟨hmem, -⟩ := (mem_nodes_rewriteWith hlookup).mpr ⟨t, ht, hx, hold⟩
      rw [hall x hmem] at hold
      cases hold
    · intro hnone x hx
      rw [Bool.eq_false_iff]
      intro hold
      obtain ⟨t, ht, hxt, -⟩ := (mem_nodes_rewriteWith hlookup).mp ⟨hx, hold⟩
      rw [hnone t ht x hxt] at hold
      cases hold

/-- Both look-ups of a clause that compares two old values answer its references. -/
theorem lookups_answer_references_twice : ∃ e rs,
    parse "old(total) == sum(x for x in old(rows))" = .ok e ∧
      references none selfName e = .ok rs ∧ rs.map (·.field) = ["total", "rows"] ∧
      ∃ e' cs, rewriteWithEdits {} e = .ok (e', cs.map (Change.edit {})) ∧
        (replacedCalls cs).Perm rs ∧ ∀ x ∈ e'.nodes, isOldCall x = false := by
  have hread : (parse "old(total) == sum(x for x in old(rows))").toOption.bind (fun e =>
      (references none selfName e).toOption.map fun rs =>
        (rs.map (·.field), (callsInTargets selfName e).length)) = some (["total", "rows"], 0) := by
    rw [parse_ofList]
    decide +kernel
  obtain ⟨e, he, hread⟩ := Option.bind_eq_some_iff.mp hread
  obtain ⟨rs, hrs, hread⟩ := Option.map_eq_some_iff.mp hread
  obtain ⟨hfields, hnone⟩ := Prod.mk.inj hread
  have he := toOption_eq_some.mp he
  have hrs := toOption_eq_some.mp hrs
  have hnone := List.length_eq_zero_iff.mp hnone
  obtain ⟨e', cs, hrewritten, -, hall, hleft⟩ :=
    lookups_answer_references (s := {}) (by decide) hrs
  exact ⟨e, rs, he, hrs, hfields, e', cs, hrewritten, hall.mpr hnone, hleft.mpr hnone⟩

/-- A reference in a target is found, and nothing is looked up for it: the call of `old` stays. -/
theorem lookups_answer_references_fails : ∃ e rs e' edits,
    parse "[1 for d[old(total)] in rows] == []" = .ok e ∧
      references none selfName e = .ok rs ∧ rewriteWithEdits {} e = .ok (e', edits) ∧
      rs.map (·.field) = ["total"] ∧ edits = [] ∧ ∃ x ∈ e'.nodes, isOldCall x = true := by
  have hread : (parse "[1 for d[old(total)] in rows] == []").toOption.bind (fun e =>
      (references none selfName e).toOption.bind fun rs => (rewriteWithEdits {} e).toOption.map
        fun r => (rs.map (·.field), r.2.length, r.1.nodes.any isOldCall))
      = some (["total"], 0, true) := by
    rw [parse_ofList]
    decide +kernel
  obtain ⟨e, he, hread⟩ := Option.bind_eq_some_iff.mp hread
  obtain ⟨rs, hrs, hread⟩ := Option.bind_eq_some_iff.mp hread
  obtain ⟨⟨e', edits⟩, hr, hread⟩ := Option.map_eq_some_iff.mp hread
  obtain ⟨hfields, hread⟩ := Prod.mk.inj hread
  obtain ⟨hedits, hleft⟩ := Prod.mk.inj hread
  exact ⟨e, rs, e', edits, toOption_eq_some.mp he, toOption_eq_some.mp hrs,
    toOption_eq_some.mp hr, hfields, List.length_eq_zero_iff.mp hedits,
    List.any_eq_true.mp hleft⟩

end Covenant.Condition
