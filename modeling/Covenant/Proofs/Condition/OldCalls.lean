import Covenant.Condition.Old
import Covenant.Proofs.Tree.Marks
import Covenant.Proofs.Weaving.Outcome
import Mathlib.Data.List.Induction
import Mathlib.Data.List.Nodup
import Mathlib.Data.List.Pairwise

/-! # Calls of `old` — what the collector finds, and in which order

    The collector walks a tree, sorts what it finds by place, and names each
    field once.

    * On a condition that it accepts, it finds all calls of `old`, and nothing
      inside of them is another one (`collect_eq_ok`).
    * Sorting keeps the calls and puts them in source order, and the fields
      are named once, in the order of their first calls. -/

namespace Covenant.Condition

open Text Covenant.Tree

/-- The old value that an expression is, if it is a call of `old`. -/
def oldCall? (self : String) : Expr → Option OldReference
  | .call span f as ks =>
    if isOldCall (.call span f as ks) then
      (as.head?.bind (operandField self)).map fun field => ⟨field, span⟩
    else none
  | _ => none

/-- The calls of `old` in a tree, at any place. -/
def oldCalls (self : String) (e : Expr) : List OldReference := e.nodes.filterMap (oldCall? self)

/-- What a call of `old` stands for, if it is right; nothing for other expressions. -/
def oldMark? (self : String) (e : Expr) : Option (Option OldReference) :=
  if isOldCall e then some (oldCall? self e) else none

/-! ## Collecting -/

theorem append_eq_ok {a b : Found} {rs : List OldReference} :
    a.append b = .ok rs ↔ ∃ xs ys, a = .ok xs ∧ b = .ok ys ∧ rs = xs ++ ys := by
  unfold Found.append
  rw [bind_eq_ok]
  constructor
  · rintro ⟨xs, ha, h⟩
    obtain ⟨ys, hb, h⟩ := bind_eq_ok.mp h
    cases h
    exact ⟨xs, ys, ha, hb, rfl⟩
  · rintro ⟨xs, ys, ha, hb, rfl⟩
    exact ⟨xs, ha, bind_eq_ok.mpr ⟨ys, hb, rfl⟩⟩

section Collect

variable {self : String} {show_ : Expr → String}

/-- An operand that names a field has no calls in it. -/
theorem preorder_operand {operand : Expr} {field : String}
    (h : operandField self operand = some field) :
    operand.preorder (oldMark? self) = [] := by
  unfold operandField at h
  split at h
  · rfl
  · rfl
  · cases h

/-- A call of `old` that is right is the only one in its tree. -/
theorem reference_eq_ok {span : Span} {f : Expr} {as : List Expr} {ks : List Keyword}
    {rs : List OldReference} (hold : isOldCall (.call span f as ks) = true)
    (h : reference self show_ span as ks = .ok rs) :
    rs.map some = (Expr.call span f as ks).preorder (oldMark? self) := by
  have hname : ∃ s id a, f = .name s id a := by
    unfold isOldCall at hold
    split at hold
    · rename_i heq
      cases heq
      exact ⟨_, _, _, rfl⟩
    · cases hold
  obtain ⟨s, id, a, rfl⟩ := hname
  unfold reference at h
  split at h
  · rename_i operand
    split at h
    · rename_i field hfield
      cases h
      have hcall : oldMark? self (.call span (.name s id a) [operand] [])
          = some (some ⟨field, span⟩) := by
        simp only [oldMark?, oldCall?, hold, if_true, List.head?_cons, Option.bind_some, hfield,
          Option.map_some]
      simp only [Expr.preorder, preorderAll, preorderKeywords, preorder_operand hfield, hcall]
      rfl
    · cases h
  · cases h

mutual

/-- The collector meets every call of `old`, and finds it right. -/
theorem map_some_collect : (e : Expr) → {rs : List OldReference} →
    collect self show_ e = .ok rs → rs.map some = e.preorder (oldMark? self)
  | .name .., rs, h | .constant .., rs, h => by
      cases h
      rfl
  | .field _ v _ _, rs, h => map_some_collect v h
  | .call s f as ks, rs, h => by
      unfold collect at h
      split at h
      · rename_i hold
        exact reference_eq_ok hold h
      · rename_i hnot
        obtain ⟨xs, ys, hf, hrest, rfl⟩ := append_eq_ok.1 h
        obtain ⟨ys, zs, has, hks, rfl⟩ := append_eq_ok.1 hrest
        have hnone : oldMark? self (.call s f as ks) = none := if_neg hnot
        rw [List.map_append, List.map_append, map_some_collect f hf, map_some_collectAll as has,
          map_some_collectKeywords ks hks, Expr.preorder, hnone, ← List.append_assoc]
        rfl
  | .lambda _ _ kd ds e, rs, h => by
      obtain ⟨xs, ys, hkd, hrest, rfl⟩ := append_eq_ok.1 h
      obtain ⟨ys, zs, hds, he, rfl⟩ := append_eq_ok.1 hrest
      rw [List.map_append, List.map_append, map_some_collectAll kd hkd,
        map_some_collectAll ds hds, map_some_collect e he, Expr.preorder, ← List.append_assoc]
      rfl
  | .comprehension _ _ es gs, rs, h => by
      obtain ⟨xs, ys, hes, hgs, rfl⟩ := append_eq_ok.1 h
      rw [List.map_append, map_some_collectAll es hes, map_some_collectGenerators gs hgs,
        Expr.preorder]
      rfl
  | .compound _ _ ps, rs, h => map_some_collectAll ps h

theorem map_some_collectAll : (es : List Expr) → {rs : List OldReference} →
    collectAll self show_ es = .ok rs → rs.map some = preorderAll (oldMark? self) es
  | [], rs, h => by
      cases h
      rfl
  | e :: es, rs, h => by
      obtain ⟨xs, ys, he, hes, rfl⟩ := append_eq_ok.1 h
      rw [List.map_append, map_some_collect e he, map_some_collectAll es hes, preorderAll]

theorem map_some_collectKeywords : (ks : List Keyword) → {rs : List OldReference} →
    collectKeywords self show_ ks = .ok rs → rs.map some = preorderKeywords (oldMark? self) ks
  | [], rs, h => by
      cases h
      rfl
  | .mk _ _ v :: ks, rs, h => by
      obtain ⟨xs, ys, hv, hks, rfl⟩ := append_eq_ok.1 h
      rw [List.map_append, map_some_collect v hv, map_some_collectKeywords ks hks,
        preorderKeywords]

theorem map_some_collectGenerators : (gs : List Generator) → {rs : List OldReference} →
    collectGenerators self show_ gs = .ok rs → rs.map some = preorderGenerators (oldMark? self) gs
  | [], rs, h => by
      cases h
      rfl
  | .mk t i fs _ :: gs, rs, h => by
      obtain ⟨xs, ys, hhere, hgs, rfl⟩ := append_eq_ok.1 h
      obtain ⟨xs, zs, ht, hrest, rfl⟩ := append_eq_ok.1 hhere
      obtain ⟨zs, ws, hi, hfs, rfl⟩ := append_eq_ok.1 hrest
      rw [List.map_append, List.map_append, List.map_append, map_some_collect t ht,
        map_some_collect i hi, map_some_collectAll fs hfs, map_some_collectGenerators gs hgs,
        preorderGenerators, ← List.append_assoc]

end

/-- **THE COLLECTOR FINDS ALL CALLS** of `old` of a tree that it accepts, in the order of a
    walk, and each names a field. -/
theorem collect_eq_ok {e : Expr} {rs : List OldReference} (h : collect self show_ e = .ok rs) :
    rs = oldCalls self e ∧
      ∀ x ∈ e.nodes, isOldCall x = true → ∃ r, oldCall? self x = some r := by
  have hmarks := map_some_collect e h
  rw [preorder_eq_filterMap] at hmarks
  constructor
  · have hcalls : ∀ x, (oldMark? self x).join = oldCall? self x := by
      intro x
      unfold oldMark?
      split
      · rfl
      · rename_i hnot
        unfold oldCall?
        split
        · rw [if_neg hnot]
          rfl
        · rfl
    calc rs = (rs.map some).filterMap id := by rw [List.filterMap_map]; simp
      _ = (e.nodes.filterMap (oldMark? self)).filterMap id := by rw [hmarks]
      _ = e.nodes.filterMap (oldCall? self) := by
          rw [List.filterMap_filterMap]
          congr
          funext x
          exact hcalls x
  · intro x hx hold
    have hmem : oldCall? self x ∈ rs.map some := by
      rw [hmarks]
      exact List.mem_filterMap.mpr ⟨x, hx, if_pos hold⟩
    obtain ⟨r, -, hr⟩ := List.mem_map.mp hmem
    exact ⟨r, hr.symm⟩

end Collect

/-! ## Source order -/

/-- A reference that stands at the place of another one or before it. -/
def OldReference.NotAfter (r s : OldReference) : Prop := s.span.start.before r.span.start = false

theorem before_iff {p q : Pos} :
    p.before q = true ↔ p.line < q.line ∨ p.line = q.line ∧ p.col < q.col := by
  unfold Pos.before
  simp

theorem not_before_iff {p q : Pos} :
    p.before q = false ↔ q.line < p.line ∨ p.line = q.line ∧ q.col ≤ p.col := by
  rw [← Bool.not_eq_true, before_iff]
  omega

theorem OldReference.NotAfter.trans {r s t : OldReference} (hrs : r.NotAfter s)
    (hst : s.NotAfter t) : r.NotAfter t := by
  unfold NotAfter at *
  rw [not_before_iff] at *
  omega

theorem notAfter_of_before {r s : OldReference} (h : r.span.start.before s.span.start = true) :
    r.NotAfter s := by
  unfold OldReference.NotAfter
  rw [not_before_iff]
  rw [before_iff] at h
  omega

theorem perm_insertReference (r : OldReference) (xs : List OldReference) :
    (insertReference r xs).Perm (r :: xs) := by
  induction xs with
  | nil => exact .refl _
  | cons x xs ih =>
      unfold insertReference
      split
      · exact .refl _
      · exact (ih.cons x).trans (.swap r x xs)

theorem pairwise_insertReference {r : OldReference} {xs : List OldReference}
    (h : xs.Pairwise OldReference.NotAfter) :
    (insertReference r xs).Pairwise OldReference.NotAfter := by
  induction xs with
  | nil => exact List.pairwise_singleton _ _
  | cons x xs ih =>
      obtain ⟨hx, hxs⟩ := List.pairwise_cons.mp h
      unfold insertReference
      split
      · rename_i hbefore
        have hrx := notAfter_of_before hbefore
        refine List.pairwise_cons.mpr ⟨?_, h⟩
        intro y hy
        rcases List.mem_cons.mp hy with rfl | hy
        · exact hrx
        · exact hrx.trans (hx y hy)
      · rename_i hnot
        refine List.pairwise_cons.mpr ⟨?_, ih hxs⟩
        intro y hy
        rcases List.mem_cons.mp ((perm_insertReference r xs).mem_iff.mp hy) with rfl | hy
        · exact Bool.eq_false_iff.mpr hnot
        · exact hx y hy

/-- What is put in source order is kept. -/
theorem perm_inSourceOrder (rs : List OldReference) : (inSourceOrder rs).Perm rs := by
  induction rs using List.reverseRecOn with
  | nil => exact .refl _
  | append_singleton rs r ih =>
      unfold inSourceOrder at ih ⊢
      rw [List.foldl_append]
      have hmoved := (ih.cons r).trans (List.perm_append_singleton r rs).symm
      exact (perm_insertReference r _).trans hmoved

/-- What is put in source order is in source order. -/
theorem pairwise_inSourceOrder (rs : List OldReference) :
    (inSourceOrder rs).Pairwise OldReference.NotAfter := by
  induction rs using List.reverseRecOn with
  | nil => exact .nil
  | append_singleton rs r ih =>
      unfold inSourceOrder at ih ⊢
      rw [List.foldl_append]
      exact pairwise_insertReference ih

/-- The references of a condition are its calls of `old`, sorted. -/
theorem references_eq_ok {source : Option String} {self : String} {e : Expr}
    {rs : List OldReference} (h : references source self e = .ok rs) :
    rs = inSourceOrder (oldCalls self e) ∧
      ∀ x ∈ e.nodes, isOldCall x = true → ∃ r, oldCall? self x = some r := by
  obtain ⟨found, hfound, rfl⟩ := map_eq_ok.mp h
  obtain ⟨rfl, hright⟩ := collect_eq_ok hfound
  exact ⟨rfl, hright⟩

/-! ## Fields named once -/

theorem distinctFields_append_singleton (rs : List OldReference) (r : OldReference) :
    distinctFields (rs ++ [r]) =
      if r.field ∈ distinctFields rs then distinctFields rs
      else distinctFields rs ++ [r.field] := by
  unfold distinctFields
  rw [List.map_append, List.foldl_append]
  simp only [List.map_cons, List.map_nil, List.foldl_cons, List.foldl_nil,
    List.contains_iff_mem]

theorem mem_distinctFields {rs : List OldReference} {f : String} :
    f ∈ distinctFields rs ↔ ∃ r ∈ rs, r.field = f := by
  induction rs using List.reverseRecOn with
  | nil => simp [distinctFields]
  | append_singleton rs r ih =>
      have hlast : (∃ x ∈ rs ++ [r], x.field = f) ↔ (∃ x ∈ rs, x.field = f) ∨ r.field = f := by
        simp [or_and_right, exists_or]
      rw [distinctFields_append_singleton, hlast, ← ih]
      split
      · rename_i hmem
        constructor
        · exact .inl
        · rintro (h | rfl)
          · exact h
          · exact hmem
      · rw [List.mem_append, List.mem_singleton, eq_comm (a := f)]

theorem nodup_distinctFields (rs : List OldReference) : (distinctFields rs).Nodup := by
  induction rs using List.reverseRecOn with
  | nil => exact .nil
  | append_singleton rs r ih =>
      rw [distinctFields_append_singleton]
      split
      · exact ih
      · rename_i hnew
        exact List.nodup_append.mpr ⟨ih, List.nodup_singleton _, by
          intro f hf g hg
          rw [List.mem_singleton.mp hg]
          rintro rfl
          exact hnew hf⟩

/-- Fields are named in the order in which references to them come first. -/
theorem pairwise_distinctFields {β : Type} {R : β → β → Prop} {k : β → OldReference}
    {xs : List β} (h : xs.Pairwise R) :
    (distinctFields (xs.map k)).Pairwise fun f g =>
      ∃ x ∈ xs, (k x).field = f ∧ ∀ y ∈ xs, (k y).field = g → R x y := by
  induction xs using List.reverseRecOn with
  | nil => exact .nil
  | append_singleton xs z ih =>
      obtain ⟨hxs, -, hz⟩ := List.pairwise_append.mp h
      -- a reference that came first still does: what is new stands behind it
      have hkeep : (distinctFields (xs.map k)).Pairwise fun f g =>
          ∃ x ∈ xs ++ [z], (k x).field = f ∧ ∀ y ∈ xs ++ [z], (k y).field = g → R x y := by
        refine (ih hxs).imp ?_
        rintro f g ⟨x, hx, hf, hall⟩
        refine ⟨x, List.mem_append_left _ hx, hf, ?_⟩
        intro y hy hg
        rcases List.mem_append.mp hy with hy | hy
        · exact hall y hy hg
        · exact hz x hx y hy
      rw [List.map_append, List.map_cons, List.map_nil, distinctFields_append_singleton]
      split
      · exact hkeep
      · rename_i hnew
        refine List.pairwise_append.mpr ⟨hkeep, List.pairwise_singleton _ _, ?_⟩
        intro f hf g hg
        rw [List.mem_singleton.mp hg]
        obtain ⟨r, hr, hrf⟩ := mem_distinctFields.1 hf
        obtain ⟨x, hx, rfl⟩ := List.mem_map.mp hr
        refine ⟨x, List.mem_append_left _ hx, hrf, ?_⟩
        intro y hy hyg
        rcases List.mem_append.mp hy with hy | hy
        · exact absurd (mem_distinctFields.2 ⟨k y, List.mem_map_of_mem hy, hyg⟩) hnew
        · exact hz x hx y hy

/-! ## Several clauses -/

/-- The clause with a number has a call of `old`. -/
def OccursAt (trees : List Expr) (i : Nat) (r : OldReference) : Prop :=
  ∃ e, trees[i]? = some e ∧ r ∈ oldCalls selfName e

/-- The first call for one field stands before all calls for another one: in an earlier clause,
    or earlier in the same clause. -/
def FirstBefore (trees : List Expr) (f g : String) : Prop :=
  ∃ i r, OccursAt trees i r ∧ r.field = f ∧
    ∀ j s, OccursAt trees j s → s.field = g → i < j ∨ i = j ∧ r.NotAfter s

/-- The calls of several clauses with the numbers of their clauses, clause by clause and in
    source order. -/
def occurrencesFrom (n : Nat) : List Expr → List (Nat × OldReference)
  | [] => []
  | e :: es => (inSourceOrder (oldCalls selfName e)).map (n, ·) ++ occurrencesFrom (n + 1) es

theorem mem_occurrencesFrom {trees : List Expr} {n i : Nat} {r : OldReference} :
    (i, r) ∈ occurrencesFrom n trees ↔ ∃ k, i = n + k ∧ OccursAt trees k r := by
  induction trees generalizing n with
  | nil =>
      constructor
      · intro h
        exact nomatch h
      · rintro ⟨k, -, e, he, -⟩
        cases he
  | cons e es ih =>
      unfold occurrencesFrom
      rw [List.mem_append, ih]
      constructor
      · rintro (h | ⟨k, rfl, e', he', hr⟩)
        · obtain ⟨r', hr', heq⟩ := List.mem_map.mp h
          cases heq
          exact ⟨0, rfl, e, rfl, (perm_inSourceOrder _).mem_iff.mp hr'⟩
        · exact ⟨k + 1, by omega, e', he', hr⟩
      · rintro ⟨k, rfl, e', he', hr⟩
        cases k with
        | zero =>
            cases he'
            exact .inl (List.mem_map_of_mem ((perm_inSourceOrder _).mem_iff.mpr hr))
        | succ k => exact .inr ⟨k, by omega, e', he', hr⟩

theorem pairwise_occurrencesFrom (trees : List Expr) (n : Nat) :
    (occurrencesFrom n trees).Pairwise fun x y =>
      x.1 < y.1 ∨ x.1 = y.1 ∧ x.2.NotAfter y.2 := by
  induction trees generalizing n with
  | nil => exact .nil
  | cons e es ih =>
      refine List.pairwise_append.mpr ⟨?_, ih (n + 1), ?_⟩
      · refine List.pairwise_map.mpr ((pairwise_inSourceOrder _).imp ?_)
        intro r s h
        exact .inr ⟨rfl, h⟩
      · intro x hx y hy
        obtain ⟨r, -, rfl⟩ := List.mem_map.mp hx
        obtain ⟨k, hk, -⟩ := mem_occurrencesFrom.1 (show (y.1, y.2) ∈ _ from hy)
        exact .inl (by dsimp only; omega)

theorem map_snd_occurrencesFrom (trees : List Expr) (n : Nat) :
    (occurrencesFrom n trees).map (·.2)
      = (trees.map fun e => inSourceOrder (oldCalls selfName e)).flatten := by
  induction trees generalizing n with
  | nil => rfl
  | cons e es ih =>
      unfold occurrencesFrom
      rw [List.map_append, List.map_map, ih]
      simp [Function.comp_def]

/-- **FIELDS ARE NAMED ONCE**, all that the clauses name and in the order of first calls. -/
theorem distinctFields_occurrences (trees : List Expr) :
    let fields := distinctFields (trees.map fun e => inSourceOrder (oldCalls selfName e)).flatten
    (∀ f, f ∈ fields ↔ ∃ i r, OccursAt trees i r ∧ r.field = f) ∧ fields.Nodup ∧
      fields.Pairwise (FirstBefore trees) := by
  intro fields
  refine ⟨?_, nodup_distinctFields _, ?_⟩
  · intro f
    rw [mem_distinctFields, ← map_snd_occurrencesFrom trees 0]
    constructor
    · rintro ⟨r, hr, hf⟩
      obtain ⟨⟨i, r⟩, hx, rfl⟩ := List.mem_map.mp hr
      obtain ⟨k, -, hk⟩ := mem_occurrencesFrom.1 hx
      exact ⟨k, r, hk, hf⟩
    · rintro ⟨i, r, hr, hf⟩
      exact ⟨r, List.mem_map.mpr ⟨(i, r), mem_occurrencesFrom.2 ⟨i, by omega, hr⟩, rfl⟩, hf⟩
  · have h := pairwise_distinctFields (k := (·.2)) (pairwise_occurrencesFrom trees 0)
    rw [map_snd_occurrencesFrom] at h
    refine h.imp ?_
    rintro f g ⟨⟨i, r⟩, hx, hf, hall⟩
    obtain ⟨k, hik, hk⟩ := mem_occurrencesFrom.1 hx
    refine ⟨k, r, hk, hf, ?_⟩
    intro j s hs hg
    have hy := hall (j, s) (mem_occurrencesFrom.2 ⟨j, by omega, hs⟩) hg
    obtain rfl : i = k := by omega
    exact hy

end Covenant.Condition
