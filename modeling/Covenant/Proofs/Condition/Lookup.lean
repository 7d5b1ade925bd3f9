import Covenant.Condition.Rewrite
import Covenant.Proofs.Condition.OldCalls

/-! # Look-ups — what a rewritten condition asks the store for

    Rewriting puts look-ups in the place of calls of `old`.  A condition that
    does not read the store itself looks up nothing else, so each look-up of
    the rewritten tree stems from a call of `old` (`lookups_rewriteWith`).

    The induction follows the trees; its invariant is that every node is
    `Fine`, which the checks of a condition ensure. -/

namespace Covenant.Condition

open Text Covenant.Tree

/-- The field that an expression looks up, if it is a look-up. -/
def lookupField? : Expr → Option String
  | .call _ (.name _ id .load) [.constant _ (.str f _)] [] =>
    if id = lookupName then some f else none
  | _ => none

/-- The fields that a tree looks up, at any place. -/
def lookups (e : Expr) : List String := e.preorder lookupField?

/-- A node that does not read the store, and names a field if it is a call of `old`. -/
structure Fine (receiver : String) (x : Expr) : Prop where
  unread : ∀ span, x ≠ .name span lookupName .load
  right : isOldCall x = true → ∃ r, oldCall? receiver x = some r

/-! ## Nothing else is looked up -/

/-- A look-up reads the store. -/
theorem exists_of_lookupField? {x : Expr} {f : String} (h : lookupField? x = some f) :
    ∃ span, Expr.name span lookupName .load ∈ x.nodes := by
  unfold lookupField? at h
  split at h
  · rename_i s s' id s'' g m
    split at h
    · rename_i hid
      subst hid
      exact ⟨s', mem_nodes_call.mpr (.inr (.inl (self_mem_nodes _)))⟩
    · cases h
  · cases h

/-- Fine nodes look up nothing. -/
theorem lookupField?_of_fine {self : String} {xs : List Expr} (hxs : ∀ x ∈ xs, Fine self x)
    (hsub : ∀ x ∈ xs, ∀ y ∈ x.nodes, y ∈ xs) : xs.filterMap lookupField? = [] := by
  rw [List.filterMap_eq_nil_iff]
  intro x hx
  cases h : lookupField? x with
  | none => rfl
  | some f =>
      obtain ⟨span, hspan⟩ := exists_of_lookupField? h
      exact absurd rfl ((hxs _ (hsub x hx _ hspan)).unread span)

theorem lookups_eq_nil {self : String} {e : Expr} (h : ∀ x ∈ e.nodes, Fine self x) :
    lookups e = [] := by
  unfold lookups
  rw [preorder_eq_filterMap]
  exact lookupField?_of_fine h fun x hx y hy => mem_nodes_trans hy e hx

/-! ## Rewriting -/

section Rewrite

variable {s : Strategy} {bound : List String}

/-- Rewriting makes no new names but inside of fields and look-ups. -/
theorem eq_name_of_rewriteWith {e : Expr} {span : Span} {id : String} {a : Access}
    (h : (rewriteWith s bound e).1 = .name span id a) : e = .name span id a := by
  cases e with
  | name span' id' a' =>
      unfold rewriteWith at h
      split at h
      · cases h
      · exact h
  | call span' f as ks =>
      unfold rewriteWith at h
      split at h <;> cases h
  | constant | field | lambda | comprehension | compound => cases h

/-- A call that is none of `old` stays one that is no look-up. -/
theorem lookupField?_call {span : Span} {f : Expr} {as : List Expr} {ks : List Keyword}
    {self : String} (hf : Fine self f) :
    lookupField? (.call span (rewriteWith s bound f).1 as ks) = none := by
  cases h : lookupField? (.call span (rewriteWith s bound f).1 as ks) with
  | none => rfl
  | some g =>
      unfold lookupField? at h
      split at h
      · rename_i heq
        obtain ⟨-, hname, -, -⟩ := Expr.call.inj heq
        split at h
        · rename_i hid
          subst hid
          exact absurd (eq_name_of_rewriteWith hname) (hf.unread _)
        · cases h
      · cases h

/-- Where a call of `old` stood, its field is looked up. -/
theorem lookups_lookupCall (hs : s.lookup = lookupName) (span : Span) (f : String) :
    lookups (lookupCall s span f) = [f] := by
  unfold lookupCall
  rw [hs]
  rfl

/-- The field of a call of `old` is the one that is looked up. -/
theorem lookedUpField_eq {span : Span} {f : Expr} {as : List Expr} {ks : List Keyword}
    {r : OldReference} (h : oldCall? s.self (.call span f as ks) = some r) :
    lookedUpField s as = r.field := by
  unfold oldCall? at h
  dsimp only at h
  split at h
  · obtain ⟨field, hfield, rfl⟩ := Option.map_eq_some_iff.mp h
    unfold lookedUpField
    rw [hfield]
    rfl
  · cases h

mutual

/-- What a rewritten tree looks up are fields of its calls of `old`. -/
theorem lookups_rewriteWith (hs : s.lookup = lookupName) : (e : Expr) → (bound : List String) →
    (∀ x ∈ e.nodes, Fine s.self x) → ∀ f ∈ (rewriteWith s bound e).1.preorder lookupField?,
      ∃ x ∈ e.nodes, ∃ r, oldCall? s.self x = some r ∧ r.field = f
  | .name span id a, bound, _, f, hf => by
      unfold rewriteWith at hf
      split at hf <;> exact nomatch hf
  | .constant .., _, _, f, hf => nomatch hf
  | .field _ v _ _, bound, h, f, hf => by
      obtain ⟨x, hx, hr⟩ :=
        lookups_rewriteWith hs v bound (fun x hx => h x (mem_nodes_field.mpr (.inr hx))) f hf
      exact ⟨x, mem_nodes_field.mpr (.inr hx), hr⟩
  | .call span g as ks, bound, h, f, hf => by
      have hself := self_mem_nodes (.call span g as ks)
      by_cases hold : isOldCall (.call span g as ks) = true
      · obtain ⟨r, hr⟩ := (h _ hself).right hold
        unfold rewriteWith at hf
        rw [if_pos hold] at hf
        have hmem : f ∈ lookups (lookupCall s span (lookedUpField s as)) := hf
        rw [lookups_lookupCall hs, List.mem_singleton, lookedUpField_eq hr] at hmem
        exact ⟨_, hself, r, hr, hmem.symm⟩
      · unfold rewriteWith at hf
        rw [if_neg hold] at hf
        simp only [Expr.preorder, List.mem_append] at hf
        have hg : Fine s.self g :=
          h g (mem_nodes_call.mpr (.inr (.inl (self_mem_nodes g))))
        rw [lookupField?_call hg] at hf
        rcases hf with ((hf | hf) | hf) | hf
        · exact nomatch hf
        · obtain ⟨x, hx, hr⟩ := lookups_rewriteWith hs g bound
            (fun x hx => h x (mem_nodes_call.mpr (.inr (.inl hx)))) f hf
          exact ⟨x, mem_nodes_call.mpr (.inr (.inl hx)), hr⟩
        · obtain ⟨x, hx, hr⟩ := lookups_rewriteAll hs as bound
            (fun x hx => h x (mem_nodes_call.mpr (.inr (.inr (.inl hx))))) f hf
          exact ⟨x, mem_nodes_call.mpr (.inr (.inr (.inl hx))), hr⟩
        · obtain ⟨x, hx, hr⟩ := lookups_rewriteKeywords hs ks bound
            (fun x hx => h x (mem_nodes_call.mpr (.inr (.inr (.inr hx))))) f hf
          exact ⟨x, mem_nodes_call.mpr (.inr (.inr (.inr hx))), hr⟩
  | .lambda _ b kd ds e, bound, h, f, hf => by
      unfold rewriteWith at hf
      simp only [Expr.preorder, List.mem_append] at hf
      rcases hf with ((hf | hf) | hf) | hf
      · exact nomatch hf
      · obtain ⟨x, hx, hr⟩ := lookups_rewriteAll hs kd bound
          (fun x hx => h x (mem_nodes_lambda.mpr (.inr (.inl hx)))) f hf
        exact ⟨x, mem_nodes_lambda.mpr (.inr (.inl hx)), hr⟩
      · obtain ⟨x, hx, hr⟩ := lookups_rewriteAll hs ds bound
          (fun x hx => h x (mem_nodes_lambda.mpr (.inr (.inr (.inl hx))))) f hf
        exact ⟨x, mem_nodes_lambda.mpr (.inr (.inr (.inl hx))), hr⟩
      · obtain ⟨x, hx, hr⟩ := lookups_rewriteWith hs e (b.names ++ bound)
          (fun x hx => h x (mem_nodes_lambda.mpr (.inr (.inr (.inr hx))))) f hf
        exact ⟨x, mem_nodes_lambda.mpr (.inr (.inr (.inr hx))), hr⟩
  | .comprehension _ _ es gs, bound, h, f, hf => by
      unfold rewriteWith at hf
      simp only [Expr.preorder, List.mem_append] at hf
      rcases hf with (hf | hf) | hf
      · exact nomatch hf
      · obtain ⟨x, hx, hr⟩ := lookups_rewriteAll hs es _
          (fun x hx => h x (mem_nodes_comprehension.mpr (.inr (.inl hx)))) f hf
        exact ⟨x, mem_nodes_comprehension.mpr (.inr (.inl hx)), hr⟩
      · obtain ⟨x, hx, hr⟩ := lookups_rewriteGenerators hs gs bound
          (fun x hx => h x (mem_nodes_comprehension.mpr (.inr (.inr hx)))) f hf
        exact ⟨x, mem_nodes_comprehension.mpr (.inr (.inr hx)), hr⟩
  | .compound _ _ ps, bound, h, f, hf => by
      obtain ⟨x, hx, hr⟩ := lookups_rewriteAll hs ps bound
        (fun x hx => h x (mem_nodes_compound.mpr (.inr hx))) f hf
      exact ⟨x, mem_nodes_compound.mpr (.inr hx), hr⟩

theorem lookups_rewriteAll (hs : s.lookup = lookupName) :
    (es : List Expr) → (bound : List String) → (∀ x ∈ preorderAll some es, Fine s.self x) →
    ∀ f ∈ preorderAll lookupField? (rewriteAll s bound es).1,
      ∃ x ∈ preorderAll some es, ∃ r, oldCall? s.self x = some r ∧ r.field = f
  | [], _, _, f, hf => nomatch hf
  | e :: es, bound, h, f, hf => by
      unfold rewriteAll at hf
      rcases List.mem_append.mp hf with hf | hf
      · obtain ⟨x, hx, hr⟩ := lookups_rewriteWith hs e bound
          (fun x hx => h x (mem_preorderAll_cons.mpr (.inl hx))) f hf
        exact ⟨x, mem_preorderAll_cons.mpr (.inl hx), hr⟩
      · obtain ⟨x, hx, hr⟩ := lookups_rewriteAll hs es bound
          (fun x hx => h x (mem_preorderAll_cons.mpr (.inr hx))) f hf
        exact ⟨x, mem_preorderAll_cons.mpr (.inr hx), hr⟩

theorem lookups_rewriteKeywords (hs : s.lookup = lookupName) :
    (ks : List Keyword) → (bound : List String) → (∀ x ∈ preorderKeywords some ks, Fine s.self x) →
    ∀ f ∈ preorderKeywords lookupField? (rewriteKeywords s bound ks).1,
      ∃ x ∈ preorderKeywords some ks, ∃ r, oldCall? s.self x = some r ∧ r.field = f
  | [], _, _, f, hf => nomatch hf
  | .mk _ _ v :: ks, bound, h, f, hf => by
      unfold rewriteKeywords at hf
      rcases List.mem_append.mp hf with hf | hf
      · obtain ⟨x, hx, hr⟩ := lookups_rewriteWith hs v bound
          (fun x hx => h x (mem_preorderKeywords_cons.mpr (.inl hx))) f hf
        exact ⟨x, mem_preorderKeywords_cons.mpr (.inl hx), hr⟩
      · obtain ⟨x, hx, hr⟩ := lookups_rewriteKeywords hs ks bound
          (fun x hx => h x (mem_preorderKeywords_cons.mpr (.inr hx))) f hf
        exact ⟨x, mem_preorderKeywords_cons.mpr (.inr hx), hr⟩

theorem lookups_rewriteGenerators (hs : s.lookup = lookupName) :
    (gs : List Generator) → (bound : List String) →
    (∀ x ∈ preorderGenerators some gs, Fine s.self x) →
    ∀ f ∈ preorderGenerators lookupField? (rewriteGenerators s bound gs).1,
      ∃ x ∈ preorderGenerators some gs, ∃ r, oldCall? s.self x = some r ∧ r.field = f
  | [], _, _, f, hf => nomatch hf
  | .mk t i fs _ :: gs, bound, h, f, hf => by
      unfold rewriteGenerators at hf
      simp only [preorderGenerators, List.mem_append] at hf
      rcases hf with ((hf | hf) | hf) | hf
      · -- targets stay as they are
        have hnone : lookups t = [] :=
          lookups_eq_nil fun x hx => h x (mem_preorderGenerators_cons.mpr (.inl hx))
        have hmem : f ∈ lookups t := hf
        rw [hnone] at hmem
        exact nomatch hmem
      · obtain ⟨x, hx, hr⟩ := lookups_rewriteWith hs i bound
          (fun x hx => h x (mem_preorderGenerators_cons.mpr (.inr (.inl hx)))) f hf
        exact ⟨x, mem_preorderGenerators_cons.mpr (.inr (.inl hx)), hr⟩
      · obtain ⟨x, hx, hr⟩ := lookups_rewriteAll hs fs _
          (fun x hx => h x (mem_preorderGenerators_cons.mpr (.inr (.inr (.inl hx))))) f hf
        exact ⟨x, mem_preorderGenerators_cons.mpr (.inr (.inr (.inl hx))), hr⟩
      · obtain ⟨x, hx, hr⟩ := lookups_rewriteGenerators hs gs _
          (fun x hx => h x (mem_preorderGenerators_cons.mpr (.inr (.inr (.inr hx))))) f hf
        exact ⟨x, mem_preorderGenerators_cons.mpr (.inr (.inr (.inr hx))), hr⟩

end

end Rewrite

end Covenant.Condition
