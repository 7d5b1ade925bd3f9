import Covenant.Condition.Rewrite
import Covenant.Machine.Scope
import Covenant.Proofs.Tree.Marks

/-! # Insertions — the names that rewriting adds, and where

    Rewriting inserts two names that the text does not have: that of the store
    of captured values and that of the instance.  `insertions` follows the
    rewriter and records, for each, the scopes around its place.

    * `edit_insertions`: there is one insertion for each edit of the rewriter.
    * `readings_insertions`: each of them is a name that the rewritten tree
      reads in just these scopes; `readings` knows nothing of rewriting and
      only says which names are local where.
    * `name_of_mem_insertions`: the instance is inserted for a field, and the
      store for a call of `old`. -/

namespace Covenant.Condition

open Covenant.Tree

/-! ## Scopes -/

/-- A name that is read, and the names that are local around it, scope by scope and the innermost
    first. -/
structure Reading where
  name : String
  scopes : List (List String)
  deriving DecidableEq

/-- The names that a comprehension makes local. -/
def targetsOf (gs : List Generator) : List String :=
  gs.flatMap fun
    | .mk t _ _ _ => Machine.targetNames t

mutual

/-- The names that a tree reads.  A `lambda` makes its parameters local in its body, and a
    comprehension its targets everywhere but in its first iterable. -/
def readings (scopes : List (List String)) : Expr → List Reading
  | .name _ id access => if access = .load then [⟨id, scopes⟩] else []
  | .constant .. => []
  | .field _ v _ _ => readings scopes v
  | .call _ f as ks => readings scopes f ++ readingsAll scopes as ++ readingsKeywords scopes ks
  | .lambda _ b kd ds e =>
    readingsAll scopes kd ++ readingsAll scopes ds ++ readings (b.names :: scopes) e
  | .comprehension _ _ es gs =>
    readingsGenerators scopes (targetsOf gs :: scopes) gs
      ++ readingsAll (targetsOf gs :: scopes) es
  | .compound _ _ ps => readingsAll scopes ps

/-- The names that several trees read. -/
def readingsAll (scopes : List (List String)) : List Expr → List Reading
  | [] => []
  | e :: es => readings scopes e ++ readingsAll scopes es

/-- The names that named arguments read. -/
def readingsKeywords (scopes : List (List String)) : List Keyword → List Reading
  | [] => []
  | .mk _ _ v :: ks => readings scopes v ++ readingsKeywords scopes ks

/-- The names that the parts of a comprehension read; the next iterable stands in the scopes
    `outer`, all else in the scopes `inner`. -/
def readingsGenerators (outer inner : List (List String)) : List Generator → List Reading
  | [] => []
  | .mk t i fs _ :: gs =>
    readings outer i ++ readings inner t ++ readingsAll inner fs
      ++ readingsGenerators inner inner gs

end

/-! ## Insertions -/

/-- A name that rewriting inserts, with the edit of the text that inserts it. -/
structure Insertion extends Reading where
  edit : Edit

section Insertions

variable (s : Strategy)

/-- The names that stand for no fields behind some parts of a comprehension. -/
def boundAfter (bound : List String) : List Generator → List String
  | [] => bound
  | .mk t _ _ _ :: gs => boundAfter (allNames t ++ bound) gs

mutual

/-- What rewriting inserts into a tree; `bound` are the names that do not stand for fields. -/
def insertions (bound : List String) (scopes : List (List String)) : Expr → List Insertion
  | .name span id access =>
    if access = .load ∧ s.fields.contains id = true ∧ bound.contains id = false then
      [{ name := s.self, scopes := scopes, edit := memberEdit s span id }]
    else []
  | .constant .. => []
  | .field _ v _ _ => insertions bound scopes v
  | .call span f as ks =>
    if isOldCall (.call span f as ks) then
      [{ name := s.lookup, scopes := scopes, edit := lookupEdit s span (lookedUpField s as) }]
    else
      insertions bound scopes f ++ insertionsAll bound scopes as
        ++ insertionsKeywords bound scopes ks
  | .lambda _ b kd ds e =>
    insertionsAll bound scopes kd ++ insertionsAll bound scopes ds
      ++ insertions (b.names ++ bound) (b.names :: scopes) e
  | .comprehension _ _ es gs =>
    insertionsGenerators bound scopes (targetsOf gs :: scopes) gs
      ++ insertionsAll (boundAfter bound gs) (targetsOf gs :: scopes) es
  | .compound _ _ ps => insertionsAll bound scopes ps

/-- What rewriting inserts into several trees. -/
def insertionsAll (bound : List String) (scopes : List (List String)) : List Expr → List Insertion
  | [] => []
  | e :: es => insertions bound scopes e ++ insertionsAll bound scopes es

/-- What rewriting inserts into named arguments. -/
def insertionsKeywords (bound : List String) (scopes : List (List String)) :
    List Keyword → List Insertion
  | [] => []
  | .mk _ _ v :: ks => insertions bound scopes v ++ insertionsKeywords bound scopes ks

/-- What rewriting inserts into the parts of a comprehension. -/
def insertionsGenerators (bound : List String) (outer inner : List (List String)) :
    List Generator → List Insertion
  | [] => []
  | .mk t i fs _ :: gs =>
    insertions bound outer i ++ insertionsAll (allNames t ++ bound) inner fs
      ++ insertionsGenerators (allNames t ++ bound) inner inner gs

end

/-! ## Edits -/

/-- The rewriter goes on behind a comprehension's parts with the names they bind. -/
theorem bound_rewriteGenerators (gs : List Generator) (bound : List String) :
    (rewriteGenerators s bound gs).2.1 = boundAfter bound gs := by
  induction gs generalizing bound with
  | nil => rfl
  | cons g gs ih =>
      obtain ⟨t, i, fs, a⟩ := g
      exact ih (allNames t ++ bound)

mutual

/-- There is one insertion for each edit. -/
theorem edit_insertions : (e : Expr) → (bound : List String) → (scopes : List (List String)) →
    (insertions s bound scopes e).map (·.edit) = (rewriteWith s bound e).2
  | .name .., bound, scopes => by
      unfold insertions rewriteWith
      split <;> rfl
  | .constant .., _, _ => rfl
  | .field _ v _ _, bound, scopes => edit_insertions v bound scopes
  | .call span f as ks, bound, scopes => by
      unfold insertions rewriteWith
      split
      · rfl
      · rw [List.map_append, List.map_append, edit_insertions f, edit_insertionsAll as,
          edit_insertionsKeywords ks]
  | .lambda _ b kd ds e, bound, scopes => by
      rw [insertions, List.map_append, List.map_append, edit_insertionsAll kd,
        edit_insertionsAll ds, edit_insertions e]
      rfl
  | .comprehension _ _ es gs, bound, scopes => by
      rw [insertions, List.map_append, edit_insertionsGenerators gs, edit_insertionsAll es,
        ← bound_rewriteGenerators s]
      rfl
  | .compound _ _ ps, bound, scopes => edit_insertionsAll ps bound scopes

theorem edit_insertionsAll : (es : List Expr) → (bound : List String) →
    (scopes : List (List String)) →
    (insertionsAll s bound scopes es).map (·.edit) = (rewriteAll s bound es).2
  | [], _, _ => rfl
  | e :: es, bound, scopes => by
      rw [insertionsAll, List.map_append, edit_insertions e, edit_insertionsAll es]
      rfl

theorem edit_insertionsKeywords : (ks : List Keyword) → (bound : List String) →
    (scopes : List (List String)) →
    (insertionsKeywords s bound scopes ks).map (·.edit) = (rewriteKeywords s bound ks).2
  | [], _, _ => rfl
  | .mk _ _ v :: ks, bound, scopes => by
      rw [insertionsKeywords, List.map_append, edit_insertions v, edit_insertionsKeywords ks]
      rfl

theorem edit_insertionsGenerators : (gs : List Generator) → (bound : List String) →
    (outer inner : List (List String)) →
    (insertionsGenerators s bound outer inner gs).map (·.edit) = (rewriteGenerators s bound gs).2.2
  | [], _, _, _ => rfl
  | .mk t i fs _ :: gs, bound, outer, inner => by
      rw [insertionsGenerators, List.map_append, List.map_append, edit_insertions i,
        edit_insertionsAll fs, edit_insertionsGenerators gs]
      rfl

end

/-! ## Places -/

/-- Rewriting leaves the targets of a comprehension alone. -/
theorem targetsOf_rewriteGenerators (gs : List Generator) (bound : List String) :
    targetsOf (rewriteGenerators s bound gs).1 = targetsOf gs := by
  induction gs generalizing bound with
  | nil => rfl
  | cons g gs ih =>
      obtain ⟨t, i, fs, a⟩ := g
      exact congrArg (Machine.targetNames t ++ ·) (ih (allNames t ++ bound))

variable {s}

mutual

/-- What is inserted into a tree is read there, in the scopes of its place. -/
theorem readings_insertions : (e : Expr) → (bound : List String) →
    (scopes : List (List String)) → ∀ i ∈ insertions s bound scopes e,
      i.toReading ∈ readings scopes (rewriteWith s bound e).1
  | .name span id access, bound, scopes, i, hi => by
      unfold insertions at hi
      unfold rewriteWith
      split at hi
      · rename_i hfree
        rw [if_pos hfree, List.mem_singleton.mp hi]
        exact List.mem_singleton_self _
      · exact nomatch hi
  | .constant .., _, _, i, hi => nomatch hi
  | .field _ v _ _, bound, scopes, i, hi => readings_insertions v bound scopes i hi
  | .call span f as ks, bound, scopes, i, hi => by
      unfold insertions at hi
      unfold rewriteWith
      split at hi
      · rename_i hold
        rw [if_pos hold, List.mem_singleton.mp hi]
        exact List.mem_cons_self
      · rename_i hnot
        rw [if_neg hnot]
        simp only [readings, List.mem_append] at hi ⊢
        rcases hi with (hi | hi) | hi
        · exact .inl (.inl (readings_insertions f bound scopes i hi))
        · exact .inl (.inr (readings_insertionsAll as bound scopes i hi))
        · exact .inr (readings_insertionsKeywords ks bound scopes i hi)
  | .lambda _ b kd ds e, bound, scopes, i, hi => by
      unfold insertions at hi
      simp only [rewriteWith, readings, List.mem_append] at hi ⊢
      rcases hi with (hi | hi) | hi
      · exact .inl (.inl (readings_insertionsAll kd bound scopes i hi))
      · exact .inl (.inr (readings_insertionsAll ds bound scopes i hi))
      · exact .inr (readings_insertions e (b.names ++ bound) (b.names :: scopes) i hi)
  | .comprehension _ _ es gs, bound, scopes, i, hi => by
      unfold insertions at hi
      simp only [rewriteWith, readings, List.mem_append, targetsOf_rewriteGenerators,
        bound_rewriteGenerators] at hi ⊢
      rcases hi with hi | hi
      · exact .inl (readings_insertionsGenerators gs bound scopes _ i hi)
      · exact .inr (readings_insertionsAll es _ _ i hi)
  | .compound _ _ ps, bound, scopes, i, hi => readings_insertionsAll ps bound scopes i hi

theorem readings_insertionsAll : (es : List Expr) → (bound : List String) →
    (scopes : List (List String)) → ∀ i ∈ insertionsAll s bound scopes es,
      i.toReading ∈ readingsAll scopes (rewriteAll s bound es).1
  | [], _, _, i, hi => nomatch hi
  | e :: es, bound, scopes, i, hi => by
      rcases List.mem_append.mp hi with hi | hi
      · exact List.mem_append_left _ (readings_insertions e bound scopes i hi)
      · exact List.mem_append_right _ (readings_insertionsAll es bound scopes i hi)

theorem readings_insertionsKeywords : (ks : List Keyword) → (bound : List String) →
    (scopes : List (List String)) → ∀ i ∈ insertionsKeywords s bound scopes ks,
      i.toReading ∈ readingsKeywords scopes (rewriteKeywords s bound ks).1
  | [], _, _, i, hi => nomatch hi
  | .mk _ _ v :: ks, bound, scopes, i, hi => by
      rcases List.mem_append.mp hi with hi | hi
      · exact List.mem_append_left _ (readings_insertions v bound scopes i hi)
      · exact List.mem_append_right _ (readings_insertionsKeywords ks bound scopes i hi)

theorem readings_insertionsGenerators : (gs : List Generator) → (bound : List String) →
    (outer inner : List (List String)) → ∀ i ∈ insertionsGenerators s bound outer inner gs,
      i.toReading ∈ readingsGenerators outer inner (rewriteGenerators s bound gs).1
  | [], _, _, _, i, hi => nomatch hi
  | .mk t j fs _ :: gs, bound, outer, inner, i, hi => by
      simp only [insertionsGenerators, List.mem_append] at hi
      simp only [rewriteGenerators, readingsGenerators, List.mem_append]
      rcases hi with (hi | hi) | hi
      · exact .inl (.inl (.inl (readings_insertions j bound outer i hi)))
      · exact .inl (.inr (readings_insertionsAll fs _ inner i hi))
      · exact .inr (readings_insertionsGenerators gs _ inner inner i hi)

end

/-! ## Names -/

/-- Why a name is inserted: the instance for one of the fields, the store for a call of `old`
    among some nodes. -/
def Caused (s : Strategy) (nodes : List Expr) (i : Insertion) : Prop :=
  i.name = s.self ∧ s.fields ≠ [] ∨ i.name = s.lookup ∧ ∃ x ∈ nodes, isOldCall x = true

theorem Caused.mono {xs ys : List Expr} {i : Insertion} (h : Caused s xs i)
    (hsub : ∀ x ∈ xs, x ∈ ys) : Caused s ys i := by
  rcases h with h | ⟨hname, x, hx, hold⟩
  · exact .inl h
  · exact .inr ⟨hname, x, hsub x hx, hold⟩

mutual

/-- Every insertion has its cause in the tree. -/
theorem name_of_mem_insertions : (e : Expr) → (bound : List String) →
    (scopes : List (List String)) → ∀ i ∈ insertions s bound scopes e, Caused s e.nodes i
  | .name span id access, bound, scopes, i, hi => by
      unfold insertions at hi
      split at hi
      · rename_i hfree
        rw [List.mem_singleton.mp hi]
        refine .inl ⟨rfl, ?_⟩
        intro hnil
        rw [hnil] at hfree
        exact Bool.false_ne_true hfree.2.1
      · exact nomatch hi
  | .constant .., _, _, i, hi => nomatch hi
  | .field _ v _ _, bound, scopes, i, hi =>
      (name_of_mem_insertions v bound scopes i hi).mono fun x hx => mem_nodes_field.mpr (.inr hx)
  | .call span f as ks, bound, scopes, i, hi => by
      unfold insertions at hi
      split at hi
      · rename_i hold
        rw [List.mem_singleton.mp hi]
        exact .inr ⟨rfl, _, self_mem_nodes _, hold⟩
      · rcases List.mem_append.mp hi with hi | hi
        · rcases List.mem_append.mp hi with hi | hi
          · exact (name_of_mem_insertions f bound scopes i hi).mono
              fun x hx => mem_nodes_call.mpr (.inr (.inl hx))
          · exact (name_of_mem_insertionsAll as bound scopes i hi).mono
              fun x hx => mem_nodes_call.mpr (.inr (.inr (.inl hx)))
        · exact (name_of_mem_insertionsKeywords ks bound scopes i hi).mono
            fun x hx => mem_nodes_call.mpr (.inr (.inr (.inr hx)))
  | .lambda _ b kd ds e, bound, scopes, i, hi => by
      unfold insertions at hi
      rcases List.mem_append.mp hi with hi | hi
      · rcases List.mem_append.mp hi with hi | hi
        · exact (name_of_mem_insertionsAll kd bound scopes i hi).mono
            fun x hx => mem_nodes_lambda.mpr (.inr (.inl hx))
        · exact (name_of_mem_insertionsAll ds bound scopes i hi).mono
            fun x hx => mem_nodes_lambda.mpr (.inr (.inr (.inl hx)))
      · exact (name_of_mem_insertions e _ _ i hi).mono
          fun x hx => mem_nodes_lambda.mpr (.inr (.inr (.inr hx)))
  | .comprehension _ _ es gs, bound, scopes, i, hi => by
      unfold insertions at hi
      rcases List.mem_append.mp hi with hi | hi
      · exact (name_of_mem_insertionsGenerators gs bound _ _ i hi).mono
          fun x hx => mem_nodes_comprehension.mpr (.inr (.inr hx))
      · exact (name_of_mem_insertionsAll es _ _ i hi).mono
          fun x hx => mem_nodes_comprehension.mpr (.inr (.inl hx))
  | .compound _ _ ps, bound, scopes, i, hi =>
      (name_of_mem_insertionsAll ps bound scopes i hi).mono
        fun x hx => mem_nodes_compound.mpr (.inr hx)

theorem name_of_mem_insertionsAll : (es : List Expr) → (bound : List String) →
    (scopes : List (List String)) →
    ∀ i ∈ insertionsAll s bound scopes es, Caused s (preorderAll some es) i
  | [], _, _, i, hi => nomatch hi
  | e :: es, bound, scopes, i, hi => by
      rcases List.mem_append.mp hi with hi | hi
      · exact (name_of_mem_insertions e bound scopes i hi).mono
          fun x hx => mem_preorderAll_cons.mpr (.inl hx)
      · exact (name_of_mem_insertionsAll es bound scopes i hi).mono
          fun x hx => mem_preorderAll_cons.mpr (.inr hx)

theorem name_of_mem_insertionsKeywords : (ks : List Keyword) → (bound : List String) →
    (scopes : List (List String)) →
    ∀ i ∈ insertionsKeywords s bound scopes ks, Caused s (preorderKeywords some ks) i
  | [], _, _, i, hi => nomatch hi
  | .mk _ _ v :: ks, bound, scopes, i, hi => by
      rcases List.mem_append.mp hi with hi | hi
      · exact (name_of_mem_insertions v bound scopes i hi).mono
          fun x hx => mem_preorderKeywords_cons.mpr (.inl hx)
      · exact (name_of_mem_insertionsKeywords ks bound scopes i hi).mono
          fun x hx => mem_preorderKeywords_cons.mpr (.inr hx)

theorem name_of_mem_insertionsGenerators : (gs : List Generator) → (bound : List String) →
    (outer inner : List (List String)) →
    ∀ i ∈ insertionsGenerators s bound outer inner gs, Caused s (preorderGenerators some gs) i
  | [], _, _, _, i, hi => nomatch hi
  | .mk t j fs _ :: gs, bound, outer, inner, i, hi => by
      unfold insertionsGenerators at hi
      rcases List.mem_append.mp hi with hi | hi
      · rcases List.mem_append.mp hi with hi | hi
        · exact (name_of_mem_insertions j bound outer i hi).mono
            fun x hx => mem_preorderGenerators_cons.mpr (.inr (.inl hx))
        · exact (name_of_mem_insertionsAll fs _ inner i hi).mono
            fun x hx => mem_preorderGenerators_cons.mpr (.inr (.inr (.inl hx)))
      · exact (name_of_mem_insertionsGenerators gs _ inner inner i hi).mono
          fun x hx => mem_preorderGenerators_cons.mpr (.inr (.inr (.inr hx)))

end

end Insertions

end Covenant.Condition
