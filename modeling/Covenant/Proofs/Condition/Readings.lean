import Covenant.Proofs.Condition.Hygiene
import Mathlib.Tactic.SplitIfs

/-! # Readings — the names that a rewritten tree reads

    Rewriting takes names away and inserts others, but what it leaves is read
    as before.

    * `IsFree` says that a name is read from around a tree.
    * `exists_node_of_reading`: a name that is read is a node of the tree, and
      `exists_reading_of_node`: a name that is loaded at a node is read.
    * `mem_readings_rewriteWith`: what a rewritten tree reads was read before,
      or it was inserted there.
    * `exists_old_of_isFree`: where a tree does not read the store, the rewritten
      one reads it only for calls of `old`. -/

namespace Covenant.Condition

open Covenant.Tree

variable {s : Strategy} {x : String}

/-- The names that a tree assigns values to itself. -/
def assignedNames (e : Expr) : List String :=
  e.nodes.filterMap fun
    | .compound _ .namedExpr (.name _ x _ :: _) => some x
    | _ => none

/-- A free name of a tree: it is read from around the tree, which assigns nothing to it. -/
structure IsFree (e : Expr) (x : String) : Prop where
  read : ∃ r ∈ readings [] e, r.name = x ∧ r.Free
  unassigned : x ∉ assignedNames e

instance (e : Expr) (x : String) : Decidable (IsFree e x) :=
  decidable_of_iff ((∃ r ∈ readings [] e, r.name = x ∧ ∀ locals ∈ r.scopes, r.name ∉ locals) ∧
    x ∉ assignedNames e) ⟨fun h => ⟨h.1, h.2⟩, fun h => ⟨h.read, h.unassigned⟩⟩

mutual

/-- What is read is a node of the tree. -/
theorem exists_node_of_reading : (e : Expr) → (scopes : List (List String)) →
    ∀ r ∈ readings scopes e, ∃ span, Expr.name span r.name .load ∈ e.nodes
  | .name span id access, scopes, r, hr => by
      rw [readings] at hr
      split_ifs at hr with hload
      · obtain rfl := List.mem_singleton.mp hr
        exact ⟨span, mem_nodes_name.mpr (by rw [hload])⟩
      · exact nomatch hr
  | .constant .., _, r, hr => nomatch hr
  | .field _ v _ _, scopes, r, hr => by
      obtain ⟨span, hmem⟩ := exists_node_of_reading v scopes r hr
      exact ⟨span, mem_nodes_field.mpr (.inr hmem)⟩
  | .call _ f as ks, scopes, r, hr => by
      rw [readings, List.mem_append, List.mem_append] at hr
      rcases hr with (hr | hr) | hr
      · obtain ⟨span, hmem⟩ := exists_node_of_reading f scopes r hr
        exact ⟨span, mem_nodes_call.mpr (.inr (.inl hmem))⟩
      · obtain ⟨span, hmem⟩ := exists_node_of_readingAll as scopes r hr
        exact ⟨span, mem_nodes_call.mpr (.inr (.inr (.inl hmem)))⟩
      · obtain ⟨span, hmem⟩ := exists_node_of_readingKeywords ks scopes r hr
        exact ⟨span, mem_nodes_call.mpr (.inr (.inr (.inr hmem)))⟩
  | .lambda _ b kd ds e, scopes, r, hr => by
      rw [readings, List.mem_append, List.mem_append] at hr
      rcases hr with (hr | hr) | hr
      · obtain ⟨span, hmem⟩ := exists_node_of_readingAll kd scopes r hr
        exact ⟨span, mem_nodes_lambda.mpr (.inr (.inl hmem))⟩
      · obtain ⟨span, hmem⟩ := exists_node_of_readingAll ds scopes r hr
        exact ⟨span, mem_nodes_lambda.mpr (.inr (.inr (.inl hmem)))⟩
      · obtain ⟨span, hmem⟩ := exists_node_of_reading e _ r hr
        exact ⟨span, mem_nodes_lambda.mpr (.inr (.inr (.inr hmem)))⟩
  | .comprehension _ _ es gs, scopes, r, hr => by
      rw [readings, List.mem_append] at hr
      rcases hr with hr | hr
      · obtain ⟨span, hmem⟩ := exists_node_of_readingGenerators gs _ _ r hr
        exact ⟨span, mem_nodes_comprehension.mpr (.inr (.inr hmem))⟩
      · obtain ⟨span, hmem⟩ := exists_node_of_readingAll es _ r hr
        exact ⟨span, mem_nodes_comprehension.mpr (.inr (.inl hmem))⟩
  | .compound _ _ ps, scopes, r, hr => by
      obtain ⟨span, hmem⟩ := exists_node_of_readingAll ps scopes r hr
      exact ⟨span, mem_nodes_compound.mpr (.inr hmem)⟩

theorem exists_node_of_readingAll : (es : List Expr) → (scopes : List (List String)) →
    ∀ r ∈ readingsAll scopes es, ∃ span, Expr.name span r.name .load ∈ preorderAll some es
  | [], _, r, hr => nomatch hr
  | e :: es, scopes, r, hr => by
      rcases List.mem_append.mp hr with hr | hr
      · obtain ⟨span, hmem⟩ := exists_node_of_reading e scopes r hr
        exact ⟨span, mem_preorderAll_cons.mpr (.inl hmem)⟩
      · obtain ⟨span, hmem⟩ := exists_node_of_readingAll es scopes r hr
        exact ⟨span, mem_preorderAll_cons.mpr (.inr hmem)⟩

theorem exists_node_of_readingKeywords : (ks : List Keyword) → (scopes : List (List String)) →
    ∀ r ∈ readingsKeywords scopes ks,
      ∃ span, Expr.name span r.name .load ∈ preorderKeywords some ks
  | [], _, r, hr => nomatch hr
  | .mk _ _ v :: ks, scopes, r, hr => by
      rcases List.mem_append.mp hr with hr | hr
      · obtain ⟨span, hmem⟩ := exists_node_of_reading v scopes r hr
        exact ⟨span, mem_preorderKeywords_cons.mpr (.inl hmem)⟩
      · obtain ⟨span, hmem⟩ := exists_node_of_readingKeywords ks scopes r hr
        exact ⟨span, mem_preorderKeywords_cons.mpr (.inr hmem)⟩

theorem exists_node_of_readingGenerators : (gs : List Generator) →
    (outer inner : List (List String)) → ∀ r ∈ readingsGenerators outer inner gs,
      ∃ span, Expr.name span r.name .load ∈ preorderGenerators some gs
  | [], _, _, r, hr => nomatch hr
  | .mk t i fs _ :: gs, outer, inner, r, hr => by
      simp only [readingsGenerators, List.mem_append] at hr
      rcases hr with ((hr | hr) | hr) | hr
      · obtain ⟨span, hmem⟩ := exists_node_of_reading i outer r hr
        exact ⟨span, mem_preorderGenerators_cons.mpr (.inr (.inl hmem))⟩
      · obtain ⟨span, hmem⟩ := exists_node_of_reading t inner r hr
        exact ⟨span, mem_preorderGenerators_cons.mpr (.inl hmem)⟩
      · obtain ⟨span, hmem⟩ := exists_node_of_readingAll fs inner r hr
        exact ⟨span, mem_preorderGenerators_cons.mpr (.inr (.inr (.inl hmem)))⟩
      · obtain ⟨span, hmem⟩ := exists_node_of_readingGenerators gs inner inner r hr
        exact ⟨span, mem_preorderGenerators_cons.mpr (.inr (.inr (.inr hmem)))⟩

end

mutual

/-- A name that is loaded at some node is read there. -/
theorem exists_reading_of_node : (e : Expr) → (scopes : List (List String)) →
    ∀ span, Expr.name span x .load ∈ e.nodes → ∃ r ∈ readings scopes e, r.name = x
  | .name .., scopes, span, h => by
      rw [← mem_nodes_name.mp h, readings, if_pos rfl]
      exact ⟨⟨x, scopes⟩, List.mem_singleton_self _, rfl⟩
  | .constant .., _, _, h => by cases mem_nodes_constant.mp h
  | .field _ v _ _, scopes, span, h => by
      rcases mem_nodes_field.mp h with h | h
      · cases h
      · exact exists_reading_of_node v scopes span h
  | .call _ f as ks, scopes, span, h => by
      simp only [readings, List.mem_append]
      rcases mem_nodes_call.mp h with h | h | h | h
      · cases h
      · obtain ⟨r, hr, hname⟩ := exists_reading_of_node f scopes span h
        exact ⟨r, .inl (.inl hr), hname⟩
      · obtain ⟨r, hr, hname⟩ := exists_reading_of_nodeAll as scopes span h
        exact ⟨r, .inl (.inr hr), hname⟩
      · obtain ⟨r, hr, hname⟩ := exists_reading_of_nodeKeywords ks scopes span h
        exact ⟨r, .inr hr, hname⟩
  | .lambda _ b kd ds e, scopes, span, h => by
      simp only [readings, List.mem_append]
      rcases mem_nodes_lambda.mp h with h | h | h | h
      · cases h
      · obtain ⟨r, hr, hname⟩ := exists_reading_of_nodeAll kd scopes span h
        exact ⟨r, .inl (.inl hr), hname⟩
      · obtain ⟨r, hr, hname⟩ := exists_reading_of_nodeAll ds scopes span h
        exact ⟨r, .inl (.inr hr), hname⟩
      · obtain ⟨r, hr, hname⟩ := exists_reading_of_node e (b.names :: scopes) span h
        exact ⟨r, .inr hr, hname⟩
  | .comprehension _ _ es gs, scopes, span, h => by
      simp only [readings, List.mem_append]
      rcases mem_nodes_comprehension.mp h with h | h | h
      · cases h
      · obtain ⟨r, hr, hname⟩ := exists_reading_of_nodeAll es (targetsOf gs :: scopes) span h
        exact ⟨r, .inr hr, hname⟩
      · obtain ⟨r, hr, hname⟩ :=
          exists_reading_of_nodeGenerators gs scopes (targetsOf gs :: scopes) span h
        exact ⟨r, .inl hr, hname⟩
  | .compound _ _ ps, scopes, span, h => by
      rcases mem_nodes_compound.mp h with h | h
      · cases h
      · exact exists_reading_of_nodeAll ps scopes span h

theorem exists_reading_of_nodeAll : (es : List Expr) → (scopes : List (List String)) →
    ∀ span, Expr.name span x .load ∈ preorderAll some es →
      ∃ r ∈ readingsAll scopes es, r.name = x
  | [], _, _, h => by cases h
  | e :: es, scopes, span, h => by
      simp only [readingsAll, List.mem_append]
      rcases mem_preorderAll_cons.mp h with h | h
      · obtain ⟨r, hr, hname⟩ := exists_reading_of_node e scopes span h
        exact ⟨r, .inl hr, hname⟩
      · obtain ⟨r, hr, hname⟩ := exists_reading_of_nodeAll es scopes span h
        exact ⟨r, .inr hr, hname⟩

theorem exists_reading_of_nodeKeywords : (ks : List Keyword) → (scopes : List (List String)) →
    ∀ span, Expr.name span x .load ∈ preorderKeywords some ks →
      ∃ r ∈ readingsKeywords scopes ks, r.name = x
  | [], _, _, h => by cases h
  | .mk _ _ v :: ks, scopes, span, h => by
      simp only [readingsKeywords, List.mem_append]
      rcases mem_preorderKeywords_cons.mp h with h | h
      · obtain ⟨r, hr, hname⟩ := exists_reading_of_node v scopes span h
        exact ⟨r, .inl hr, hname⟩
      · obtain ⟨r, hr, hname⟩ := exists_reading_of_nodeKeywords ks scopes span h
        exact ⟨r, .inr hr, hname⟩

theorem exists_reading_of_nodeGenerators : (gs : List Generator) →
    (outer inner : List (List String)) → ∀ span,
      Expr.name span x .load ∈ preorderGenerators some gs →
      ∃ r ∈ readingsGenerators outer inner gs, r.name = x
  | [], _, _, _, h => by cases h
  | .mk t i fs _ :: gs, outer, inner, span, h => by
      simp only [readingsGenerators, List.mem_append]
      rcases mem_preorderGenerators_cons.mp h with h | h | h | h
      · obtain ⟨r, hr, hname⟩ := exists_reading_of_node t inner span h
        exact ⟨r, .inl (.inl (.inr hr)), hname⟩
      · obtain ⟨r, hr, hname⟩ := exists_reading_of_node i outer span h
        exact ⟨r, .inl (.inl (.inl hr)), hname⟩
      · obtain ⟨r, hr, hname⟩ := exists_reading_of_nodeAll fs inner span h
        exact ⟨r, .inl (.inr hr), hname⟩
      · obtain ⟨r, hr, hname⟩ := exists_reading_of_nodeGenerators gs inner inner span h
        exact ⟨r, .inr hr, hname⟩

end

/-- A reading of a tree, or one that was inserted. -/
def Kept (rs : List Reading) (is : List Insertion) (r : Reading) : Prop :=
  r ∈ rs ∨ ∃ i ∈ is, i.toReading = r

theorem Kept.mono {rs rs' : List Reading} {is is' : List Insertion} {r : Reading}
    (h : Kept rs is r) (hrs : ∀ r ∈ rs, r ∈ rs') (his : ∀ i ∈ is, i ∈ is') : Kept rs' is' r :=
  h.imp (hrs r) fun ⟨i, hi, hr⟩ => ⟨i, his i hi, hr⟩

theorem Kept.left {rs rs' : List Reading} {is is' : List Insertion} {r : Reading}
    (h : Kept rs is r) : Kept (rs ++ rs') (is ++ is') r :=
  h.mono (fun _ => List.mem_append_left _) fun _ => List.mem_append_left _

theorem Kept.right {rs rs' : List Reading} {is is' : List Insertion} {r : Reading}
    (h : Kept rs is r) : Kept (rs' ++ rs) (is' ++ is) r :=
  h.mono (fun _ => List.mem_append_right _) fun _ => List.mem_append_right _

mutual

/-- What a rewritten tree reads was read before, or it was inserted there. -/
theorem mem_readings_rewriteWith : (e : Expr) → (bound : List String) →
    (scopes : List (List String)) → ∀ r ∈ readings scopes (rewriteWith s bound e).1,
      Kept (readings scopes e) (insertions s bound scopes e) r
  | .name span id access, bound, scopes, r, hr => by
      unfold insertions
      unfold rewriteWith at hr
      split_ifs at hr ⊢ with hfree
      · exact .inr ⟨_, List.mem_singleton_self _, (List.mem_singleton.mp hr).symm⟩
      · exact .inl hr
  | .constant .., _, _, r, hr => nomatch hr
  | .field _ v _ _, bound, scopes, r, hr => mem_readings_rewriteWith v bound scopes r hr
  | .call span f as ks, bound, scopes, r, hr => by
      unfold insertions
      unfold rewriteWith at hr
      split_ifs at hr ⊢ with hold
      · have hlookup : r ∈ [Reading.mk s.lookup scopes] := hr
        exact .inr ⟨_, List.mem_singleton_self _, (List.mem_singleton.mp hlookup).symm⟩
      · simp only [readings, List.mem_append] at hr
        rcases hr with (hr | hr) | hr
        · exact (mem_readings_rewriteWith f bound scopes r hr).left.left
        · exact (mem_readings_rewriteAll as bound scopes r hr).right.left
        · exact (mem_readings_rewriteKeywords ks bound scopes r hr).right
  | .lambda _ b kd ds e, bound, scopes, r, hr => by
      simp only [rewriteWith, readings, List.mem_append] at hr
      rcases hr with (hr | hr) | hr
      · exact (mem_readings_rewriteAll kd bound scopes r hr).left.left
      · exact (mem_readings_rewriteAll ds bound scopes r hr).right.left
      · exact (mem_readings_rewriteWith e _ _ r hr).right
  | .comprehension _ _ es gs, bound, scopes, r, hr => by
      simp only [rewriteWith, readings, List.mem_append, targetsOf_rewriteGenerators,
        bound_rewriteGenerators] at hr
      rcases hr with hr | hr
      · exact (mem_readings_rewriteGenerators gs bound _ _ r hr).left
      · exact (mem_readings_rewriteAll es _ _ r hr).right
  | .compound _ _ ps, bound, scopes, r, hr => mem_readings_rewriteAll ps bound scopes r hr

theorem mem_readings_rewriteAll : (es : List Expr) → (bound : List String) →
    (scopes : List (List String)) → ∀ r ∈ readingsAll scopes (rewriteAll s bound es).1,
      Kept (readingsAll scopes es) (insertionsAll s bound scopes es) r
  | [], _, _, r, hr => nomatch hr
  | e :: es, bound, scopes, r, hr => by
      rcases List.mem_append.mp hr with hr | hr
      · exact (mem_readings_rewriteWith e bound scopes r hr).left
      · exact (mem_readings_rewriteAll es bound scopes r hr).right

theorem mem_readings_rewriteKeywords : (ks : List Keyword) → (bound : List String) →
    (scopes : List (List String)) → ∀ r ∈ readingsKeywords scopes (rewriteKeywords s bound ks).1,
      Kept (readingsKeywords scopes ks) (insertionsKeywords s bound scopes ks) r
  | [], _, _, r, hr => nomatch hr
  | .mk _ _ v :: ks, bound, scopes, r, hr => by
      rcases List.mem_append.mp hr with hr | hr
      · exact (mem_readings_rewriteWith v bound scopes r hr).left
      · exact (mem_readings_rewriteKeywords ks bound scopes r hr).right

theorem mem_readings_rewriteGenerators : (gs : List Generator) → (bound : List String) →
    (outer inner : List (List String)) →
    ∀ r ∈ readingsGenerators outer inner (rewriteGenerators s bound gs).1,
      Kept (readingsGenerators outer inner gs) (insertionsGenerators s bound outer inner gs) r
  | [], _, _, _, r, hr => nomatch hr
  | .mk t i fs _ :: gs, bound, outer, inner, r, hr => by
      simp only [rewriteGenerators, readingsGenerators, List.mem_append] at hr
      rcases hr with ((hr | hr) | hr) | hr
      · have hkept := mem_readings_rewriteWith i bound outer r hr
        exact (hkept.mono (fun _ => List.mem_append_left _) fun _ hi => hi).left.left
      · -- targets stay as they are
        exact .inl (by simp only [readingsGenerators, List.mem_append]; exact .inl (.inl (.inr hr)))
      · exact (mem_readings_rewriteAll fs _ inner r hr).right.left
      · exact (mem_readings_rewriteGenerators gs _ inner inner r hr).right

end

/-- **THE STORE** is read in a rewritten tree only where the tree has a call of `old`, unless the
    tree reads it itself. -/
theorem exists_old_of_isFree {e : Expr} {bound : List String}
    (hself : s.self ≠ s.lookup) (hunread : ∀ span, Expr.name span s.lookup .load ∉ e.nodes)
    (h : IsFree (rewriteWith s bound e).1 s.lookup) : ∃ n ∈ e.nodes, isOldCall n = true := by
  obtain ⟨r, hr, hname, -⟩ := h.read
  rcases mem_readings_rewriteWith e bound [] r hr with hread | ⟨i, hi, rfl⟩
  · obtain ⟨span, hmem⟩ := exists_node_of_reading e [] r hread
    rw [hname] at hmem
    exact absurd hmem (hunread span)
  · rcases name_of_mem_insertions e bound [] i hi with ⟨hinstance, -⟩ | ⟨-, hold⟩
    · exact absurd (hinstance.symm.trans hname) hself
    · exact hold

end Covenant.Condition
