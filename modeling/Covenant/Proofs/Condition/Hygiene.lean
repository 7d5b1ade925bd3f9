import Covenant.Proofs.Condition.Insertion
import Mathlib.Tactic.Tauto

/-! # Hygiene — when an inserted name means what it should

    An inserted name is meant for the namespace of the whole clause.  It gets
    there unless a `lambda` or a comprehension around its place makes the same
    name local.  Nothing in rewriting prevents this.

    * `unshadowed` decides it from the clause alone, binder by binder: no
      binder has one of its own names inserted into what it binds.
    * `free_iff` is the law: all insertions are free exactly if the clause is
      unshadowed and the scopes around it keep the inserted names out. -/

namespace Covenant.Condition

open Covenant.Tree

/-- A name that no scope around it makes local. -/
def Reading.Free (r : Reading) : Prop := ∀ locals ∈ r.scopes, r.name ∉ locals

/-- The names stay out of all scopes. -/
def Avoid (names : List String) (scopes : List (List String)) : Prop :=
  ∀ n ∈ names, ∀ locals ∈ scopes, n ∉ locals

theorem avoid_append {xs ys : List String} {scopes : List (List String)} :
    Avoid (xs ++ ys) scopes ↔ Avoid xs scopes ∧ Avoid ys scopes := List.forall_mem_append

theorem avoid_nil (names : List String) : Avoid names [] := by
  intro n _ locals hlocals
  exact absurd hlocals List.not_mem_nil

theorem avoid_nil_left (scopes : List (List String)) : Avoid [] scopes := by
  intro n hn
  exact absurd hn List.not_mem_nil

/-- Whether none of the local names is among some others. -/
def apart (locals names : List String) : Bool := locals.all fun n => !names.contains n

theorem avoid_cons {names locals : List String} {scopes : List (List String)} :
    Avoid names (locals :: scopes) ↔ apart locals names = true ∧ Avoid names scopes := by
  unfold Avoid apart
  rw [List.all_eq_true]
  constructor
  · intro h
    refine ⟨?_, fun n hn l hl => h n hn l (List.mem_cons_of_mem _ hl)⟩
    intro n hn
    rw [Bool.not_eq_true', ← Bool.not_eq_true, List.contains_iff_mem]
    exact fun hmem => h n hmem locals List.mem_cons_self hn
  · rintro ⟨hapart, hrest⟩ n hn l hl
    rcases List.mem_cons.mp hl with rfl | hl
    · intro hmem
      have h := hapart n hmem
      rw [Bool.not_eq_true', ← Bool.not_eq_true, List.contains_iff_mem] at h
      exact h hn
    · exact hrest n hn l hl

section Hygiene

variable (s : Strategy)

/-! ## Inserted names -/

/-- The names that rewriting inserts into a tree. -/
def inserted (bound : List String) (e : Expr) : List String :=
  (insertions s bound [] e).map (·.name)

/-- The names that rewriting inserts into several trees. -/
def insertedAll (bound : List String) (es : List Expr) : List String :=
  (insertionsAll s bound [] es).map (·.name)

/-- The names that rewriting inserts into named arguments. -/
def insertedKeywords (bound : List String) (ks : List Keyword) : List String :=
  (insertionsKeywords s bound [] ks).map (·.name)

/-- The names that rewriting inserts into the parts of a comprehension. -/
def insertedGenerators (bound : List String) (gs : List Generator) : List String :=
  (insertionsGenerators s bound [] [] gs).map (·.name)

/-- The names that rewriting inserts into a first iterable. -/
def insertedOutside (bound : List String) : List Generator → List String
  | [] => []
  | .mk _ i _ _ :: _ => inserted s bound i

/-- The names that rewriting inserts into the parts of a comprehension, its first iterable
    aside. -/
def insertedInside (bound : List String) : List Generator → List String
  | [] => []
  | .mk t _ fs _ :: gs =>
    insertedAll s (allNames t ++ bound) fs ++ insertedGenerators s (allNames t ++ bound) gs

mutual

/-- Which names are inserted does not depend on the scopes around. -/
theorem name_insertions : (e : Expr) → (bound : List String) → (scopes : List (List String)) →
    (insertions s bound scopes e).map (·.name) = inserted s bound e
  | .name .., bound, scopes => by
      unfold inserted insertions
      split <;> rfl
  | .constant .., _, _ => rfl
  | .field _ v _ _, bound, scopes => name_insertions v bound scopes
  | .call span f as ks, bound, scopes => by
      unfold inserted insertions
      split
      · rfl
      · rw [List.map_append, List.map_append, List.map_append, List.map_append,
          name_insertions f bound scopes, name_insertionsAll as bound scopes,
          name_insertionsKeywords ks bound scopes]
        rfl
  | .lambda _ b kd ds e, bound, scopes => by
      unfold inserted insertions
      rw [List.map_append, List.map_append, List.map_append, List.map_append,
        name_insertionsAll kd bound scopes, name_insertionsAll ds bound scopes,
        name_insertions e _ (b.names :: scopes), name_insertions e _ [b.names]]
      rfl
  | .comprehension _ _ es gs, bound, scopes => by
      unfold inserted insertions
      rw [List.map_append, List.map_append, name_insertionsGenerators gs bound scopes,
        name_insertionsGenerators gs bound [], name_insertionsAll es _ (targetsOf gs :: scopes),
        name_insertionsAll es _ [targetsOf gs]]
  | .compound _ _ ps, bound, scopes => name_insertionsAll ps bound scopes

theorem name_insertionsAll : (es : List Expr) → (bound : List String) →
    (scopes : List (List String)) →
    (insertionsAll s bound scopes es).map (·.name) = insertedAll s bound es
  | [], _, _ => rfl
  | e :: es, bound, scopes => by
      unfold insertedAll insertionsAll
      rw [List.map_append, List.map_append, name_insertions e bound scopes,
        name_insertionsAll es bound scopes]
      rfl

theorem name_insertionsKeywords : (ks : List Keyword) → (bound : List String) →
    (scopes : List (List String)) →
    (insertionsKeywords s bound scopes ks).map (·.name) = insertedKeywords s bound ks
  | [], _, _ => rfl
  | .mk _ _ v :: ks, bound, scopes => by
      unfold insertedKeywords insertionsKeywords
      rw [List.map_append, List.map_append, name_insertions v bound scopes,
        name_insertionsKeywords ks bound scopes]
      rfl

theorem name_insertionsGenerators : (gs : List Generator) → (bound : List String) →
    (outer inner : List (List String)) →
    (insertionsGenerators s bound outer inner gs).map (·.name) = insertedGenerators s bound gs
  | [], _, _, _ => rfl
  | .mk t i fs _ :: gs, bound, outer, inner => by
      unfold insertedGenerators insertionsGenerators
      rw [List.map_append, List.map_append, List.map_append, List.map_append,
        name_insertions i bound outer, name_insertionsAll fs _ inner,
        name_insertionsGenerators gs _ inner inner]
      rfl

end

/-! ## The condition -/

mutual

/-- Whether no binder of a tree has one of its own names inserted into what it binds. -/
def unshadowed (bound : List String) : Expr → Bool
  | .name .. | .constant .. => true
  | .field _ v _ _ => unshadowed bound v
  | .call span f as ks =>
    isOldCall (.call span f as ks)
      || (unshadowed bound f && unshadowedAll bound as && unshadowedKeywords bound ks)
  | .lambda _ b kd ds e =>
    unshadowedAll bound kd && unshadowedAll bound ds && unshadowed (b.names ++ bound) e
      && apart b.names (inserted s (b.names ++ bound) e)
  | .comprehension _ _ es gs =>
    unshadowedGenerators bound gs && unshadowedAll (boundAfter bound gs) es
      && apart (targetsOf gs) (insertedInside s bound gs ++ insertedAll s (boundAfter bound gs) es)
  | .compound _ _ ps => unshadowedAll bound ps

/-- Whether this holds of several trees. -/
def unshadowedAll (bound : List String) : List Expr → Bool
  | [] => true
  | e :: es => unshadowed bound e && unshadowedAll bound es

/-- Whether this holds of named arguments. -/
def unshadowedKeywords (bound : List String) : List Keyword → Bool
  | [] => true
  | .mk _ _ v :: ks => unshadowed bound v && unshadowedKeywords bound ks

/-- Whether this holds of the parts of a comprehension. -/
def unshadowedGenerators (bound : List String) : List Generator → Bool
  | [] => true
  | .mk t i fs _ :: gs =>
    unshadowed bound i && unshadowedAll (allNames t ++ bound) fs
      && unshadowedGenerators (allNames t ++ bound) gs

end

/-! ## The law -/

variable {s}

theorem inserted_call {span : Span} {f : Expr} {as : List Expr} {ks : List Keyword}
    {bound : List String} (h : ¬ isOldCall (.call span f as ks) = true) :
    inserted s bound (.call span f as ks)
      = inserted s bound f ++ insertedAll s bound as ++ insertedKeywords s bound ks := by
  show List.map _ (insertions s bound [] (.call span f as ks)) = _
  rw [insertions, if_neg h, List.map_append, List.map_append]
  rfl

theorem inserted_lambda (span : Span) (b : Binders) (kd ds : List Expr) (e : Expr)
    (bound : List String) :
    inserted s bound (.lambda span b kd ds e)
      = insertedAll s bound kd ++ insertedAll s bound ds ++ inserted s (b.names ++ bound) e := by
  show List.map _ (insertions s bound [] (.lambda span b kd ds e)) = _
  rw [insertions, List.map_append, List.map_append, name_insertions s e _ [b.names]]
  rfl

theorem insertedAll_cons (e : Expr) (es : List Expr) (bound : List String) :
    insertedAll s bound (e :: es) = inserted s bound e ++ insertedAll s bound es := by
  show List.map _ (insertionsAll s bound [] (e :: es)) = _
  rw [insertionsAll, List.map_append]
  rfl

theorem insertedKeywords_cons (span : Span) (name : Option String) (v : Expr)
    (ks : List Keyword) (bound : List String) :
    insertedKeywords s bound (.mk span name v :: ks)
      = inserted s bound v ++ insertedKeywords s bound ks := by
  show List.map _ (insertionsKeywords s bound [] (.mk span name v :: ks)) = _
  rw [insertionsKeywords, List.map_append]
  rfl

theorem insertedGenerators_eq (bound : List String) (gs : List Generator) :
    insertedGenerators s bound gs = insertedOutside s bound gs ++ insertedInside s bound gs := by
  cases gs with
  | nil => rfl
  | cons g gs =>
      obtain ⟨t, i, fs, a⟩ := g
      show List.map _ (insertionsGenerators s bound [] [] (.mk t i fs a :: gs)) = _
      rw [insertionsGenerators, List.map_append, List.map_append, List.append_assoc]
      rfl

theorem inserted_comprehension (span : Span) (k : ComprehensionKind) (es : List Expr)
    (gs : List Generator) (bound : List String) :
    inserted s bound (.comprehension span k es gs)
      = insertedOutside s bound gs
        ++ (insertedInside s bound gs ++ insertedAll s (boundAfter bound gs) es) := by
  show List.map _ (insertions s bound [] (.comprehension span k es gs)) = _
  rw [insertions, List.map_append, name_insertionsGenerators s gs, name_insertionsAll s es,
    insertedGenerators_eq, List.append_assoc]

mutual

/-- **ALL INSERTIONS ARE FREE** exactly if the tree is unshadowed and the scopes around it keep
    the inserted names out. -/
theorem free_iff : (e : Expr) → (bound : List String) → (scopes : List (List String)) →
    ((∀ i ∈ insertions s bound scopes e, i.toReading.Free) ↔
      unshadowed s bound e = true ∧ Avoid (inserted s bound e) scopes)
  | .name span id access, bound, scopes => by
      unfold inserted insertions unshadowed
      split
      · simp [Reading.Free, Avoid]
      · simp [Avoid]
  | .constant .., _, scopes =>
      ⟨fun _ => ⟨rfl, avoid_nil_left scopes⟩, fun _ _ hi => absurd hi List.not_mem_nil⟩
  | .field _ v _ _, bound, scopes => free_iff v bound scopes
  | .call span f as ks, bound, scopes => by
      by_cases hold : isOldCall (.call span f as ks) = true
      · unfold inserted insertions unshadowed
        rw [if_pos hold, if_pos hold, hold]
        simp [Reading.Free, Avoid]
      · rw [inserted_call hold, avoid_append, avoid_append, insertions, if_neg hold, unshadowed,
          Bool.eq_false_iff.mpr hold, Bool.false_or, Bool.and_eq_true, Bool.and_eq_true,
          List.forall_mem_append, List.forall_mem_append, free_iff f, freeAll_iff as,
          freeKeywords_iff ks]
        tauto
  | .lambda span b kd ds e, bound, scopes => by
      rw [inserted_lambda, avoid_append, avoid_append, insertions, unshadowed, Bool.and_eq_true,
        Bool.and_eq_true, Bool.and_eq_true, List.forall_mem_append, List.forall_mem_append,
        freeAll_iff kd, freeAll_iff ds, free_iff e, avoid_cons]
      tauto
  | .comprehension span k es gs, bound, scopes => by
      have hcons : Avoid (insertedInside s bound gs ++ insertedAll s (boundAfter bound gs) es)
            (targetsOf gs :: scopes) ↔ _ := avoid_cons
      rw [avoid_append] at hcons
      rw [inserted_comprehension, avoid_append, insertions, unshadowed, Bool.and_eq_true,
        Bool.and_eq_true, List.forall_mem_append, freeGenerators_iff gs, freeAll_iff es]
      tauto
  | .compound _ _ ps, bound, scopes => freeAll_iff ps bound scopes

theorem freeAll_iff : (es : List Expr) → (bound : List String) → (scopes : List (List String)) →
    ((∀ i ∈ insertionsAll s bound scopes es, i.toReading.Free) ↔
      unshadowedAll s bound es = true ∧ Avoid (insertedAll s bound es) scopes)
  | [], _, scopes =>
      ⟨fun _ => ⟨rfl, avoid_nil_left scopes⟩, fun _ _ hi => absurd hi List.not_mem_nil⟩
  | e :: es, bound, scopes => by
      rw [insertedAll_cons, avoid_append, insertionsAll, unshadowedAll, Bool.and_eq_true,
        List.forall_mem_append, free_iff e, freeAll_iff es]
      tauto

theorem freeKeywords_iff : (ks : List Keyword) → (bound : List String) →
    (scopes : List (List String)) →
    ((∀ i ∈ insertionsKeywords s bound scopes ks, i.toReading.Free) ↔
      unshadowedKeywords s bound ks = true ∧ Avoid (insertedKeywords s bound ks) scopes)
  | [], _, scopes =>
      ⟨fun _ => ⟨rfl, avoid_nil_left scopes⟩, fun _ _ hi => absurd hi List.not_mem_nil⟩
  | .mk span name v :: ks, bound, scopes => by
      rw [insertedKeywords_cons, avoid_append, insertionsKeywords, unshadowedKeywords,
        Bool.and_eq_true, List.forall_mem_append, free_iff v, freeKeywords_iff ks]
      tauto

theorem freeGenerators_iff : (gs : List Generator) → (bound : List String) →
    (outer inner : List (List String)) →
    ((∀ i ∈ insertionsGenerators s bound outer inner gs, i.toReading.Free) ↔
      unshadowedGenerators s bound gs = true ∧ Avoid (insertedOutside s bound gs) outer ∧
        Avoid (insertedInside s bound gs) inner)
  | [], _, outer, inner =>
      ⟨fun _ => ⟨rfl, avoid_nil_left outer, avoid_nil_left inner⟩,
        fun _ _ hi => absurd hi List.not_mem_nil⟩
  | .mk t i fs a :: gs, bound, outer, inner => by
      have hrest := freeGenerators_iff gs (allNames t ++ bound) inner inner
      rw [← avoid_append, ← insertedGenerators_eq] at hrest
      rw [insertionsGenerators, unshadowedGenerators, insertedOutside, insertedInside,
        avoid_append, Bool.and_eq_true, Bool.and_eq_true, List.forall_mem_append,
        List.forall_mem_append, free_iff i, freeAll_iff fs, hrest]
      tauto

end

end Hygiene

end Covenant.Condition
