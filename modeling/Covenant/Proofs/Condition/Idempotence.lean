import Covenant.Proofs.Condition.Insertion
import Covenant.Proofs.Condition.Replacement
import Covenant.Proofs.Condition.RightCalls

/-! # Idempotence — rewriting a second time

    What rewriting inserts are the name of the instance, the name of the store
    and texts.  As long as these names stand for no fields, and the store is
    not called `old`, a second pass finds nothing to do.

    * A tree is settled among some bound names if rewriting makes no change in
      it; each form is settled once its parts are.
    * `settled_rewriteWith`: a rewritten tree is settled among the names that it
      was rewritten with, if what is inserted is `Inert`.  What the first pass
      left alone because it was bound is bound again, since the targets have
      stayed as they were.
    * `rewrite_idempotent` adds that the calls of `old` that are left are right
      ones, so that the second pass takes place. -/

namespace Covenant.Condition

open Text Covenant.Tree

variable {s : Strategy} {bound : List String}

/-! ## Settled trees -/

/-- Rewriting makes no change in a tree. -/
def Settled (s : Strategy) (bound : List String) (e : Expr) : Prop :=
  rewriteWith s bound e = (e, [])

/-- Rewriting makes no change in several trees. -/
def SettledAll (s : Strategy) (bound : List String) (es : List Expr) : Prop :=
  rewriteAll s bound es = (es, [])

/-- Rewriting makes no change in named arguments. -/
def SettledKeywords (s : Strategy) (bound : List String) (ks : List Keyword) : Prop :=
  rewriteKeywords s bound ks = (ks, [])

/-- Rewriting makes no change in the parts of a comprehension. -/
def SettledGenerators (s : Strategy) (bound : List String) (gs : List Generator) : Prop :=
  rewriteGenerators s bound gs = (gs, boundAfter bound gs, [])

section Forms

variable {span : Span}

theorem settled_name {id : String} {a : Access}
    (h : ¬ (a = .load ∧ s.fields.contains id = true ∧ bound.contains id = false)) :
    Settled s bound (.name span id a) := by
  show rewriteWith s bound _ = _
  rw [rewriteWith, if_neg h]

/-- A name that is no field is left alone, bound or not. -/
theorem settled_name_of_not_mem {id : String} {a : Access} (h : id ∉ s.fields) :
    Settled s bound (.name span id a) := by
  refine settled_name fun hfree => h ?_
  exact List.contains_iff_mem.mp hfree.2.1

theorem settled_field {v : Expr} {n : String} {a : Access} (hv : Settled s bound v) :
    Settled s bound (.field span v n a) := by
  show rewriteWith s bound _ = _
  rw [rewriteWith, hv]

theorem settled_call {f : Expr} {as : List Expr} {ks : List Keyword}
    (hold : isOldCall (.call span f as ks) = false) (hf : Settled s bound f)
    (has : SettledAll s bound as) (hks : SettledKeywords s bound ks) :
    Settled s bound (.call span f as ks) := by
  show rewriteWith s bound _ = _
  rw [rewriteWith, hold, if_neg Bool.false_ne_true, hf, has, hks]
  rfl

theorem settled_lambda {b : Binders} {kd ds : List Expr} {e : Expr}
    (hkd : SettledAll s bound kd) (hds : SettledAll s bound ds)
    (he : Settled s (b.names ++ bound) e) : Settled s bound (.lambda span b kd ds e) := by
  show rewriteWith s bound _ = _
  rw [rewriteWith, hkd, hds, he]
  rfl

theorem settled_comprehension {k : ComprehensionKind} {es : List Expr} {gs : List Generator}
    (hgs : SettledGenerators s bound gs) (hes : SettledAll s (boundAfter bound gs) es) :
    Settled s bound (.comprehension span k es gs) := by
  show rewriteWith s bound _ = _
  rw [rewriteWith, hgs]
  show (Expr.comprehension span k (rewriteAll s (boundAfter bound gs) es).1 gs, _) = _
  rw [hes]
  rfl

theorem settled_compound {form : Form} {ps : List Expr} (hps : SettledAll s bound ps) :
    Settled s bound (.compound span form ps) := by
  show rewriteWith s bound _ = _
  rw [rewriteWith, hps]

theorem settledAll_nil : SettledAll s bound [] := rfl

theorem settledAll_cons {e : Expr} {es : List Expr} (he : Settled s bound e)
    (hes : SettledAll s bound es) : SettledAll s bound (e :: es) := by
  show rewriteAll s bound _ = _
  rw [rewriteAll, he, hes]
  rfl

theorem settledKeywords_cons {n : Option String} {v : Expr} {ks : List Keyword}
    (hv : Settled s bound v) (hks : SettledKeywords s bound ks) :
    SettledKeywords s bound (.mk span n v :: ks) := by
  show rewriteKeywords s bound _ = _
  rw [rewriteKeywords, hv, hks]
  rfl

theorem settledGenerators_cons {t i : Expr} {fs : List Expr} {a : Bool} {gs : List Generator}
    (hi : Settled s bound i) (hfs : SettledAll s (allNames t ++ bound) fs)
    (hgs : SettledGenerators s (allNames t ++ bound) gs) :
    SettledGenerators s bound (.mk t i fs a :: gs) := by
  show rewriteGenerators s bound _ = _
  rw [rewriteGenerators, hi]
  show (Generator.mk t i (rewriteAll s (allNames t ++ bound) fs).1 a
    :: (rewriteGenerators s (allNames t ++ bound) gs).1, _) = _
  rw [hfs, hgs]
  rfl

end Forms

/-! ## What is inserted -/

/-- What rewriting inserts is taken neither for a field nor for a call of `old`. -/
structure Strategy.Inert (s : Strategy) : Prop where
  self : s.self ∉ s.fields
  lookup : s.lookup ∉ s.fields
  old : s.lookup ≠ oldName

theorem Strategy.Inert.memberField (h : s.Inert) (span : Span) (id : String) :
    Settled s bound (memberField s span id) :=
  settled_field (settled_name_of_not_mem h.self)

theorem Strategy.Inert.lookupCall (h : s.Inert) (span : Span) (f : String) :
    Settled s bound (lookupCall s span f) := by
  refine settled_call (beq_false_of_ne h.old) (settled_name_of_not_mem h.lookup) ?_ rfl
  exact settledAll_cons rfl settledAll_nil

/-! ## What was rewritten -/

/-- A call of something else than `old` does not become one. -/
theorem isOldCall_rewriteWith {span : Span} {f : Expr} {as as' : List Expr} {ks ks' : List Keyword}
    (h : isOldCall (.call span f as ks) ≠ true) :
    isOldCall (.call span (rewriteWith s bound f).1 as' ks') = false := by
  have hnone : callOfOld? (.call span (rewriteWith s bound f).1 as' ks') = none := callOfOld?_call h
  rw [callOfOld?] at hnone
  rw [Bool.eq_false_iff]
  intro hold
  rw [if_pos hold] at hnone
  cases hnone

/-- The targets are those from before, so the same names are bound behind the parts. -/
theorem boundAfter_rewriteGenerators (gs : List Generator) (bound bound' : List String) :
    boundAfter bound' (rewriteGenerators s bound gs).1 = boundAfter bound' gs := by
  induction gs generalizing bound bound' with
  | nil => rfl
  | cons g gs ih =>
      obtain ⟨t, i, fs, a⟩ := g
      exact ih (allNames t ++ bound) (allNames t ++ bound')

mutual

/-- **A REWRITTEN TREE IS SETTLED** among the names that it was rewritten with. -/
theorem settled_rewriteWith (h : s.Inert) : (e : Expr) → (bound : List String) →
    Settled s bound (rewriteWith s bound e).1
  | .name span id a, bound => by
      rw [rewriteWith]
      by_cases hfree : a = .load ∧ s.fields.contains id = true ∧ bound.contains id = false
      · rw [if_pos hfree]
        exact h.memberField span id
      · rw [if_neg hfree]
        exact settled_name hfree
  | .constant .., _ => rfl
  | .field _ v _ _, bound => settled_field (settled_rewriteWith h v bound)
  | .call span f as ks, bound => by
      rw [rewriteWith]
      by_cases hcall : isOldCall (.call span f as ks) = true
      · rw [if_pos hcall]
        exact h.lookupCall span _
      · rw [if_neg hcall]
        exact settled_call (isOldCall_rewriteWith hcall) (settled_rewriteWith h f bound)
          (settled_rewriteAll h as bound) (settled_rewriteKeywords h ks bound)
  | .lambda _ b kd ds e, bound =>
      settled_lambda (settled_rewriteAll h kd bound) (settled_rewriteAll h ds bound)
        (settled_rewriteWith h e (b.names ++ bound))
  | .comprehension _ _ es gs, bound => by
      refine settled_comprehension (settled_rewriteGenerators h gs bound) ?_
      rw [boundAfter_rewriteGenerators, ← bound_rewriteGenerators s]
      exact settled_rewriteAll h es (rewriteGenerators s bound gs).2.1
  | .compound _ _ ps, bound => settled_compound (settled_rewriteAll h ps bound)

theorem settled_rewriteAll (h : s.Inert) : (es : List Expr) → (bound : List String) →
    SettledAll s bound (rewriteAll s bound es).1
  | [], _ => settledAll_nil
  | e :: es, bound =>
      settledAll_cons (settled_rewriteWith h e bound) (settled_rewriteAll h es bound)

theorem settled_rewriteKeywords (h : s.Inert) : (ks : List Keyword) → (bound : List String) →
    SettledKeywords s bound (rewriteKeywords s bound ks).1
  | [], _ => rfl
  | .mk _ _ v :: ks, bound =>
      settledKeywords_cons (settled_rewriteWith h v bound) (settled_rewriteKeywords h ks bound)

theorem settled_rewriteGenerators (h : s.Inert) : (gs : List Generator) →
    (bound : List String) → SettledGenerators s bound (rewriteGenerators s bound gs).1
  | [], _ => rfl
  | .mk t i fs _ :: gs, bound =>
      settledGenerators_cons (settled_rewriteWith h i bound)
        (settled_rewriteAll h fs (allNames t ++ bound))
        (settled_rewriteGenerators h gs (allNames t ++ bound))

end

/-! ## The law -/

/-- The calls of `old` that are left in a rewritten tree stand in targets, where they were right
    before. -/
theorem all_right_rewriteWith {e : Expr} (hold : s.lookup ≠ oldName) (h : e.All (Right s.self)) :
    (rewriteWith s bound e).1.All (Right s.self) := by
  intro x hx hcall
  obtain ⟨t, ht, hxt, -⟩ := (mem_nodes_rewriteWith hold).mp ⟨hx, hcall⟩
  exact h x (mem_nodes_trans hxt e (mem_nodes_of_mem_targetsIn e ht)) hcall

/-- **REWRITING IS IDEMPOTENT** for a strategy whose names of the instance and of the store stand
    for no fields and whose store is not called `old`: a rewritten tree can be rewritten with the
    same strategy, without an edit, to itself. -/
theorem rewrite_idempotent {s : Strategy} {e e' : Expr} (hself : s.self ∉ s.fields)
    (hlookup : s.lookup ∉ s.fields) (hold : s.lookup ≠ oldName) (h : rewrite s e = .ok e') :
    rewriteWithEdits s e' = .ok (e', []) ∧ rewrite s e' = .ok e' := by
  obtain ⟨⟨e₁, edits⟩, hrewritten, rfl⟩ := map_eq_ok.mp h
  obtain ⟨rs, hrs, hpure⟩ := bind_eq_ok.mp hrewritten
  obtain rfl : (rewriteWith s s.shadowed e).1 = e₁ := congrArg Prod.fst (Except.ok.inj hpure)
  -- the calls of `old` that are left do not stop the second pass
  obtain ⟨rs', hrs'⟩ : ∃ rs', references none s.self (rewriteWith s s.shadowed e).1 = .ok rs' :=
    references_ok_iff.mpr (all_right_rewriteWith hold (references_ok_iff.mp ⟨rs, hrs⟩))
  have hagain : rewriteWithEdits s (rewriteWith s s.shadowed e).1
      = .ok ((rewriteWith s s.shadowed e).1, []) := by
    refine bind_eq_ok.mpr ⟨rs', hrs', ?_⟩
    rw [settled_rewriteWith ⟨hself, hlookup, hold⟩ e s.shadowed]
    rfl
  exact ⟨hagain, map_eq_ok.mpr ⟨_, hagain, rfl⟩⟩

/-- A field that is read, one that a target hides, and an old value: the second pass leaves what
    the first one has made of them. -/
theorem rewrite_idempotent_scopes : ∃ e e',
    parse "all(n > old(total) for n, rows in pairs(rows)) and total" = .ok e ∧
      rewrite (.memberScope ["total", "rows"] []) e = .ok e' ∧
      loadedNames e' = ["all", "self", "n", lookupName, "pairs", "self"] ∧
      rewriteWithEdits (.memberScope ["total", "rows"] []) e' = .ok (e', []) := by
  have hread : (parse "all(n > old(total) for n, rows in pairs(rows)) and total").toOption.bind
      (fun e => (rewrite (.memberScope ["total", "rows"] []) e).toOption.map loadedNames)
      = some ["all", "self", "n", lookupName, "pairs", "self"] := by
    rw [parse_ofList]
    decide +kernel
  obtain ⟨e, he, hread⟩ := Option.bind_eq_some_iff.mp hread
  obtain ⟨e', he', hnames⟩ := Option.map_eq_some_iff.mp hread
  have hagain := rewrite_idempotent (s := .memberScope ["total", "rows"] []) (by decide)
    (by decide) (by decide) (toOption_eq_some.mp he')
  exact ⟨e, e', toOption_eq_some.mp he, toOption_eq_some.mp he', hnames, hagain.1⟩

end Covenant.Condition
