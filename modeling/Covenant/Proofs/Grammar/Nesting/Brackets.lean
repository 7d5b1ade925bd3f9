import Covenant.Proofs.Grammar.Nesting.Members
import Covenant.Proofs.Grammar.Nesting.Pieces
import Covenant.Proofs.Grammar.Soundness.Brackets

/-! # Nesting of brackets — groups, displays, mappings and the other atoms

    A group gives the tree between its brackets, which lies in a smaller stretch
    than the group; everything else in brackets is a node of its own. -/

namespace Covenant.Grammar

open Covenant.Tree Covenant.Token Reader

variable {l : Level} {limit : Pos} {c c' : Cursor} {es : List Expr} {e : Expr}

/-! ## Round and square brackets -/

theorem lays_round (hl : l.Lays) : LaysOne (round l) := by
  refine lays_of_here fun limit c => ?_
  refine stable_between.op.bind fun _ => stable_between.takesOp.bind fun _ => .ite ?_ ?_
  · exact triple_node (fun _ => rfl) fun _ => .refl _
  refine keeps_sees.bind fun _ => .ite ?_ ?_
  · exact (lays_yieldExpression hl).triple.bind fun e => stable_between.op.bind fun _ =>
      .pure fun _ => id
  refine (lays_starNamedExpression hl).triple.bind fun e => ?_
  refine stable_between.takesOp.bind fun _ => .ite ?_ ?_
  · exact keeps_require.bind fun _ => .pure fun _ => id
  refine keeps_seesFor.bind fun _ => .ite ?_ ?_
  · exact keeps_require.bind fun _ => triple_comprehensionRest hl
  · refine keeps_sees.bind fun _ => keeps_require.bind fun _ => ?_
    refine (lays_itemsRest hl).triple.bind fun es => ?_
    exact triple_node (fun _ => rfl) fun _ => .refl _

theorem lays_square (hl : l.Lays) : LaysOne (square l) := by
  refine lays_of_here fun limit c => ?_
  refine stable_between.op.bind fun _ => stable_between.takesOp.bind fun _ => .ite ?_ ?_
  · exact triple_node (fun _ => rfl) fun _ => .refl _
  refine (lays_starNamedExpression hl).triple.bind fun e => ?_
  refine keeps_seesFor.bind fun _ => .ite ?_ ?_
  · exact keeps_require.bind fun _ => triple_comprehensionRest hl
  · refine (lays_itemsRest hl).triple.bind fun es => ?_
    exact triple_node (fun _ => rfl) fun _ => .refl _

/-! ## Curly brackets -/

/-- The trees of an item of a mapping, as they come. -/
def pairTrees (p : Option Expr × Expr) : List Expr := p.1.toList ++ [p.2]

/-- A mapping has its keys in front of its values. -/
theorem perm_pairTrees (ps : List (Option Expr × Expr)) :
    (ps.flatMap pairTrees).Perm (ps.filterMap (·.1) ++ ps.map (·.2)) := by
  induction ps with
  | nil => exact .refl _
  | cons p ps ih =>
      obtain ⟨k, v⟩ := p
      have hrest : (v :: ps.flatMap pairTrees).Perm
          (ps.filterMap (·.1) ++ v :: ps.map (·.2)) :=
        (ih.cons v).trans List.perm_middle.symm
      cases k with
      | none => exact hrest
      | some k => exact hrest.cons k

theorem lays_mappingItem (hl : l.Lays) : Lays pairTrees (mappingItem l) := by
  refine lays_of_triple fun limit c => stable_between.takesOp.bind fun _ => .ite ?_ ?_
  · exact hl.bitwiseOr.triple.bind fun v => .pure fun _ => id
  · refine hl.expression.triple.bind fun k => stable_between.op.bind fun _ => ?_
    exact hl.expression.triple.bind fun v => .pure fun _ => id

theorem triple_mappingRest (hl : l.Lays) {first : Option Expr × Expr} :
    Triple (Between limit c (pairTrees first)) (mappingRest l (c.front limit) first)
      fun e => Between limit c [e] := by
  refine (lays_mappingItem hl).behindOp.many.triple.bind fun items => ?_
  refine stable_between.takesOp.bind fun _ => stable_between.op.bind fun _ => ?_
  exact triple_node (fun _ => rfl) fun _ => perm_pairTrees (first :: items)

theorem lays_curly (hl : l.Lays) : LaysOne (curly l) := by
  refine lays_of_here fun limit c => ?_
  refine stable_between.op.bind fun _ => stable_between.takesOp.bind fun _ => .ite ?_ ?_
  · exact triple_node (fun _ => rfl) fun _ => .refl _
  refine keeps_sees.bind fun _ => .ite ?_ ?_
  · exact (lays_mappingItem hl).triple.bind fun first => triple_mappingRest hl
  refine keeps_ahead.bind fun _ => (lays_starNamedExpression hl).triple.bind fun e => ?_
  refine keeps_sees.bind fun _ => .ite ?_ ?_
  · refine keeps_require.bind fun _ => stable_between.op.bind fun _ => ?_
    refine hl.expression.triple.bind fun v => keeps_seesFor.bind fun _ => .ite ?_ ?_
    · exact triple_comprehensionRest hl
    · exact @triple_mappingRest l limit _ hl (some e, v)
  refine keeps_seesFor.bind fun _ => .ite ?_ ?_
  · exact keeps_require.bind fun _ => triple_comprehensionRest hl
  · refine (lays_itemsRest hl).triple.bind fun es => ?_
    exact triple_node (fun _ => rfl) fun _ => .refl _

/-! ## Atoms -/

/-- A constant has no place of its own. -/
theorem Between.constant {place : Span} {v : Constant} (h : Between limit c [] c') :
    Between limit c [.constant place v] c' :=
  have hlaid : LaidIn ⟨c.front limit, c'.lastStop⟩ ([] ++ []) := h.laid
  ⟨h.orderly, h.front, h.stop, hlaid.constant⟩

/-- Tokens read one after the other, none of them layout, are in order. -/
theorem inOrder_of_reads {test : Token → Bool} {ts : List Token}
    (htest : ∀ t, test t = true → isLayout t = false) (hc : c.Orderly limit)
    (h : Reads (nextIf test) c ts c') :
    Between limit c [] c' ∧ InOrder c'.lastStop c.lastStop ts := by
  induction h with
  | nil => exact ⟨.refl hc, le_refl _⟩
  | cons hread _ ih =>
      have hfirst := stable_between.nextIf (.refl hc) hread
      obtain ⟨hrest, horder⟩ := ih hfirst.orderly
      obtain ⟨htokens, hpasses, hstop⟩ := nextIf_eq_some hread
      rw [Cursor.Orderly, htokens] at hc
      rw [hstop (htest _ hpasses)] at horder
      exact ⟨hfirst.trans hrest, hc.1, hc.2.1, horder⟩

/-- Strings side by side are one literal. -/
theorem lays_string {read : EmbeddedReader} (hread : LaysOne read) (hc : c.Orderly limit)
    {ts : List Token} (h : many1 (nextIf (·.kind = .string)) c = some (ts, c'))
    (hliteral : concatenated read ts = some e) : Between limit c [e] c' := by
  obtain ⟨t, d, hfirst, h⟩ := bind_eq_some.mp h
  obtain ⟨ts', d', hmany, h⟩ := bind_eq_some.mp h
  obtain ⟨rfl, rfl⟩ := pure_eq_some.mp h
  have hreads := Reads.cons hfirst (many_eq_some hmany)
  have htest (t : Token) (h : decide (t.kind = .string) = true) : isLayout t = false := by
    simp only [decide_eq_true_eq] at h
    simp [isLayout, h]
  obtain ⟨hbetween, horder⟩ := inOrder_of_reads htest hc hreads
  have horder : InOrder d'.lastStop t.span.start (t :: ts') := ⟨le_refl _, horder.2⟩
  refine ⟨hbetween.orderly, hbetween.front, hbetween.stop, ?_⟩
  rw [front_of_tokens (nextIf_eq_some hfirst).1]
  exact laid_of_concatenated hread horder hliteral

theorem lays_atom (hl : l.Lays) : LaysOne (atom l) := by
  intro limit c e c' hc h
  obtain ⟨t, _, hpeek, h⟩ := bind_eq_some.mp h
  obtain ⟨rfl, ts, hts⟩ := peek_eq_some.mp hpeek
  cases hkind : t.kind with
  | name =>
      rw [hkind] at h
      cases hword : wordConstant t.text with
      | some constant =>
          rw [hword] at h
          obtain ⟨t', d, hnext, h⟩ := bind_eq_some.mp h
          obtain ⟨rfl, rfl⟩ := pure_eq_some.mp h
          exact (stable_between (.refl hc) hnext).constant
      | none =>
          rw [hword] at h
          obtain ⟨t', d, hname, h⟩ := bind_eq_some.mp h
          obtain ⟨rfl, rfl⟩ := pure_eq_some.mp h
          obtain ⟨htokens, htest, hstop⟩ := nextIf_eq_some hname
          obtain ⟨rfl, -⟩ := List.cons.inj (hts.symm.trans htokens)
          refine (stable_between.nextIf (.refl hc) hname).node ?_ (.refl _)
          rw [front_of_tokens hts, hstop (isLayout_of_isIdentifier htest)]
          rfl
  | number =>
      rw [hkind] at h
      obtain ⟨t', d, hnext, h⟩ := bind_eq_some.mp h
      cases hnumber : numberConstant t.text.toList with
      | none =>
          rw [hnumber] at h
          exact (failure_eq_some.mp h).elim
      | some constant =>
          rw [hnumber] at h
          obtain ⟨rfl, rfl⟩ := pure_eq_some.mp h
          exact (stable_between (.refl hc) hnext).constant
  | string =>
      rw [hkind] at h
      obtain ⟨ts, d, hmany, h⟩ := bind_eq_some.mp h
      cases hliteral : concatenated (starExpressions l) ts with
      | none =>
          rw [hliteral] at h
          exact (failure_eq_some.mp h).elim
      | some e' =>
          rw [hliteral] at h
          obtain ⟨rfl, rfl⟩ := pure_eq_some.mp h
          exact lays_string (lays_starExpressions hl) hc hmany hliteral
  | op =>
      rw [hkind] at h
      by_cases hround : t.text = "("
      · rw [hround] at h
        exact lays_round hl hc h
      by_cases hsquare : t.text = "["
      · rw [hsquare] at h
        exact lays_square hl hc h
      by_cases hcurly : t.text = "\x7b"
      · rw [hcurly] at h
        exact lays_curly hl hc h
      by_cases hdots : t.text = "..."
      · rw [hdots] at h
        obtain ⟨t', d, hnext, h⟩ := bind_eq_some.mp h
        obtain ⟨rfl, rfl⟩ := pure_eq_some.mp h
        exact (stable_between (.refl hc) hnext).constant
      simp only at h
      exact (failure_eq_some.mp h).elim
  | newline | indent | dedent | stop =>
      rw [hkind] at h
      exact (failure_eq_some.mp h).elim

end Covenant.Grammar
