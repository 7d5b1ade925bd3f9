import Covenant.Proofs.Grammar.Nesting.Between

/-! # Nesting of members — targets, lists and the parts of comprehensions

    The rules that nest hold of the level one further in (`Level.Lays`); here
    are the readers of what stands in brackets. -/

namespace Covenant.Grammar

open Covenant.Tree Reader

/-- The law for the rules of a level. -/
structure Level.Lays (l : Level) : Prop where
  expression : LaysOne l.expression
  disjunction : LaysOne l.disjunction
  inversion : LaysOne l.inversion
  bitwiseOr : LaysOne l.bitwiseOr
  factor : LaysOne l.factor

/-! ## Targets -/

section Targets

variable {access : Access}

/-- A name has the same span whatever it is used for. -/
theorem follows_name {s : Span} {id : String} {a a' : Access} :
    (Expr.name s id a').Follows (.name s id a) :=
  follows_of_parts rfl rfl .nil

mutual

/-- A tree used as a target has the spans that it had before. -/
theorem follows_of_asTarget : (e : Expr) → {starAllowed : Bool} → {target : Expr} →
    Expr.asTarget access starAllowed e = some target → target.Follows e
  | .name s id a, _, _, h => by
      obtain rfl := Option.some.inj h
      exact follows_name
  | .constant .., _, _, h => nomatch h
  | .field s v n a, _, _, h => by
      obtain rfl := Option.some.inj h
      exact follows_of_parts rfl rfl (.cons (.refl v) .nil)
  | .call .., _, _, h => nomatch h
  | .lambda .., _, _, h => nomatch h
  | .comprehension .., _, _, h => nomatch h
  | .compound s form ps, starAllowed, target, h => by
      have hsame (ps : List Expr) : List.Forall₂ Expr.Follows ps ps :=
        List.forall₂_same.mpr fun e _ => .refl e
      rw [Expr.asTarget.eq_def] at h
      split at h
      case h_1 heq => cases heq
      case h_2 heq => cases heq
      case h_3 s' a ps' heq =>
        obtain ⟨rfl, rfl, rfl⟩ := Expr.compound.inj heq
        obtain rfl := Option.some.inj h
        exact follows_of_parts rfl rfl (hsame ps)
      case h_4 s' a e heq =>
        obtain ⟨rfl, rfl, rfl⟩ := Expr.compound.inj heq
        split at h
        · split at h
          · cases h
          · obtain ⟨e', he, rfl⟩ := Option.map_eq_some_iff.mp h
            exact follows_of_parts rfl rfl (.cons (follows_of_asTarget e he) .nil)
        · cases h
      case h_5 s' a ps' heq =>
        obtain ⟨rfl, rfl, rfl⟩ := Expr.compound.inj heq
        obtain ⟨ps', hps, rfl⟩ := Option.map_eq_some_iff.mp h
        exact follows_of_parts rfl rfl (follows_of_targets ps hps)
      case h_6 s' a ps' heq =>
        obtain ⟨rfl, rfl, rfl⟩ := Expr.compound.inj heq
        obtain ⟨ps', hps, rfl⟩ := Option.map_eq_some_iff.mp h
        exact follows_of_parts rfl rfl (follows_of_targets ps hps)
      case h_7 => cases h

theorem follows_of_targets : (es : List Expr) → {targets : List Expr} →
    Expr.asTarget.targets access es = some targets → List.Forall₂ Expr.Follows targets es
  | [], _, h => by
      obtain rfl := Option.some.inj h
      exact .nil
  | e :: es, _, h => by
      rw [Expr.asTarget.targets] at h
      obtain ⟨t, ht, h⟩ := Option.bind_eq_some_iff.mp h
      obtain ⟨ts, hts, h⟩ := Option.bind_eq_some_iff.mp h
      obtain rfl := Option.some.inj h
      exact .cons (follows_of_asTarget e ht) (follows_of_targets es hts)

end

end Targets

/-! ## Lists and named expressions -/

section Lists

variable {l : Level} {limit : Pos} {c : Cursor} {es : List Expr}

theorem triple_useAs {access : Access} {starAllowed : Bool} {e : Expr} :
    Triple (Between limit c [e]) (useAs access starAllowed e) fun t => Between limit c [t] := by
  unfold useAs
  split
  · rename_i t ht
    exact .pure fun _ h => h.follow (.cons (follows_of_asTarget e ht) .nil)
  · exact triple_failure

theorem triple_tupleUnlessSingle {items : List Expr × Bool} :
    Triple (Between limit c items.1) (tupleUnlessSingle (c.front limit) items)
      fun e => Between limit c [e] := by
  unfold tupleUnlessSingle
  split
  · exact .pure fun _ => id
  · exact triple_node (fun _ => rfl) fun _ => .refl _

theorem lays_starred {operand : Reader Expr} (h : LaysOne operand) : LaysOne (starred operand) := by
  refine lays_of_here fun limit c => ?_
  refine stable_between.op.bind fun _ => h.triple.bind fun e => ?_
  exact triple_node (fun _ => rfl) fun _ => .refl _

theorem lays_namedExpression (hl : l.Lays) : LaysOne (namedExpression l) := by
  refine lays_of_here fun limit c => ?_
  refine hl.expression.triple.bind fun e => ?_
  split
  · rename_i s name
    refine keeps_sees.bind fun b => .ite ?_ (.pure fun _ => id)
    refine stable_between.op.bind fun _ => hl.expression.triple.bind fun v => ?_
    refine Triple.weaken (triple_node (fun _ => rfl) fun _ => .refl _) ?_ fun _ _ => id
    exact fun _ h => h.follow (.cons follows_name (.cons (.refl v) .nil))
  · exact .pure fun _ => id

theorem lays_starNamedExpression (hl : l.Lays) : LaysOne (starNamedExpression l) :=
  lays_of_triple fun _ _ => keeps_sees.bind fun _ =>
    .ite (lays_starred hl.bitwiseOr).triple (lays_namedExpression hl).triple

theorem lays_expressions (hl : l.Lays) : LaysOne (expressions l) :=
  lays_of_here fun _ _ => hl.expression.commaList.triple.bind fun _ => triple_tupleUnlessSingle

theorem lays_starExpressions (hl : l.Lays) : LaysOne (starExpressions l) := by
  refine lays_of_here fun limit c => ?_
  have hitem : LaysOne (do if ← seesOp "*" then starred l.bitwiseOr else l.expression) :=
    lays_of_triple fun _ _ => keeps_sees.bind fun _ =>
      .ite (lays_starred hl.bitwiseOr).triple hl.expression.triple
  exact hitem.commaList.triple.bind fun _ => triple_tupleUnlessSingle

theorem lays_yieldExpression (hl : l.Lays) : LaysOne (yieldExpression l) := by
  refine lays_of_here fun limit c => ?_
  refine stable_between.word.bind fun _ => stable_between.takesWord.bind fun _ => .ite ?_ ?_
  · exact hl.expression.triple.bind fun e => triple_node (fun _ => rfl) fun _ => .refl _
  · refine (lays_starExpressions hl).triple.maybe.bind fun o => ?_
    cases o with
    | some e => exact triple_node (fun _ => rfl) fun _ => .refl _
    | none => exact triple_node (fun _ => rfl) fun _ => .refl _

end Lists

/-! ## Comprehensions -/

section Comprehensions

variable {l : Level} {limit : Pos} {c : Cursor} {es : List Expr}

theorem lays_starTargets (hl : l.Lays) : LaysOne (starTargets l) := by
  refine lays_of_here fun limit c => ?_
  have hitem : LaysOne (do if ← seesOp "*" then starred l.bitwiseOr else l.bitwiseOr) :=
    lays_of_triple fun _ _ => keeps_sees.bind fun _ =>
      .ite (lays_starred hl.bitwiseOr).triple hl.bitwiseOr.triple
  exact hitem.commaList.triple.bind fun _ => triple_tupleUnlessSingle.bind fun _ => triple_useAs

theorem lays_forPart (hl : l.Lays) : Lays Generator.parts (forPart l) := by
  refine lays_of_triple fun limit c => ?_
  refine stable_between.takesWord.bind fun _ => stable_between.word.bind fun _ => ?_
  refine (lays_starTargets hl).triple.bind fun target => stable_between.word.bind fun _ => ?_
  refine hl.disjunction.triple.bind fun iter => ?_
  refine (LaysOne.many hl.disjunction.behindWord).triple.bind fun filters => ?_
  exact .pure fun _ => id

theorem lays_forParts (hl : l.Lays) : Lays (·.flatMap Generator.parts) (forParts l) :=
  lays_of_triple fun _ _ => (lays_forPart hl).triple.bind fun _ =>
    (lays_forPart hl).many.triple.bind fun _ => .pure fun _ => id

/-- The rest of a comprehension whose elements have been read. -/
theorem triple_comprehensionRest (hl : l.Lays) {kind : ComprehensionKind} {closer : String} :
    Triple (Between limit c es) (comprehensionRest l (c.front limit) kind es closer)
      fun e => Between limit c [e] := by
  refine (lays_forParts hl).triple.bind fun gs => stable_between.op.bind fun _ => ?_
  exact triple_node (fun _ => rfl) fun _ => List.perm_append_comm

/-- The items behind the first one. -/
theorem lays_itemsRest (hl : l.Lays) {closer : String} : Lays id (itemsRest l closer) :=
  lays_of_triple fun _ _ => (LaysOne.many (lays_starNamedExpression hl).behindOp).triple.bind
    fun _ => stable_between.takesOp.bind fun _ => stable_between.op.bind fun _ => .pure fun _ => id

end Comprehensions

end Covenant.Grammar
