import Covenant.Grammar.Statement
import Covenant.Proofs.Grammar.Nesting.Between

/-! # Steady readers — what a reader takes, it takes from the front

    A reader may look at tokens, and it may take them one by one.  So whatever
    taking one token keeps of a cursor, the whole reader keeps.

    * `Steady p` says this of a reader, and there is one rule for each way to
      put readers together.
    * All readers of expressions and patterns are steady (`steady_level`,
      `steady_casePattern`). -/

namespace Covenant.Grammar

open Covenant.Tree Covenant.Token Reader

/-! ## Steady readers -/

section Readers

variable {α β : Type} {p q : Reader α} {o w : String}

/-- The reader keeps whatever taking a token keeps. -/
def Steady (p : Reader α) : Prop := ∀ ⦃P⦄, Stable P → Keeps P p

theorem Steady.bind {f : α → Reader β} (hp : Steady p) (hf : ∀ a, Steady (f a)) :
    Steady (p >>= f) :=
  fun _ hP => (hp hP).bind fun a => hf a hP

theorem steady_pure (a : α) : Steady (pure a : Reader α) := fun _ _ => .pure fun _ => id

theorem steady_failure : Steady (failure : Reader α) := fun _ _ => triple_failure

theorem Steady.ite {b : Bool} (hp : Steady p) (hq : Steady q) : Steady (if b then p else q) :=
  fun _ hP => .ite (hp hP) (hq hP)

theorem steady_next : Steady next := fun _ hP => hP

theorem steady_peek : Steady peek := fun _ _ => keeps_peek

theorem steady_sees {test : Token → Bool} : Steady (sees test) := fun _ _ => keeps_sees

theorem steady_ahead : Steady (ahead p) := fun _ _ => keeps_ahead

theorem steady_require {b : Bool} : Steady (require b) := fun _ _ => keeps_require

theorem steady_seesFor : Steady seesFor := fun _ _ => keeps_seesFor

theorem steady_here : Steady here := .bind steady_peek fun _ => steady_pure _

theorem steady_spanFrom {start : Pos} : Steady (spanFrom start) := by
  intro P hP c s c' hc h
  obtain ⟨rfl, -⟩ := spanFrom_eq_some.mp h
  exact hc

/-- A node of what has been read. -/
theorem steady_node {start : Pos} {f : Span → α} : Steady (do pure (f (← spanFrom start))) :=
  .bind steady_spanFrom fun _ => steady_pure _

theorem steady_nextIf {test : Token → Bool} : Steady (nextIf test) := fun _ hP => hP.nextIf

theorem steady_op : Steady (op o) := fun _ hP => hP.op

theorem steady_word : Steady (word w) := fun _ hP => hP.word

theorem steady_takesOp : Steady (takesOp o) := fun _ hP => hP.takesOp

theorem steady_takesWord : Steady (takesWord w) := fun _ hP => hP.takesWord

theorem steady_identifier : Steady identifier := steady_nextIf

theorem steady_layout {kind : TokenKind} : Steady (layout kind) :=
  .bind steady_nextIf fun _ => steady_pure _

section Keeping

variable {P : Cursor → Prop}

theorem keeps_maybe (h : Keeps P p) : Keeps P (maybe p) :=
  h.maybe.weaken (fun _ => id) fun o _ h => by cases o <;> exact h

theorem keeps_orElse (hp : Keeps P p) (hq : Keeps P q) : Keeps P (orElse p q) := by
  intro c a c' hc h
  rcases Option.or_eq_some_iff.mp h with h | ⟨-, h⟩
  · exact hp hc h
  · exact hq hc h

theorem keeps_whileSome {step : α → Reader (Option α)} (h : ∀ a, Keeps P (step a)) (a : α) :
    Keeps P (whileSome step a) :=
  Triple.whileSome (fun a => (h a).weaken (fun _ => id) fun o _ h => by cases o <;> exact h) a

theorem keeps_many (h : Keeps P p) : Keeps P (many p) := by
  refine (keeps_whileSome (fun _ => (keeps_maybe h).bind fun o => ?_) _).bind fun _ => .pure fun _ => id
  cases o <;> exact .pure fun _ => id

theorem keeps_many1 (h : Keeps P p) : Keeps P (many1 p) :=
  h.bind fun _ => (keeps_many h).bind fun _ => .pure fun _ => id

end Keeping

theorem Steady.maybe (h : Steady p) : Steady (maybe p) := fun _ hP => keeps_maybe (h hP)

theorem Steady.orElse (hp : Steady p) (hq : Steady q) : Steady (orElse p q) :=
  fun _ hP => keeps_orElse (hp hP) (hq hP)

theorem Steady.whileSome {step : α → Reader (Option α)} (h : ∀ a, Steady (step a)) (a : α) :
    Steady (whileSome step a) :=
  fun _ hP => keeps_whileSome (fun a => h a hP) a

theorem Steady.many (h : Steady p) : Steady (many p) := fun _ hP => keeps_many (h hP)

theorem Steady.many1 (h : Steady p) : Steady (many1 p) := fun _ hP => keeps_many1 (h hP)

theorem Steady.behindOp (h : Steady p) : Steady (do op o; p) := .bind steady_op fun _ => h

theorem Steady.behindWord (h : Steady p) : Steady (do word w; p) := .bind steady_word fun _ => h

theorem Steady.separated (h : Steady p) : Steady (separated o p) :=
  h.bind fun _ => h.behindOp.many.bind fun _ => steady_pure _

theorem Steady.commaList (h : Steady p) : Steady (commaList p) :=
  h.separated.bind fun _ => .bind steady_takesOp fun _ => steady_pure _

end Readers

/-! ## Lists and comprehensions -/

/-- The law for the rules that nest. -/
structure Level.Steady (l : Level) : Prop where
  expression : Grammar.Steady l.expression
  disjunction : Grammar.Steady l.disjunction
  inversion : Grammar.Steady l.inversion
  bitwiseOr : Grammar.Steady l.bitwiseOr
  factor : Grammar.Steady l.factor

section Expressions

variable {l : Level} {p : Reader Expr} {closer : String}

theorem steady_useAs {access : Access} {starAllowed : Bool} {e : Expr} :
    Steady (useAs access starAllowed e) := by
  unfold useAs
  split
  · exact steady_pure _
  · exact steady_failure

theorem steady_tupleUnlessSingle {start : Pos} {items : List Expr × Bool} :
    Steady (tupleUnlessSingle start items) := by
  unfold tupleUnlessSingle
  split
  · exact steady_pure _
  · exact steady_node

theorem steady_namedExpression (hl : l.Steady) : Steady (namedExpression l) := by
  refine .bind steady_here fun _ => hl.expression.bind fun e => ?_
  split
  · refine .bind steady_sees fun _ => .ite ?_ (steady_pure _)
    exact .bind steady_op fun _ => hl.expression.bind fun _ =>
      steady_node
  · exact steady_pure _

theorem steady_starred (h : Steady p) : Steady (starred p) :=
  .bind steady_here fun _ => .bind steady_op fun _ => h.bind fun _ =>
    steady_node

/-- What may be starred. -/
theorem steady_mayStar {q : Reader Expr} (hp : Steady p) (hq : Steady q) :
    Steady (do if ← seesOp "*" then starred p else q) :=
  .bind steady_sees fun _ => .ite (steady_starred hp) hq

theorem steady_starNamedExpression (hl : l.Steady) : Steady (starNamedExpression l) :=
  steady_mayStar hl.bitwiseOr (steady_namedExpression hl)

theorem steady_starExpressions (hl : l.Steady) : Steady (starExpressions l) :=
  .bind steady_here fun _ => (steady_mayStar hl.bitwiseOr hl.expression).commaList.bind fun _ =>
    steady_tupleUnlessSingle

theorem steady_yieldExpression (hl : l.Steady) : Steady (yieldExpression l) := by
  refine .bind steady_here fun _ => .bind steady_word fun _ => .bind steady_takesWord fun _ => .ite ?_ ?_
  · exact hl.expression.bind fun _ => steady_node
  · refine (steady_starExpressions hl).maybe.bind fun o => ?_
    cases o <;> exact steady_node

theorem steady_starTargets (hl : l.Steady) : Steady (starTargets l) :=
  .bind steady_here fun _ => (steady_mayStar hl.bitwiseOr hl.bitwiseOr).commaList.bind fun _ =>
    .bind steady_tupleUnlessSingle fun _ => steady_useAs

theorem steady_forPart (hl : l.Steady) : Steady (forPart l) :=
  .bind steady_takesWord fun _ => .bind steady_word fun _ => (steady_starTargets hl).bind fun _ =>
    .bind steady_word fun _ => hl.disjunction.bind fun _ => hl.disjunction.behindWord.many.bind fun _ =>
      steady_pure _

/-! ## Brackets -/

theorem steady_comprehensionRest (hl : l.Steady) {start : Pos} {kind : ComprehensionKind}
    {elements : List Expr} : Steady (comprehensionRest l start kind elements closer) :=
  (steady_forPart hl).many1.bind fun _ => .bind steady_op fun _ =>
    steady_node

theorem steady_itemsRest (hl : l.Steady) : Steady (itemsRest l closer) :=
  (steady_starNamedExpression hl).behindOp.many.bind fun _ =>
    .bind steady_takesOp fun _ => .bind steady_op fun _ => steady_pure _

theorem steady_round (hl : l.Steady) : Steady (round l) := by
  refine .bind steady_here fun _ => .bind steady_op fun _ => ?_
  refine .bind steady_takesOp fun _ => .ite (steady_node) ?_
  refine .bind steady_sees fun _ => .ite ?_ ?_
  · exact (steady_yieldExpression hl).bind fun _ => .bind steady_op fun _ =>
      steady_pure _
  refine (steady_starNamedExpression hl).bind fun _ => ?_
  refine .bind steady_takesOp fun _ => .ite (steady_require.bind fun _ => steady_pure _) ?_
  refine .bind steady_seesFor fun _ => .ite ?_ ?_
  · exact .bind steady_require fun _ => steady_comprehensionRest hl
  · exact .bind steady_sees fun _ => .bind steady_require fun _ => (steady_itemsRest hl).bind fun _ =>
      steady_node

theorem steady_square (hl : l.Steady) : Steady (square l) := by
  refine .bind steady_here fun _ => .bind steady_op fun _ => ?_
  refine .bind steady_takesOp fun _ => .ite (steady_node) ?_
  refine (steady_starNamedExpression hl).bind fun _ => ?_
  refine .bind steady_seesFor fun _ => .ite ?_ ?_
  · exact .bind steady_require fun _ => steady_comprehensionRest hl
  · exact (steady_itemsRest hl).bind fun _ => steady_node

theorem steady_mappingItem (hl : l.Steady) : Steady (mappingItem l) := by
  refine .bind steady_takesOp fun _ => .ite ?_ ?_
  · exact hl.bitwiseOr.bind fun _ => steady_pure _
  · exact hl.expression.bind fun _ => .bind steady_op fun _ =>
      hl.expression.bind fun _ => steady_pure _

theorem steady_mappingRest (hl : l.Steady) {start : Pos} {first : Option Expr × Expr} :
    Steady (mappingRest l start first) :=
  (steady_mappingItem hl).behindOp.many.bind fun _ =>
    .bind steady_takesOp fun _ => .bind steady_op fun _ =>
      steady_node

theorem steady_curly (hl : l.Steady) : Steady (curly l) := by
  refine .bind steady_here fun _ => .bind steady_op fun _ => ?_
  refine .bind steady_takesOp fun _ => .ite (steady_node) ?_
  refine .bind steady_sees fun _ => .ite ?_ ?_
  · exact (steady_mappingItem hl).bind fun _ => steady_mappingRest hl
  refine .bind steady_ahead fun _ => (steady_starNamedExpression hl).bind fun _ => ?_
  refine .bind steady_sees fun _ => .ite ?_ ?_
  · refine .bind steady_require fun _ => .bind steady_op fun _ =>
      hl.expression.bind fun _ => .bind steady_seesFor fun _ => .ite ?_ ?_
    · exact steady_comprehensionRest hl
    · exact steady_mappingRest hl
  refine .bind steady_seesFor fun _ => .ite ?_ ?_
  · exact .bind steady_require fun _ => steady_comprehensionRest hl
  · exact (steady_itemsRest hl).bind fun _ => steady_node

/-! ## Atoms and what follows them -/

theorem steady_atom (hl : l.Steady) : Steady (atom l) := by
  refine .bind steady_peek fun t => ?_
  split
  · split
    · exact .bind steady_next fun _ => steady_pure _
    · exact .bind steady_identifier fun _ => steady_pure _
  · refine .bind steady_next fun _ => ?_
    split
    · exact steady_pure _
    · exact steady_failure
  · refine steady_nextIf.many1.bind fun _ => ?_
    split
    · exact steady_pure _
    · exact steady_failure
  · split
    · exact steady_round hl
    · exact steady_square hl
    · exact steady_curly hl
    · exact .bind steady_next fun _ => steady_pure _
    · exact steady_failure
  · exact steady_failure

theorem steady_argument (hl : l.Steady) {as : Arguments} : Steady (argument l as) := by
  refine .bind steady_here fun _ => .bind steady_takesOp fun _ => .ite ?_ ?_
  · exact hl.expression.bind fun _ => steady_node
  refine .bind steady_takesOp fun _ => .ite ?_ ?_
  · exact .bind steady_require fun _ => hl.expression.bind fun _ => steady_node
  refine .bind steady_ahead fun _ => .ite ?_ ?_
  · exact .bind steady_identifier fun _ => .bind steady_op fun _ =>
      hl.expression.bind fun _ => steady_node
  · exact .bind steady_require fun _ => (steady_namedExpression hl).bind fun _ =>
      .bind steady_sees fun _ => .bind steady_sees fun _ => .bind steady_require fun _ => steady_pure _

theorem steady_arguments (hl : l.Steady) : Steady (arguments l) := by
  refine .bind steady_sees fun _ => .ite (steady_pure _) ?_
  refine (steady_argument hl).bind fun _ => Steady.bind (.whileSome (fun _ => ?_) _) fun _ => ?_
  · exact (steady_argument hl).behindOp.maybe
  · exact .bind steady_takesOp fun _ => steady_pure _

theorem steady_callRest (hl : l.Steady) {start : Pos} {f : Expr} : Steady (callRest l start f) := by
  refine .bind steady_here fun _ => .bind steady_op fun _ => ?_
  refine (steady_arguments hl).bind fun as => ?_
  split
  · refine .bind steady_seesFor fun _ => .ite ?_ ?_
    · exact .bind steady_require fun _ => (steady_comprehensionRest hl).bind fun _ =>
        steady_node
    · exact .bind steady_op fun _ => steady_node
  · exact .bind steady_op fun _ => steady_node

theorem steady_index (hl : l.Steady) : Steady (index l) := by
  have hoptional : Steady (maybe l.expression) := hl.expression.maybe
  refine .bind steady_here fun _ => .bind steady_sees fun _ => .ite (steady_starred hl.expression) ?_
  refine .bind steady_ahead fun _ => .bind steady_sees fun _ => .ite ((steady_pure _).bind ?lower)
    ((steady_namedExpression hl).bind fun _ => (steady_pure _).bind ?lower)
  refine fun lower => .bind steady_sees fun _ => ?_
  split
  · exact steady_pure _
  · refine .bind steady_require fun _ => .bind steady_op fun _ => hoptional.bind fun _ => ?_
    exact .bind steady_takesOp fun _ => .ite (hoptional.bind fun _ => steady_node)
      ((steady_pure _).bind fun _ => steady_node)

theorem steady_subscriptRest (hl : l.Steady) {start : Pos} {e : Expr} :
    Steady (subscriptRest l start e) := by
  refine .bind steady_op fun _ => .bind steady_here fun _ => ?_
  refine (steady_index hl).commaList.bind fun items => ?_
  have hend (i : Expr) : Steady (do
      op "]"
      pure (Expr.compound (← spanFrom start) (.subscript .load) [e, i])) :=
    .bind steady_op fun _ => steady_node
  split
  · exact .ite (steady_spanFrom.bind fun _ => (steady_pure _).bind hend) ((steady_pure _).bind hend)
  · exact .bind steady_spanFrom fun _ => (steady_pure _).bind hend

theorem steady_primary (hl : l.Steady) : Steady (primary l) := by
  refine .bind steady_here fun _ => (steady_atom hl).bind fun _ => .whileSome (fun _ => ?_) _
  refine .bind steady_peek fun _ => ?_
  split
  · split
    · exact .bind steady_op fun _ => .bind steady_identifier fun _ =>
        steady_node
    · exact (steady_callRest hl).bind fun _ => steady_pure _
    · exact (steady_subscriptRest hl).bind fun _ => steady_pure _
    · exact steady_pure _
  · exact steady_pure _

/-! ## Operators -/

theorem steady_awaited (hl : l.Steady) : Steady (awaited l) :=
  .bind steady_here fun _ => .bind steady_takesWord fun _ =>
    .ite ((steady_primary hl).bind fun _ => steady_node)
      (steady_primary hl)

theorem steady_power (hl : l.Steady) : Steady (power l) :=
  .bind steady_here fun _ => (steady_awaited hl).bind fun _ => .bind steady_takesOp fun _ =>
    .ite (hl.factor.bind fun _ => steady_node) (steady_pure _)

theorem steady_factor (hl : l.Steady) : Steady (factor l) := by
  refine .bind steady_here fun _ => .bind steady_peek fun t => ?_
  split
  · exact .bind steady_next fun _ => hl.factor.bind fun _ => steady_node
  · exact steady_power hl

theorem steady_leftAssociative {operator : String → Option BinOp}
    (h : Steady p) : Steady (leftAssociative operator p) := by
  refine .bind steady_here fun _ => h.bind fun _ => .whileSome (fun _ => .bind steady_peek fun t => ?_) _
  split
  · exact .bind steady_next fun _ => h.bind fun _ => steady_node
  · exact steady_pure _

theorem steady_bitwiseOr (hl : l.Steady) : Steady (bitwiseOr l) := by
  refine steady_leftAssociative ?_
  refine steady_leftAssociative ?_
  refine steady_leftAssociative ?_
  refine steady_leftAssociative ?_
  refine steady_leftAssociative ?_
  exact steady_leftAssociative (steady_factor hl)

theorem steady_comparisonOp : Steady comparisonOp := by
  refine .bind steady_peek fun t => ?_
  split
  · split
    · exact .bind steady_next fun _ => steady_pure _
    · exact steady_pure _
  · split_ifs
    · exact .bind steady_next fun _ => steady_pure _
    · exact .bind steady_next fun _ => .bind steady_takesWord fun _ => steady_pure _
    · exact Steady.maybe (steady_word.bind fun _ => .bind steady_word fun _ => steady_pure _)
    · exact steady_pure _
  · exact steady_pure _

theorem steady_comparison (hl : l.Steady) : Steady (comparison l) := by
  refine .bind steady_here fun _ => (steady_bitwiseOr hl).bind fun _ => Steady.bind (.many ?_) fun _ =>
    .ite (steady_pure _) (steady_node)
  refine .bind steady_comparisonOp fun o => ?_
  cases o with
  | some o => exact (steady_bitwiseOr hl).bind fun _ => steady_pure _
  | none => exact steady_failure

theorem steady_inversion (hl : l.Steady) : Steady (inversion l) :=
  .bind steady_here fun _ => .bind steady_takesWord fun _ =>
    .ite (hl.inversion.bind fun _ => steady_node)
      (steady_comparison hl)

theorem steady_connected {w : String} {o : BoolOp} (h : Steady p) : Steady (connected w o p) :=
  .bind steady_here fun _ => h.bind fun _ => h.behindWord.many.bind fun _ =>
    .ite (steady_pure _) (steady_node)

theorem steady_disjunction (hl : l.Steady) : Steady (disjunction l) :=
  steady_connected (steady_connected (steady_inversion hl))

/-! ## Parameters and expressions -/

section Parameters

variable {α : Type} {plain star : Reader α}

theorem steady_parameterEntry (hplain : Steady plain) (hstar : Steady star) (hp : Steady p)
    {ps : ParameterList α} : Steady (parameterEntry plain star p ps) := by
  refine .bind steady_require fun _ => .bind steady_takesOp fun _ => .ite ?_ ?_
  · exact .bind steady_require fun _ => steady_pure _
  refine .bind steady_takesOp fun _ => .ite ?_ ?_
  · exact .bind steady_require fun _ => hplain.bind fun _ => steady_pure _
  refine .bind steady_takesOp fun _ => .ite ?_ ?_
  · exact .bind steady_require fun _ => .bind steady_sees fun _ =>
      .ite (steady_pure _) (hstar.bind fun _ => steady_pure _)
  refine hplain.bind fun _ => .bind steady_takesOp fun _ => .ite
    (hp.bind fun _ => (steady_pure _).bind ?default) ((steady_pure _).bind ?default)
  exact fun _ => .ite (steady_pure _) (steady_require.bind fun _ => steady_pure _)

theorem steady_parameterList (hplain : Steady plain) (hstar : Steady star) (hp : Steady p) :
    Steady (parameterList closer plain star p) := by
  have hentry {ps : ParameterList α} : Steady (parameterEntry plain star p ps) :=
    steady_parameterEntry hplain hstar hp
  refine .bind steady_sees fun _ => .ite (steady_pure _) ?_
  refine hentry.bind fun _ => Steady.bind (.whileSome (fun _ => ?_) _) fun _ => ?_
  · exact hentry.behindOp.maybe
  · exact .bind steady_takesOp fun _ => .bind steady_sees fun _ =>
      .bind steady_require fun _ => steady_pure _

end Parameters

theorem steady_lambdaExpression (hl : l.Steady) : Steady (lambdaExpression l) := by
  have hbinder : Steady binder := .bind steady_identifier fun _ => steady_pure _
  exact .bind steady_here fun _ => .bind steady_word fun _ =>
    (steady_parameterList hbinder hbinder hl.expression).bind fun _ =>
      .bind steady_op fun _ => hl.expression.bind fun _ => steady_node

theorem steady_expression (hl : l.Steady) : Steady (expression l) := by
  refine .bind steady_here fun _ => .bind steady_sees fun _ => .ite (steady_lambdaExpression hl) ?_
  refine (steady_disjunction hl).bind fun _ => .bind steady_takesWord fun _ => .ite ?_ (steady_pure _)
  exact (steady_disjunction hl).bind fun _ => .bind steady_word fun _ => hl.expression.bind fun _ =>
    steady_node

end Expressions

/-- **EVERY LEVEL IS STEADY**, by induction on the nestings. -/
theorem steady_level (n : Nat) : (level n).Steady := by
  induction n with
  | zero =>
      exact ⟨steady_failure, steady_failure, steady_failure, steady_failure, steady_failure⟩
  | succ n ih =>
      exact ⟨steady_expression ih, steady_disjunction ih, steady_inversion ih,
        steady_bitwiseOr ih, steady_factor ih⟩

/-! ## Patterns -/

section Patterns

variable {l : Level} {pattern : Reader Pattern}

theorem steady_plainNumber : Steady plainNumber := by
  refine .bind steady_nextIf fun _ => ?_
  split
  · exact steady_pure _
  · exact steady_failure

theorem steady_signedNumber : Steady signedNumber :=
  .bind steady_here fun _ => .bind steady_takesOp fun _ =>
    .ite (steady_plainNumber.bind fun _ => steady_node)
      steady_plainNumber

theorem steady_sumOp : Steady sumOp :=
  .bind steady_takesOp fun _ => .ite (steady_pure _)
    (steady_takesOp.bind fun _ => .ite (steady_pure _) (steady_pure _))

theorem steady_numberPattern : Steady numberPattern := by
  refine .bind steady_here fun _ => .bind steady_signedNumber fun _ => .bind steady_sumOp fun o => ?_
  cases o with
  | some o =>
      exact .bind steady_plainNumber fun _ => .bind steady_require fun _ => steady_node
  | none => exact steady_pure _

theorem steady_literalExpression : Steady (literalExpression l) := by
  refine .bind steady_peek fun t => ?_
  split
  · refine steady_nextIf.many1.bind fun _ => ?_
    split
    · exact steady_pure _
    · exact steady_failure
  · split
    · exact .bind steady_next fun _ => steady_pure _
    · exact steady_failure
  · exact steady_numberPattern

theorem steady_dottedName : Steady dottedName :=
  .bind steady_here fun _ => .bind steady_identifier fun _ => .whileSome (fun _ => Steady.maybe
    (steady_op.bind fun _ => .bind steady_identifier fun _ => steady_node)) _

theorem steady_captureTarget : Steady captureTarget :=
  .bind steady_identifier fun _ => .bind steady_sees fun _ => .bind steady_sees fun _ =>
    .bind steady_sees fun _ => .bind steady_require fun _ => steady_pure _

theorem steady_starPattern : Steady starPattern :=
  .bind steady_op fun _ => .bind steady_takesWord fun _ =>
    .ite (steady_pure _) (steady_captureTarget.bind fun _ => steady_pure _)

theorem steady_sequenceItems (h : Steady pattern) : Steady (sequenceItems pattern) :=
  Steady.commaList (steady_sees.bind fun _ => .ite steady_starPattern h)

theorem steady_roundPattern (h : Steady pattern) : Steady (roundPattern pattern) := by
  refine .bind steady_op fun _ => ?_
  refine .bind steady_takesOp fun _ => .ite (steady_pure _) ?_
  refine (steady_sequenceItems h).bind fun items => .bind steady_op fun _ => ?_
  split
  · exact steady_failure
  · exact steady_pure _
  · exact steady_pure _

theorem steady_squarePattern (h : Steady pattern) : Steady (squarePattern pattern) := by
  refine .bind steady_op fun _ => ?_
  refine .bind steady_takesOp fun _ => .ite (steady_pure _) ?_
  exact (steady_sequenceItems h).bind fun _ => .bind steady_op fun _ => steady_pure _

theorem steady_mappingPatternItem (h : Steady pattern) :
    Steady (mappingPatternItem l pattern) := by
  refine .bind steady_takesOp fun _ => .ite ?_ ?_
  · exact .bind steady_captureTarget fun _ => steady_pure _
  · refine Steady.bind (steady_literalExpression.orElse (steady_dottedName.bind fun e => ?key))
      fun _ => .bind steady_op fun _ => h.bind fun _ => steady_pure _
    split
    · exact steady_pure _
    · exact steady_failure

theorem steady_curlyPattern (h : Steady pattern) : Steady (curlyPattern l pattern) := by
  refine .bind steady_op fun _ => ?_
  refine .bind steady_takesOp fun _ => .ite (steady_pure _) ?_
  exact (steady_mappingPatternItem h).commaList.bind fun _ => .bind steady_op fun _ =>
    .bind steady_require fun _ => steady_pure _

theorem steady_callPatternItem (h : Steady pattern) : Steady (callPatternItem pattern) :=
  .bind steady_ahead fun _ => .ite
    (steady_identifier.bind fun _ => .bind steady_op fun _ => h.bind fun _ =>
      steady_pure _)
    (h.bind fun _ => steady_pure _)

theorem steady_namePattern (h : Steady pattern) : Steady (namePattern pattern) := by
  refine .bind steady_dottedName fun e => .bind steady_takesOp fun _ => .ite ?_ ?_
  · refine .bind steady_takesOp fun _ => .ite (steady_pure _) ?_
    exact (steady_callPatternItem h).commaList.bind fun _ => .bind steady_op fun _ =>
      .bind steady_require fun _ => steady_pure _
  · refine .bind steady_sees fun _ => .bind steady_require fun _ => ?_
    split
    · exact steady_pure _
    · exact steady_pure _
    · exact steady_pure _

theorem steady_closedPattern (h : Steady pattern) : Steady (closedPattern l pattern) := by
  refine .bind steady_peek fun t => ?_
  have hliteral : Steady (do pure (.value (← literalExpression l)) : Reader Pattern) :=
    .bind steady_literalExpression fun _ => steady_pure _
  split
  · split
    · exact steady_roundPattern h
    · exact steady_squarePattern h
    · exact steady_curlyPattern h
    · exact hliteral
  · split
    · exact .bind steady_next fun _ => steady_pure _
    · exact steady_namePattern h
  · exact hliteral

theorem steady_patternAt (n : Nat) : Steady (patternAt l n) := by
  induction n with
  | zero => exact steady_failure
  | succ n ih =>
      exact (steady_closedPattern ih).separated.bind fun _ => .bind steady_takesWord fun _ =>
        .ite (steady_captureTarget.bind fun _ => steady_pure _) (steady_pure _)

theorem steady_casePattern : Steady (casePattern l) := by
  refine (steady_sequenceItems (steady_patternAt _)).bind fun (ps, comma) => ?_
  dsimp only
  split
  · exact steady_failure
  · exact steady_pure _
  · exact steady_pure _

end Patterns

end Covenant.Grammar
