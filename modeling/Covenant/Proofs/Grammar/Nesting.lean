import Covenant.Proofs.Grammar.Nesting.Brackets
import Covenant.Proofs.Grammar.Soundness

/-! # Nesting — the spans of what is read

    Every reader of the grammar gives trees that are laid in the stretch of text
    that it takes, and so what is read from a text is nested
    (`nested_of_readExpression?`).

    * What follows an atom makes a node of it and of what stands between the
      brackets.  Each such node starts where the atom does, so the stretch
      grows to the right only.  An operator makes a node of its operands.
    * The parameters of a `lambda` give up the order of the text: defaults of
      named parameters stand in front of the others in the tree. -/

namespace Covenant.Grammar

open Covenant.Tree Reader

variable {l : Level} {limit : Pos} {c c' : Cursor} {es : List Expr} {e : Expr}

/-! ## Arguments -/

/-- The trees of the arguments of a call. -/
def Arguments.trees (as : Arguments) : List Expr := as.args ++ as.keywords.map Keyword.value

/-- The arguments have one more tree than before, at the end of its kind. -/
def Arguments.OneMore (as as' : Arguments) (e : Expr) : Prop :=
  (as.trees ++ [e]).Perm as'.trees

theorem Arguments.oneMore_args {as : Arguments} {e : Expr} :
    as.OneMore { as with args := as.args ++ [e] } e := by
  show (as.args ++ as.keywords.map Keyword.value ++ [e]).Perm
    (as.args ++ [e] ++ as.keywords.map Keyword.value)
  rw [List.append_assoc, List.append_assoc]
  exact List.perm_append_comm.append_left as.args

theorem Arguments.oneMore_keywords {as : Arguments} {s : Span} {n : Option String} {e : Expr} :
    as.OneMore { as with keywords := as.keywords ++ [.mk s n e] } e := by
  show (as.args ++ as.keywords.map Keyword.value ++ [e]).Perm
    (as.args ++ (as.keywords ++ [Keyword.mk s n e]).map Keyword.value)
  rw [List.map_append, ← List.append_assoc]
  exact .refl _

/-- One more argument. -/
theorem triple_argument (hl : l.Lays) (as : Arguments) :
    Triple (Between limit c as.trees) (argument l as) fun as' => Between limit c as'.trees := by
  refine triple_here fun d hd => ?_
  suffices Triple (Between limit d []) _ fun as' d' =>
      ∃ e, Between limit d [e] d' ∧ as.OneMore as' e from
    this.weaken (fun _ => id) fun as' d' h => by
      obtain ⟨e, he, hmore⟩ := h
      exact (hd.trans he).perm hmore
  refine stable_between.takesOp.bind fun _ => .ite ?_ ?_
  · refine hl.expression.triple.bind fun e => triple_spanFrom.bind fun s => ?_
    exact .pure fun _ h => ⟨e, h.2, Arguments.oneMore_keywords⟩
  refine stable_between.takesOp.bind fun _ => .ite ?_ ?_
  · refine keeps_require.bind fun _ => hl.expression.triple.bind fun e => ?_
    refine triple_spanFrom.bind fun s => ?_
    exact .pure fun _ h => ⟨.compound s (.starred .load) [e], h.2.node h.1 (.refl _),
      Arguments.oneMore_args⟩
  refine keeps_ahead.bind fun _ => .ite ?_ ?_
  · refine stable_between.nextIf.bind fun name => stable_between.op.bind fun _ => ?_
    refine hl.expression.triple.bind fun e => triple_spanFrom.bind fun s => ?_
    exact .pure fun _ h => ⟨e, h.2, Arguments.oneMore_keywords⟩
  · refine keeps_require.bind fun _ => (lays_namedExpression hl).triple.bind fun e => ?_
    refine keeps_sees.bind fun _ => keeps_sees.bind fun _ => keeps_require.bind fun _ => ?_
    exact .pure fun _ h => ⟨e, h, Arguments.oneMore_args⟩

theorem lays_arguments (hl : l.Lays) : Lays Arguments.trees (arguments l) := by
  refine lays_of_triple fun limit c => keeps_sees.bind fun _ => .ite (.pure fun _ => id) ?_
  refine (triple_argument hl {}).bind fun as => ?_
  refine Triple.bind (Triple.whileSome (Q := fun as => Between limit c as.trees) (fun as => ?_) as)
    fun as => stable_between.takesOp.bind fun _ => .pure fun _ => id
  exact (stable_between.op.bind fun _ => triple_argument hl as).maybe

/-! ## Calls and items -/

/-- The brackets of a call behind what is called. -/
theorem triple_callRest (hl : l.Lays) {func : Expr} :
    Triple (Between limit c [func]) (callRest l (c.front limit) func)
      fun e => Between limit c [e] := by
  refine triple_here fun d hd => ?_
  refine stable_between.op.bind fun _ => (lays_arguments hl).triple.bind fun as => ?_
  have hclose {es : List Expr} {mk : Span → Expr} (hspan : ∀ s, (mk s).span = s)
      (hparts : ∀ s, (mk s).parts = func :: es) : Triple (Between limit d es)
        (do pure (mk (← spanFrom (c.front limit)))) fun e => Between limit c [e] := by
    refine Triple.weaken (triple_node hspan fun s => ?_) (fun _ => hd.trans) fun _ _ => id
    rw [hparts]
    exact .refl _
  obtain ⟨args, keywords, unpacked, comma⟩ := as
  dsimp only
  split
  · refine keeps_seesFor.bind fun _ => .ite ?_ ?_
    · refine keeps_require.bind fun _ => (triple_comprehensionRest hl).bind fun g => ?_
      exact hclose (fun _ => rfl) fun _ => rfl
    · exact stable_between.op.bind fun _ => hclose (fun _ => rfl) fun _ => rfl
  · exact stable_between.op.bind fun _ => hclose (fun _ => rfl) fun _ => rfl

theorem lays_index (hl : l.Lays) : LaysOne (index l) := by
  refine lays_of_here fun limit c => ?_
  refine keeps_sees.bind fun _ => .ite (lays_starred hl.expression).triple ?_
  refine keeps_ahead.bind fun naming => keeps_sees.bind fun colon => ?_
  refine .ite (Triple.bind (Q := fun lower => Between limit c lower.toList) (.pure fun _ => id)
    ?rest) ((lays_namedExpression hl).triple.bind fun e => Triple.bind
      (Q := fun lower => Between limit c lower.toList) (.pure fun _ => id) ?rest)
  intro lower
  refine keeps_sees.bind fun b => ?_
  dsimp only
  split
  · exact .pure fun _ => id
  refine keeps_require.bind fun _ => stable_between.op.bind fun _ => ?_
  refine hl.expression.maybe.triple.bind fun upper => stable_between.takesOp.bind fun _ => ?_
  refine .ite (hl.expression.maybe.triple.bind ?node) (Triple.bind (.pure fun _ h => ?_) ?node)
  · exact fun step => triple_node (fun _ => rfl) fun _ => .refl _
  · rw [Option.toList_none, List.append_nil]
    exact h

theorem triple_subscriptRest (hl : l.Lays) {value : Expr} :
    Triple (Between limit c [value]) (subscriptRest l (c.front limit) value)
      fun e => Between limit c [e] := by
  refine stable_between.op.bind fun _ => triple_here fun d hd => ?_
  refine (lays_index hl).commaList.triple.bind fun items => ?_
  have hclose (i : Expr) : Triple (Between limit d [i]) (do
      op "]"
      pure (.compound (← spanFrom (c.front limit)) (.subscript .load) [value, i]))
        fun e => Between limit c [e] := by
    refine stable_between.op.bind fun _ => ?_
    refine Triple.weaken (triple_node (fun _ => rfl) fun _ => .refl _) (fun _ => ?_) fun _ _ => id
    exact hd.trans
  dsimp only
  split
  · refine .ite ?_ (Triple.bind (.pure fun _ => id) hclose)
    exact triple_spanFrom.bind fun s => Triple.bind (Q := fun i => Between limit d [i])
      (.pure fun _ h => h.2.node h.1 (.refl _)) hclose
  · exact triple_spanFrom.bind fun s => Triple.bind (Q := fun i => Between limit d [i])
      (.pure fun _ h => h.2.node h.1 (.refl _)) hclose

/-- An atom with what follows it. -/
theorem lays_primary (hl : l.Lays) : LaysOne (primary l) := by
  refine lays_of_here fun limit c => (lays_atom hl).triple.bind fun a => ?_
  refine Triple.whileSome (Q := fun e => Between limit c [e]) (fun e => ?_) a
  refine keeps_peek.bind fun t => ?_
  split
  · split
    · refine stable_between.op.bind fun _ => stable_between.nextIf.bind fun n => ?_
      refine triple_spanFrom.bind fun s => .pure fun _ h => h.2.node h.1 (.refl _)
    · exact (triple_callRest hl).bind fun _ => .pure fun _ => id
    · exact (triple_subscriptRest hl).bind fun _ => .pure fun _ => id
    · exact .pure fun _ => id
  · exact .pure fun _ => id

/-! ## Operators, from powers to disjunctions -/

theorem lays_awaited (hl : l.Lays) : LaysOne (awaited l) := by
  refine lays_of_here fun limit c => ?_
  refine stable_between.takesWord.bind fun _ => .ite ?_ (lays_primary hl).triple
  exact (lays_primary hl).triple.bind fun e => triple_node (fun _ => rfl) fun _ => .refl _

theorem lays_power (hl : l.Lays) : LaysOne (power l) := by
  refine lays_of_here fun limit c => (lays_awaited hl).triple.bind fun base => ?_
  refine stable_between.takesOp.bind fun _ => .ite ?_ (.pure fun _ => id)
  exact hl.factor.triple.bind fun e => triple_node (fun _ => rfl) fun _ => .refl _

theorem lays_factor (hl : l.Lays) : LaysOne (factor l) := by
  refine lays_of_here fun limit c => keeps_peek.bind fun t => ?_
  split
  · refine Triple.bind stable_between fun _ => hl.factor.triple.bind fun e => ?_
    exact triple_node (fun _ => rfl) fun _ => .refl _
  · exact (lays_power hl).triple

/-- Operands joined from the left. -/
theorem lays_leftAssociative {operator : String → Option BinOp} {operand : Reader Expr}
    (h : LaysOne operand) : LaysOne (leftAssociative operator operand) := by
  refine lays_of_here fun limit c => h.triple.bind fun first => ?_
  refine Triple.whileSome (Q := fun e => Between limit c [e]) (fun e => ?_) first
  refine keeps_peek.bind fun t => ?_
  split
  · refine Triple.bind stable_between fun _ => h.triple.bind fun r => ?_
    exact triple_spanFrom.bind fun s => .pure fun _ h => h.2.node h.1 (.refl _)
  · exact .pure fun _ => id

theorem lays_bitwiseOr (hl : l.Lays) : LaysOne (bitwiseOr l) :=
  lays_leftAssociative (lays_leftAssociative (lays_leftAssociative (lays_leftAssociative
    (lays_leftAssociative (lays_leftAssociative (lays_factor hl))))))

theorem lays_comparison (hl : l.Lays) : LaysOne (comparison l) := by
  refine lays_of_here fun limit c => (lays_bitwiseOr hl).triple.bind fun first => ?_
  refine (Lays.many (?_ : Lays (fun p : CmpOp × Expr => [p.2]) _)).triple.bind fun chain => ?_
  · refine lays_of_triple fun limit c => stable_between.comparisonOp.bind fun o => ?_
    cases o with
    | some o => exact (lays_bitwiseOr hl).triple.bind fun e => .pure fun _ => id
    | none => exact triple_failure
  cases chain with
  | nil => exact .pure fun _ => id
  | cons link chain =>
      refine triple_node (fun _ => rfl) fun _ => ?_
      rw [← List.map_eq_flatMap]
      exact .refl _

theorem lays_inversion (hl : l.Lays) : LaysOne (inversion l) := by
  refine lays_of_here fun limit c => ?_
  refine stable_between.takesWord.bind fun _ => .ite ?_ (lays_comparison hl).triple
  exact hl.inversion.triple.bind fun e => triple_node (fun _ => rfl) fun _ => .refl _

theorem lays_connected {connective : String} {o : BoolOp} {operand : Reader Expr}
    (h : LaysOne operand) : LaysOne (connected connective o operand) := by
  refine lays_of_here fun limit c => h.triple.bind fun first => ?_
  refine (LaysOne.many h.behindWord).triple.bind fun more => ?_
  cases more with
  | nil => exact .pure fun _ => id
  | cons e more => exact triple_node (fun _ => rfl) fun _ => .refl _

theorem lays_disjunction (hl : l.Lays) : LaysOne (disjunction l) :=
  lays_connected (lays_connected (lays_inversion hl))

/-! ## Parameters -/

/-- A default goes behind the others of its kind. -/
theorem perm_named (ps : ParameterList Binder) (b : Binder) (d : Option Expr) :
    (ps.allDefaults ++ d.toList).Perm (ParameterList.allDefaults
      { ps with named := ps.named ++ [(b, d)], needsNamed := false }) := by
  have hlast : [(b, d)].filterMap (·.2) = d.toList := by cases d <;> rfl
  unfold ParameterList.allDefaults
  dsimp only
  rw [List.filterMap_append, hlast, List.append_assoc, List.append_assoc]
  exact List.perm_append_comm.append_left _

theorem triple_parameterEntry (hl : l.Lays) (ps : ParameterList Binder) :
    Triple (Between limit c ps.allDefaults) (parameterEntry binder binder l.expression ps)
      fun ps' => Between limit c ps'.allDefaults := by
  refine keeps_require.bind fun _ => stable_between.takesOp.bind fun _ => .ite ?_ ?_
  · exact keeps_require.bind fun _ => .pure fun _ => id
  refine stable_between.takesOp.bind fun _ => .ite ?_ ?_
  · exact keeps_require.bind fun _ => stable_between.binder.bind fun b => .pure fun _ => id
  refine stable_between.takesOp.bind fun _ => .ite ?_ ?_
  · refine keeps_require.bind fun _ => keeps_sees.bind fun _ => .ite (.pure fun _ => id) ?_
    exact stable_between.binder.bind fun b => .pure fun _ => id
  refine stable_between.binder.bind fun b => stable_between.takesOp.bind fun _ => ?_
  -- the default is read or missing, and the parameter goes where it belongs
  have hend (d : Option Expr) : Triple (Between limit c (ps.allDefaults ++ d.toList))
      (plainEnd ps b d) fun ps' => Between limit c ps'.allDefaults := by
    refine .ite (.pure fun _ h => h.perm (perm_named ps b d)) ?_
    refine keeps_require.bind fun _ => .pure fun _ h => h.perm ?_
    rw [ParameterList.allDefaults, List.append_assoc]
    exact .refl _
  refine .ite ?_ ?_
  · refine hl.expression.triple.bind fun d => ?_
    exact Triple.bind (Q := fun d => Between limit c (ps.allDefaults ++ d.toList))
      (.pure fun _ => id) hend
  · refine Triple.bind (Q := fun d => Between limit c (ps.allDefaults ++ d.toList))
      (.pure fun _ h => ?_) hend
    rw [Option.toList_none, List.append_nil]
    exact h

theorem lays_parameterList (hl : l.Lays) : Lays ParameterList.allDefaults
    (parameterList ":" binder binder l.expression) := by
  refine lays_of_triple fun limit c => keeps_sees.bind fun _ => .ite (.pure fun _ => id) ?_
  refine (triple_parameterEntry hl {}).bind fun ps => ?_
  refine Triple.bind (Triple.whileSome (Q := fun ps => Between limit c ps.allDefaults)
    (fun ps => ?_) ps) fun ps => ?_
  · exact (stable_between.op.bind fun _ => triple_parameterEntry hl ps).maybe
  · refine stable_between.takesOp.bind fun _ => keeps_sees.bind fun _ => ?_
    exact keeps_require.bind fun _ => .pure fun _ => id

theorem lays_lambdaExpression (hl : l.Lays) : LaysOne (lambdaExpression l) := by
  refine lays_of_here fun limit c => stable_between.word.bind fun _ => ?_
  refine (lays_parameterList hl).triple.bind fun ps => stable_between.op.bind fun _ => ?_
  refine hl.expression.triple.bind fun body => triple_node (fun _ => rfl) fun _ => ?_
  rw [ParameterList.allDefaults, List.nil_append, List.append_assoc]
  exact .refl _

/-! ## Levels -/

/-- A condition stands behind what it is about, and in front of it in the tree. -/
theorem lays_expression (hl : l.Lays) : LaysOne (expression l) := by
  refine lays_of_here fun limit c => keeps_sees.bind fun _ => ?_
  refine .ite (lays_lambdaExpression hl).triple ?_
  refine (lays_disjunction hl).triple.bind fun e => stable_between.takesWord.bind fun _ => ?_
  refine .ite ?_ (.pure fun _ => id)
  refine (lays_disjunction hl).triple.bind fun test => stable_between.word.bind fun _ => ?_
  refine hl.expression.triple.bind fun other => triple_node (fun _ => rfl) fun _ => ?_
  exact .swap test e [other]

theorem Level.Lays.outer (hl : l.Lays) : l.outer.Lays where
  expression := lays_expression hl
  disjunction := lays_disjunction hl
  inversion := lays_inversion hl
  bitwiseOr := lays_bitwiseOr hl
  factor := lays_factor hl

/-- At every level, what is read is laid in the stretch that is taken. -/
theorem lays_level (n : Nat) : (level n).Lays := by
  induction n with
  | zero => exact ⟨nofun, nofun, nofun, nofun, nofun⟩
  | succ n ih => exact ih.outer

/-- **WHAT IS READ FROM A TEXT IS NESTED**. -/
theorem nested_of_readExpression? {text : List Char} (h : readExpression? text = some e) :
    e.Nested := by
  obtain ⟨tokens, htokens, h⟩ := Option.bind_eq_some_iff.mp h
  obtain ⟨⟨e', c⟩, hread, h⟩ := Option.bind_eq_some_iff.mp h
  have he : e' = e := by
    dsimp only at h
    split at h
    · split_ifs at h
      exact Option.some.inj h
    · cases h
  subst he
  unfold Token.lex at htokens
  split_ifs at htokens
  have hlaid := lays_expressions (lays_level _) (c := ⟨tokens, Pos.start⟩)
    (Token.inOrder_lexFrom htokens) hread
  exact hlaid.laid.nested e' List.mem_cons_self

end Covenant.Grammar
