import Covenant.Proofs.Grammar.Steady

/-! # Functions — where the functions of a program are read

    Readers of statements take tokens one by one as those of expressions do.
    So every function that a program has, at its top or in a class, has been
    read at a cursor that the reader of the program came to.

    * A reader that gives no definition is only asked to be steady (`Plainly`).
    * `PlacedWhere P` says of a statement that it is read where a property of
      cursors holds, if it is a function, and so are its members, if it is a
      class.  What every taken token keeps holds at all of them
      (`placed_of_readProgram`). -/

namespace Covenant.Grammar

open Covenant.Tree Covenant.Token Reader

/-! ## Simple statements -/

section Simple

variable {α β : Type} {l : Level} {p : Reader String} {w : String}

theorem Steady.mapM {f : α → Reader β} (h : ∀ a, Steady (f a)) (as : List α) :
    Steady (as.mapM f) := by
  induction as with
  | nil => exact steady_pure _
  | cons a as ih =>
      rw [List.mapM_cons]
      exact (h a).bind fun _ => ih.bind fun _ => steady_pure _

theorem steady_assignedValue (hl : l.Steady) : Steady (assignedValue l) :=
  .bind steady_sees fun _ => .ite (steady_yieldExpression hl) (steady_starExpressions hl)

theorem steady_moduleName : Steady moduleName :=
  steady_identifier.separated.bind fun _ => steady_pure _

theorem Steady.importedAs (h : Steady p) : Steady (importedAs p) :=
  h.bind fun _ => .bind steady_takesWord fun _ =>
    .ite (steady_identifier.bind fun _ => steady_pure _) (steady_pure _)

theorem steady_leadingDots : Steady leadingDots :=
  .whileSome (fun _ => .bind steady_takesOp fun _ => .ite (steady_pure _)
    (steady_takesOp.bind fun _ => .ite (steady_pure _) (steady_pure _))) _

theorem steady_importedNames : Steady importedNames := by
  have hname : Steady (importedAs (do pure (← identifier).text)) :=
    Steady.importedAs (steady_identifier.bind fun _ => steady_pure _)
  refine .bind steady_takesOp fun _ => .ite (steady_pure _) (steady_takesOp.bind fun _ => .ite ?_ ?_)
  · exact hname.commaList.bind fun _ => .bind steady_op fun _ => steady_pure _
  · exact hname.separated

/-- Whether a statement defines a function or a class. -/
def isDefinition : Stmt → Bool
  | .function .. | .cls .. => true
  | _ => false

/-- The reader keeps a property of the cursor, and what it gives is no definition. -/
def Plainly (P : Cursor → Prop) (p : Reader Stmt) : Prop :=
  Triple P p fun s c => P c ∧ isDefinition s = false

variable {P : Cursor → Prop} {s : Stmt} {q r : Reader Stmt}

theorem Triple.plainly {p : Reader α} {f : α → Reader Stmt} (hp : Keeps P p)
    (hf : ∀ a, Plainly P (f a)) : Plainly P (p >>= f) := hp.bind hf

theorem keeps_pure {a : α} : Keeps P (pure a : Reader α) := .pure fun _ => id

theorem plainly_pure (h : isDefinition s = false) : Plainly P (pure s) :=
  .pure fun _ hc => ⟨hc, h⟩

theorem plainly_ite {b : Bool} (hq : Plainly P q) (hr : Plainly P r) :
    Plainly P (if b then q else r) := Triple.ite hq hr

theorem plainly_assignmentRest (hl : l.Steady) (hP : Stable P) {first : Expr} :
    Plainly P (assignmentRest l first) := by
  refine ((steady_assignedValue hl).behindOp.many1 hP).plainly fun values => ?_
  refine (Steady.mapM (fun _ => steady_useAs) _ hP).plainly fun _ => ?_
  split
  · exact plainly_pure rfl
  · exact triple_failure

theorem plainly_expressionStatement (hl : l.Steady) (hP : Stable P) :
    Plainly P (expressionStatement l) := by
  have hvalue : Keeps P (assignedValue l) := steady_assignedValue hl hP
  refine keeps_sees.plainly fun _ => plainly_ite ?_ ?_
  · exact (steady_yieldExpression hl hP).plainly fun _ => keeps_sees.plainly fun _ =>
      keeps_require.plainly fun _ => plainly_pure rfl
  refine (steady_starExpressions hl hP).plainly fun e => keeps_peek.plainly fun t => ?_
  split
  · split_ifs
    · exact plainly_assignmentRest hl hP
    · refine keeps_require.plainly fun _ => (steady_useAs hP).plainly fun _ => hP.op.plainly fun _ =>
        (hl.expression hP).plainly fun _ => hP.takesOp.plainly fun _ => plainly_ite
          (hvalue.plainly fun _ => keeps_pure.plainly ?value) (keeps_pure.plainly ?value)
      exact fun _ => plainly_pure rfl
    · split
      · exact keeps_require.plainly fun _ => (steady_useAs hP).plainly fun _ => hP.plainly fun _ =>
          hvalue.plainly fun _ => plainly_pure rfl
      · exact plainly_pure rfl
  · exact plainly_pure rfl

theorem plainly_importFrom (hP : Stable P) : Plainly P importFrom := by
  refine hP.word.plainly fun _ => (steady_leadingDots hP).plainly fun _ => keeps_sees.plainly fun _ =>
    plainly_ite (keeps_pure.plainly ?module)
      (Triple.plainly (steady_moduleName hP) fun _ => keeps_pure.plainly ?module)
  exact fun _ => keeps_require.plainly fun _ => hP.word.plainly fun _ =>
    Triple.plainly (steady_importedNames hP) fun _ => plainly_pure rfl

theorem plainly_keywordStatement (hl : l.Steady) (hP : Stable P)
    (h : keywordStatement l w = some q) : Plainly P q := by
  have hword {w : String} {s : Stmt} (hs : isDefinition s = false) : Plainly P (do word w; pure s) :=
    hP.word.plainly fun _ => plainly_pure hs
  have hnames {w : String} {f : List String → Stmt} (hf : ∀ ns, isDefinition (f ns) = false) :
      Plainly P (do word w; pure (f ((← separated "," identifier).map (·.text)))) :=
    hP.word.plainly fun _ => (steady_identifier.separated hP).plainly fun _ => plainly_pure (hf _)
  unfold keywordStatement at h
  split at h
  case h_12 => cases h
  all_goals obtain rfl := Option.some.inj h
  case h_1 =>
    exact hP.word.plainly fun _ => keeps_sees.plainly fun _ => plainly_ite (plainly_pure rfl)
      ((steady_starExpressions hl hP).plainly fun _ => plainly_pure rfl)
  case h_2 =>
    refine hP.word.plainly fun _ => keeps_sees.plainly fun _ => plainly_ite (plainly_pure rfl) ?_
    refine (hl.expression hP).plainly fun _ => hP.takesWord.plainly fun _ =>
      plainly_ite ?_ (plainly_pure rfl)
    exact (hl.expression hP).plainly fun _ => plainly_pure rfl
  case h_6 =>
    exact hP.word.plainly fun _ => (hl.bitwiseOr.commaList hP).plainly fun _ =>
      (Steady.mapM (fun _ => steady_useAs) _ hP).plainly fun _ => keeps_sees.plainly fun _ =>
        keeps_require.plainly fun _ => plainly_pure rfl
  case h_7 =>
    refine hP.word.plainly fun _ => (hl.expression hP).plainly fun _ => hP.takesOp.plainly fun _ =>
      plainly_ite ?_ (plainly_pure rfl)
    exact (hl.expression hP).plainly fun _ => plainly_pure rfl
  case h_8 => exact hnames fun _ => rfl
  case h_9 => exact hnames fun _ => rfl
  case h_10 =>
    exact hP.word.plainly fun _ => (steady_moduleName.importedAs.separated hP).plainly fun _ =>
      plainly_pure rfl
  case h_11 => exact plainly_importFrom hP
  all_goals exact hword rfl

theorem plainly_simpleStatement (hl : l.Steady) (hP : Stable P) :
    Plainly P (simpleStatement l) := by
  refine keeps_peek.plainly fun t => ?_
  split
  next q hq =>
    obtain ⟨-, hq⟩ := Option.ite_none_right_eq_some.mp hq
    exact plainly_keywordStatement hl hP hq
  next => exact plainly_expressionStatement hl hP

end Simple

/-! ## Functions among statements -/

section Functions

variable {α : Type} {P : Cursor → Prop} {l : Level} {block : Reader (List Stmt)} {s : Stmt}

/-- A function that is read where something holds. -/
def ReadWhere (P : Cursor → Prop) (l : Level) (s : Stmt) : Prop :=
  ∃ block ds c c', P c ∧ functionDefinition l block ds c = some (s, c')

/-- If the statement is a function, it is read where something holds. -/
def FunctionWhere (P : Cursor → Prop) (l : Level) (s : Stmt) : Prop :=
  ∀ h b, s = .function h b → ReadWhere P l s

/-- So are the members of the statement, if it is a class. -/
structure PlacedWhere (P : Cursor → Prop) (l : Level) (s : Stmt) : Prop where
  function : FunctionWhere P l s
  members : ∀ h b, s = .cls h b → ∀ m ∈ b, FunctionWhere P l m

theorem placedWhere_of_not_definition (h : isDefinition s = false) : PlacedWhere P l s := by
  refine ⟨?_, ?_⟩
  · rintro k b rfl
    cases h
  · rintro k b rfl
    cases h

/-- The reader keeps the property, and the functions that it gives are read where it holds. -/
def Places (P : Cursor → Prop) (l : Level) (p : Reader (List Stmt)) : Prop :=
  Triple P p fun ss c => P c ∧ ∀ s ∈ ss, PlacedWhere P l s

theorem Places.keeps (h : Places P l block) : Keeps P block :=
  h.weaken (fun _ => id) fun _ _ => And.left

theorem triple_many {p : Reader α} {Q : α → Prop} (h : Triple P p fun a c => P c ∧ Q a) :
    Triple P (many p) fun as c => P c ∧ ∀ a ∈ as, Q a := by
  intro c as c' hc has
  have hreads := many_eq_some has
  clear has
  induction hreads with
  | nil => exact ⟨hc, List.forall_mem_nil _⟩
  | cons hone _ ih =>
      obtain ⟨hd, ha⟩ := h hc hone
      obtain ⟨hc', has⟩ := ih hd
      exact ⟨hc', List.forall_mem_cons.mpr ⟨ha, has⟩⟩

/-- The first item with the others. -/
theorem triple_cons {p : Reader α} {ps : Reader (List α)} {Q : α → Prop}
    (h : Triple P p fun a c => P c ∧ Q a) (hs : Triple P ps fun as c => P c ∧ ∀ a ∈ as, Q a) :
    Triple P (do let a ← p; pure (a :: (← ps))) fun as c => P c ∧ ∀ a ∈ as, Q a := by
  intro c as c' hc has
  obtain ⟨a, d, ha, has⟩ := bind_eq_some.mp has
  obtain ⟨more, d', hmore, has⟩ := bind_eq_some.mp has
  obtain ⟨rfl, rfl⟩ := pure_eq_some.mp has
  obtain ⟨hd, hQ⟩ := h hc ha
  obtain ⟨hc', hQs⟩ := hs hd hmore
  exact ⟨hc', List.forall_mem_cons.mpr ⟨hQ, hQs⟩⟩

theorem triple_many1 {p : Reader α} {Q : α → Prop} (h : Triple P p fun a c => P c ∧ Q a) :
    Triple P (many1 p) fun as c => P c ∧ ∀ a ∈ as, Q a := triple_cons h (triple_many h)

/-- A statement that is no definition has its place. -/
theorem Plainly.placed {q : Reader Stmt} (h : Plainly P q) :
    Triple P q fun s c => P c ∧ PlacedWhere P l s :=
  h.weaken (fun _ => id) fun _ _ h => ⟨h.1, placedWhere_of_not_definition h.2⟩

theorem places_simpleLine (hl : l.Steady) (hP : Stable P) : Places P l (simpleLine l) := by
  have hone : Triple P (simpleStatement l) fun s c => P c ∧ PlacedWhere P l s :=
    Plainly.placed (plainly_simpleStatement hl hP)
  refine Triple.bind (triple_cons hone (triple_many (hP.op.bind fun _ => hone))) fun ss => ?_
  -- what stands at the end of a line changes nothing
  have hend : ∀ hss : (∀ s ∈ ss, PlacedWhere P l s), Triple P (do
      let _ ← takesOp ";"
      layout .newline
      pure ss) fun ss c => P c ∧ ∀ s ∈ ss, PlacedWhere P l s := fun hss =>
    hP.takesOp.bind fun _ => (steady_layout hP).bind fun _ => .pure fun _ h => ⟨h, hss⟩
  exact fun _ _ _ hc => hend hc.2 hc.1

/-! ## Definitions -/

variable (hl : l.Steady) (hP : Stable P)
include hl hP

theorem keeps_decorators : Keeps P (decorators l) :=
  keeps_many (hP.op.bind fun _ => (steady_namedExpression hl hP).bind fun _ =>
    (steady_layout hP).bind fun _ => .pure fun _ => id)

theorem keeps_formals : Keeps P (formals l) := by
  have hget : Steady (get : Reader Cursor) := by
    intro Q _ c d c' hc h
    cases h
    exact hc
  have hformal {p : Reader Expr} (hp : Steady p) : Steady (formal p) := by
    refine .bind steady_identifier fun _ => .bind steady_takesOp fun _ => .ite
      (hp.bind fun _ => (steady_pure _).bind ?hint) ((steady_pure _).bind ?hint)
    exact fun _ => hget.bind fun _ => (steady_pure _).bind fun _ => steady_pure _
  refine (steady_parameterList (hformal hl.expression)
    (hformal (steady_mayStar hl.bitwiseOr hl.expression)) hl.expression hP).bind fun _ => ?_
  exact .pure fun _ => id

variable (hblock : Places P l block)
include hblock

theorem placed_functionDefinition {ds : List Expr} :
    Triple P (functionDefinition l block ds) fun s c => P c ∧ PlacedWhere P l s := by
  have hfunction : Triple P (functionDefinition l block ds) fun s c =>
      P c ∧ ∃ h b, s = .function h b := by
    refine hP.takesWord.bind fun _ => hP.word.bind fun _ => (steady_identifier hP).bind fun _ =>
      hP.op.bind fun _ => (keeps_formals hl hP).bind fun _ => hP.op.bind fun _ =>
        hP.takesOp.bind fun _ => .ite ((hl.expression hP).bind fun _ => keeps_pure.bind ?returns)
          (keeps_pure.bind ?returns)
    exact fun _ => hP.op.bind fun _ => hblock.keeps.bind fun _ => .pure fun _ h => ⟨h, _, _, rfl⟩
  intro c s c' hc h
  obtain ⟨hc', k, b, rfl⟩ := hfunction hc h
  refine ⟨hc', fun _ _ _ => ⟨block, ds, c, c', hc, h⟩, fun _ _ hcls => ?_⟩
  cases hcls

theorem placed_classDefinition {ds : List Expr} :
    Triple P (classDefinition l block ds) fun s c => P c ∧ PlacedWhere P l s := by
  refine hP.word.bind fun _ => (steady_identifier hP).bind fun _ => hP.takesOp.bind fun _ => .ite
    ((steady_arguments hl hP).bind fun _ => hP.op.bind fun _ => keeps_pure.bind ?arguments)
    (keeps_pure.bind ?arguments)
  refine fun as => hP.op.bind fun _ => hblock.bind fun body => .pure fun c h => ⟨h.1, ?_, ?_⟩
  · rintro _ _ hfunction
    cases hfunction
  · rintro k b hcls m hm
    obtain ⟨rfl, rfl⟩ := Stmt.cls.inj hcls
    exact (h.2 m hm).function

theorem placed_definition :
    Triple P (definition l block) fun s c => P c ∧ PlacedWhere P l s :=
  (keeps_decorators hl hP).bind fun _ => keeps_sees.bind fun _ =>
    .ite (placed_classDefinition hl hP hblock) (placed_functionDefinition hl hP hblock)

/-! ## Compound statements -/

omit hl in
theorem keeps_elseBlock : Keeps P (elseBlock block) :=
  hP.takesWord.bind fun _ => .ite (hP.op.bind fun _ => hblock.keeps) (.pure fun _ => id)

theorem plainly_branches : Plainly P (branches l block) := by
  have htest : Keeps P (namedExpression l) := steady_namedExpression hl hP
  refine hP.word.plainly fun _ => htest.plainly fun _ => hP.op.plainly fun _ =>
    hblock.keeps.plainly fun _ => (keeps_many ?_).plainly fun _ =>
      (keeps_elseBlock hP hblock).plainly fun _ => plainly_pure rfl
  exact hP.word.bind fun _ => htest.bind fun _ => hP.op.bind fun _ => hblock.keeps.bind fun _ =>
    .pure fun _ => id

theorem plainly_whileLoop : Plainly P (whileLoop l block) :=
  hP.word.plainly fun _ => Triple.plainly (steady_namedExpression hl hP) fun _ => hP.op.plainly fun _ =>
    hblock.keeps.plainly fun _ => (keeps_elseBlock hP hblock).plainly fun _ => plainly_pure rfl

theorem plainly_forLoop : Plainly P (forLoop l block) :=
  hP.takesWord.plainly fun _ => hP.word.plainly fun _ => Triple.plainly (steady_starTargets hl hP) fun _ =>
    hP.word.plainly fun _ => Triple.plainly (steady_starExpressions hl hP) fun _ => hP.op.plainly fun _ =>
      hblock.keeps.plainly fun _ => (keeps_elseBlock hP hblock).plainly fun _ => plainly_pure rfl

theorem plainly_withStatement : Plainly P (withStatement l block) := by
  have hresource : Steady (resource l) := by
    refine hl.expression.bind fun _ => Steady.bind (.maybe ?_) fun _ => steady_pure _
    refine .bind steady_word fun _ => .bind steady_sees fun _ => .ite
      ((steady_starred hl.bitwiseOr).bind ?target) (hl.bitwiseOr.bind ?target)
    exact fun _ => .bind steady_useAs fun _ => .bind steady_sees fun _ => .bind steady_sees fun _ =>
      .bind steady_sees fun _ => .bind steady_require fun _ => steady_pure _
  have hresources : Steady (resources l) := Steady.orElse
    (steady_op.bind fun _ => hresource.commaList.bind fun _ => .bind steady_op fun _ =>
      .bind steady_op fun _ => steady_pure _)
    (hresource.separated.bind fun _ => .bind steady_op fun _ => steady_pure _)
  exact hP.takesWord.plainly fun _ => hP.word.plainly fun _ => Triple.plainly (hresources hP) fun _ =>
    hblock.keeps.plainly fun _ => plainly_pure rfl

theorem keeps_handler {group : Bool} : Keeps P (handler l block group) := by
  -- a handler without a type has only a block
  have hbare : Keeps P (do pure (Handler.mk none none (← block))) :=
    hblock.keeps.bind fun _ => keeps_pure
  have htyped : Keeps P (do
      let type ← l.expression
      let name ← if ← takesWord "as" then do pure (some (← identifier).text) else pure none
      op ":"
      pure (Handler.mk (some type) name (← block))) := by
    refine (hl.expression hP).bind fun _ => hP.takesWord.bind fun _ => .ite
      ((steady_identifier hP).bind fun _ => keeps_pure.bind ?name) (keeps_pure.bind ?name)
    exact fun _ => hP.op.bind fun _ => hblock.keeps.bind fun _ => keeps_pure
  exact hP.word.bind fun _ => .ite (hP.op.bind fun _ => hP.takesOp.bind fun _ => .ite hbare htyped)
    (keeps_pure.bind fun _ => hP.takesOp.bind fun _ => .ite hbare htyped)

theorem plainly_tryStatement : Plainly P (tryStatement l block) := by
  have hhandler {group : Bool} : Keeps P (handler l block group) := keeps_handler hl hP hblock
  refine hP.word.plainly fun _ => hP.op.plainly fun _ => hblock.keeps.plainly fun _ =>
    keeps_ahead.plainly fun _ => (keeps_many hhandler).plainly fun handlers => plainly_ite
      (keeps_pure.plainly ?final) ((keeps_elseBlock hP hblock).plainly ?final)
  refine fun _ => hP.takesWord.plainly fun _ => plainly_ite (hP.op.plainly fun _ =>
    hblock.keeps.plainly fun _ => keeps_pure.plainly ?last) (keeps_pure.plainly ?last)
  exact fun _ => keeps_require.plainly fun _ => plainly_pure rfl

theorem plainly_selection : Plainly P (selection l block) := by
  have hsubject : Steady (subject l) := by
    refine .bind steady_here fun _ => (steady_starNamedExpression hl).commaList.bind fun items => ?_
    split
    · exact .bind steady_require fun _ => steady_pure _
    · exact steady_tupleUnlessSingle
  have hcase : Keeps P (caseBlock l block) := by
    refine hP.word.bind fun _ => (steady_casePattern hP).bind fun _ => hP.takesWord.bind fun _ => .ite
      ((steady_namedExpression hl hP).bind fun _ => keeps_pure.bind ?guard) (keeps_pure.bind ?guard)
    exact fun _ => hP.op.bind fun _ => hblock.keeps.bind fun _ => keeps_pure
  exact hP.word.plainly fun _ => Triple.plainly (hsubject hP) fun _ => hP.op.plainly fun _ =>
    Triple.plainly (steady_layout hP) fun _ => Triple.plainly (steady_layout hP) fun _ =>
      (keeps_many1 hcase).plainly fun _ => Triple.plainly (steady_layout hP) fun _ => plainly_pure rfl

theorem placed_compoundStatement {first second : Token} {q : Reader Stmt}
    (h : compoundStatement l block first second = some q) :
    Triple P q fun s c => P c ∧ PlacedWhere P l s := by
  have hdefinition := placed_definition hl hP hblock
  have hloop : Triple P (forLoop l block) fun s c => P c ∧ PlacedWhere P l s :=
    Plainly.placed (plainly_forLoop hl hP hblock)
  have hwith : Triple P (withStatement l block) fun s c => P c ∧ PlacedWhere P l s :=
    Plainly.placed (plainly_withStatement hl hP hblock)
  unfold compoundStatement at h
  split at h
  · obtain rfl := Option.some.inj h
    exact hdefinition
  obtain ⟨-, h⟩ := Option.ite_none_left_eq_some.mp h
  split at h
  case h_9 => cases h
  case h_8 =>
    split at h
    · obtain rfl := Option.some.inj h
      exact hdefinition
    · split at h <;> obtain rfl := Option.some.inj h
      · exact hloop
      · exact hwith
  all_goals obtain rfl := Option.some.inj h
  case h_1 | h_2 => exact hdefinition
  case h_3 => exact Plainly.placed (plainly_branches hl hP hblock)
  case h_4 => exact Plainly.placed (plainly_whileLoop hl hP hblock)
  case h_5 => exact hloop
  case h_6 => exact hwith
  case h_7 => exact Plainly.placed (plainly_tryStatement hl hP hblock)

theorem places_statementLine : Places P l (statementLine l block) := by
  have hone {q : Reader Stmt} (h : Triple P q fun s c => P c ∧ PlacedWhere P l s) :
      Places P l (do pure [← q]) :=
    h.bind fun _ => .pure fun _ hs => ⟨hs.1, List.forall_mem_singleton.mpr hs.2⟩
  have hline := places_simpleLine hl hP
  have htwo : Keeps P nextTwo := by
    intro c two c' hc h
    unfold nextTwo at h
    split at h
    · cases h
      exact hc
    · cases h
  refine htwo.bind fun (first, second) => ?_
  dsimp only
  split
  next q hq => exact hone (placed_compoundStatement hl hP hblock hq)
  next =>
    refine .ite ?_ hline
    intro c ss c' hc h
    rcases Option.or_eq_some_iff.mp h with h | ⟨-, h⟩
    · exact hone (Plainly.placed (plainly_selection hl hP hblock)) hc h
    · exact hline hc h

omit hblock in
/-- **BLOCKS** place their functions, by induction on how deep they nest. -/
theorem places_blockAt (n : Nat) : Places P l (blockAt l n) := by
  induction n with
  | zero => exact triple_failure
  | succ n ih =>
      have hlines : Triple P (many1 (statementLine l (blockAt l n)))
          fun lines c => P c ∧ ∀ ss ∈ lines, ∀ s ∈ ss, PlacedWhere P l s :=
        triple_many1 (places_statementLine hl hP ih)
      refine keeps_sees.bind fun _ => .ite ?_ (places_simpleLine hl hP)
      refine Triple.bind (steady_layout hP) fun _ => Triple.bind (steady_layout hP) fun _ =>
        hlines.bind fun lines => ?_
      intro c ss c' hc h
      obtain ⟨_, d, hlayout, h⟩ := bind_eq_some.mp h
      obtain ⟨rfl, rfl⟩ := pure_eq_some.mp h
      refine ⟨steady_layout hP hc.1 hlayout, fun s hs => ?_⟩
      obtain ⟨line, hline, hs⟩ := List.mem_flatten.mp hs
      exact hc.2 line hline s hs

end Functions

/-- **EVERY FUNCTION** of a program is read where the cursor has come to. -/
theorem placed_of_readProgram {text : List Char} {program : List Stmt}
    (h : readProgram? text = some program) : ∃ tokens, Token.lex text = some tokens ∧
      ∀ {P : Cursor → Prop}, Stable P → P ⟨tokens, Pos.start⟩ →
        ∀ s ∈ program, PlacedWhere P (level (text.length + 2)) s := by
  obtain ⟨tokens, htokens, h⟩ := Option.bind_eq_some_iff.mp h
  obtain ⟨⟨lines, c⟩, hread, h⟩ := Option.bind_eq_some_iff.mp h
  refine ⟨tokens, htokens, fun {P} hP hstart s hs => ?_⟩
  have hl := steady_level (text.length + 2)
  have hlines := triple_many (places_statementLine hl hP (places_blockAt hl hP _)) hstart hread
  have hprogram : lines.flatten = program := by
    dsimp only at h
    split at h
    · exact Option.some.inj (Option.ite_none_right_eq_some.mp h).2
    · cases h
  rw [← hprogram] at hs
  obtain ⟨line, hline, hs⟩ := List.mem_flatten.mp hs
  exact hlines.2 line hline s hs

end Covenant.Grammar
