import Covenant.Proofs.Grammar.Statements
import Covenant.Proofs.Grammar.Texts

/-! # Kinds of statements — what each kind is made of

    A statement is read from its words and signs, from what its expressions
    are read as, and from what its block is read as.

    * `Spells fs e` says that tokens of the faces `fs` are read as an
      expression of the shape of `e`; what is derived is (`Spells.of_derives`),
      and so is a call that is awaited (`spells_await`).
    * Statements of one line and statements with a block are read whatever
      follows them (`reads_raise`, `reads_assign`, `reads_branch`). -/

namespace Covenant.Grammar

open Covenant.Tree Covenant.Token Reader

variable {fit : Expr → Prop} {t u v : Token} {ts us rest : List Token} {fs gs hs : List Face}
  {e e' : Expr} {n m depth : Nat} {stop : Pos} {l : Level} {block : Reader (List Stmt)}

/-! ## Words and signs -/

theorem wordFace_ne (w o : String) : wordFace w ≠ signFace o := fun h => nomatch congrArg Prod.fst h

theorem isOp_eq_false {f : Face} {o : String} (h : f ≠ signFace o) (ht : (t.kind, t.text) = f) :
    isOp o t = false := by
  rw [Bool.eq_false_iff]
  intro heq
  obtain ⟨hkind, htext⟩ := isOp_eq_true.mp heq
  exact h (by rw [← ht, hkind, htext])

theorem isOp_of_face {o : String} (h : (t.kind, t.text) = signFace o) : isOp o t = true :=
  isOp_eq_true.mpr ⟨congrArg Prod.fst h, congrArg Prod.snd h⟩

theorem isWord_of_face {w : String} (h : (t.kind, t.text) = wordFace w) : isWord w t = true :=
  isWord_eq_true.mpr ⟨congrArg Prod.fst h, congrArg Prod.snd h⟩

/-! ## Expressions -/

/-- Whether an expression may start with a token. -/
def opensExpression (t : Token) : Prop := starts t = true ∨ isWord "await" t = true

theorem isOp_of_opens {o : String} (h : opensExpression t) (ho : startingSigns.contains o = false) :
    isOp o t = false := by
  rcases h with h | h
  · exact isOp_of_starts h ho
  · exact isOp_of_isWord h

theorem isWord_of_opens {w : String} (h : opensExpression t)
    (hw : (keywords.contains w && !startingWords.contains w) = true) (hawait : w ≠ "await") :
    isWord w t = false := by
  obtain ⟨hkeyword, hnot⟩ := Bool.and_eq_true_iff.mp hw
  rcases h with h | h
  · exact isWord_of_starts h hkeyword (by simpa using hnot)
  · exact isWord_of_ne h (Ne.symm hawait)

theorem isLayout_of_opens (h : opensExpression t) : isLayout t = false := by
  rw [Bool.eq_false_iff]
  intro hlayout
  rcases h with h | h
  · rw [starts_of_isLayout hlayout] at h
    exact nomatch h
  · rw [isWord_of_isLayout hlayout] at h
    exact nomatch h

/-- Tokens of these faces are read as an expression of this shape. -/
structure Spells (fs : List Face) (e : Expr) : Prop where
  starts : ∀ {ts}, faces ts = fs → ∀ rest, Next opensExpression (ts ++ rest)
  reads : ∀ {ts}, faces ts = fs → ∀ {n}, ts.length ≤ n → ∀ {rest},
    Next (fun t => Rule.expression.stops t = true) rest → Yields (expression (level n)) ts rest e

theorem Spells.congr (h : Spells fs e) (hshape : e.SameShape e') : Spells fs e' where
  starts := h.starts
  reads hts _ hn _ hrest stop := by
    obtain ⟨e'', stop', hread, hshape'⟩ := h.reads hts hn hrest stop
    exact ⟨e'', stop', hread, hshape'.trans hshape⟩

/-- What derives a tree spells it. -/
theorem Spells.of_derives (h : Derives fit ts (.one (.rule .expression) e)) :
    Spells (faces ts) e where
  starts hus rest := by
    obtain ⟨e', hderives, -⟩ := h.relocate hus
    exact (hderives.next rest).mono fun _ h => .inl h
  reads hus n hn rest hrest stop := by
    obtain ⟨e', hderives, hshape⟩ := h.relocate hus
    obtain ⟨e'', stop', hread, hshape'⟩ :=
      (show CompleteOne _ (.rule .expression) e' from hderives.isRead).yields hn hrest stop
    exact ⟨e'', stop', hread, hshape'.trans hshape⟩

theorem complete_await (ht : isWord "await" t = true)
    (h : Derives fit ts (.one (.rule .primary) e)) :
    CompleteOne (t :: ts) (.rule .power) (.compound nowhere .await [e]) := by
  refine complete_rule rfl fun n hn rest hrest stop => ?_
  rw [List.length_cons] at hn
  obtain ⟨e', stop', hread, hshape⟩ :=
    (show CompleteOne ts (.rule .primary) e from h.isRead).yields (n := n) (by omega)
      (hrest.mono fun _ h => stops_mono h (by decide)) t.span.stop
  refine ⟨.compound ⟨t.span.start, stop'⟩ .await [e'], stop', ?_,
    sameShape_compound (map_cons_congr hshape rfl)⟩
  have hawaited : awaited (level n) ⟨t :: (ts ++ rest), stop⟩
      = some (.compound ⟨t.span.start, stop'⟩ .await [e'], ⟨rest, stop'⟩) := by
    rw [awaited, bind_of_eq here_cons, bind_of_eq (takesWord_cons ht), if_pos rfl]
    exact (bind_of_eq hread).trans rfl
  show power (level n) _ = _
  rw [List.cons_append, power, bind_of_eq here_cons, bind_of_eq hawaited,
    bind_of_eq (takesOp_of_next (hrest.mono fun _ h => isOp_of_stops h rfl))]
  rfl

/-- **AWAITED** primaries are spelled with the word in front of them. -/
theorem spells_await (h : Derives fit ts (.one (.rule .primary) e)) :
    Spells (wordFace "await" :: faces ts) (.compound nowhere .await [e]) where
  starts hus rest := by
    obtain ⟨t, us, rfl, ht, -⟩ := List.map_eq_cons_iff.mp hus
    exact .cons (.inr (isWord_of_face ht))
  reads hus n hn rest hrest := by
    obtain ⟨t, us, rfl, ht, hus⟩ := List.map_eq_cons_iff.mp hus
    have ht : isWord "await" t = true := isWord_of_face ht
    obtain ⟨e', hderives, hshape⟩ := h.relocate hus
    have hlead {r : Rule} : ∀ u ∈ (t :: us).head?, (leadRule u).rank ≤ r.rank := by
      intro u hu
      obtain rfl := Option.some.inj hu
      rw [leadRule_of_isWord ht]
      exact Nat.zero_le _
    have hclimb {r : Rule} (hr : r ≠ .primary)
        (h : CompleteOne (t :: us) (.rule r) (.compound nowhere .await [e'])) :
        CompleteOne (t :: us) (.rule r.outer) (.compound nowhere .await [e']) :=
      complete_outer_of_lead (List.cons_ne_nil t us) hlead hr h
    have hpower := complete_await ht hderives
    have hsum := hclimb (by decide) (hclimb (by decide) (hclimb (by decide) hpower))
    have hor := hclimb (by decide) (hclimb (by decide) (hclimb (by decide)
      (hclimb (by decide) hsum)))
    have hnot := hclimb (by decide) (hclimb (by decide) hor)
    have hwhole := hclimb (by decide) (hclimb (by decide) (hclimb (by decide) hnot))
    intro stop
    obtain ⟨e'', stop', hread, hshape'⟩ := hwhole.yields hn hrest stop
    exact ⟨e'', stop', hread, hshape'.trans (sameShape_compound (map_cons_congr hshape rfl))⟩

/-! ## Statements of one line -/

/-- The words that start statements with blocks. -/
def compoundWords : List String :=
  ["def", "class", "if", "while", "for", "with", "try", "async", "elif", "else"]

/-- The words that start statements of one line. -/
def simpleWords : List String :=
  ["return", "raise", "pass", "break", "continue", "del", "assert", "global", "nonlocal", "import",
   "from", "yield"]

/-- No statement with a keyword starts with an identifier. -/
theorem not_statementWord {w : String} (h : keywords.contains w = false) :
    compoundWords.contains w = false ∧ simpleWords.contains w = false := by
  have hall : ∀ w ∈ compoundWords ++ simpleWords, keywords.contains w = true := by decide
  have hnot : ¬ w ∈ compoundWords ++ simpleWords := fun hw => by
    rw [hall w hw] at h
    exact nomatch h
  rw [List.mem_append, not_or] at hnot
  exact ⟨by simpa using hnot.1, by simpa using hnot.2⟩

theorem compoundStatement_eq_none (hop : isOp "@" t = false)
    (hword : t.kind = .name → compoundWords.contains t.text = false) :
    compoundStatement l block t u = none := by
  rw [compoundStatement, hop, if_neg Bool.false_ne_true]
  by_cases hkind : t.kind = .name
  · rw [if_neg (not_not.mpr hkind)]
    have hword := hword hkind
    split
    all_goals first | rfl | (rename_i heq; rw [heq] at hword; exact absurd hword (by decide))
  · rw [if_pos hkind]

/-- A value that is given to the name `match` is no subject. -/
theorem selection_of_equals (ht : isWord "match" t = true) (hu : isOp "=" u = true) :
    selection (level (n + 1)) block ⟨t :: u :: ts, stop⟩ = none := by
  have hstarts : starts u = false := by
    rw [Bool.eq_false_iff]
    intro h
    rw [isOp_of_starts h (o := "=") rfl] at hu
    exact nomatch hu
  have hexpression : (level (n + 1)).expression ⟨u :: ts, t.span.stop⟩ = none :=
    reader_of_not_starts hstarts (isWord_of_isOp hu) .expression
  have hitem : starNamedExpression (level (n + 1)) ⟨u :: ts, t.span.stop⟩ = none := by
    rw [starNamedExpression, bind_of_eq (seesOp_of_eq (isOp_of_ne hu (by decide)))]
    exact (bind_of_eq here_cons).trans (bind_of_none hexpression)
  have hsubject : subject (level (n + 1)) ⟨u :: ts, t.span.stop⟩ = none :=
    (bind_of_eq here_cons).trans (bind_of_none (bind_of_none (bind_of_none hitem)))
  exact (bind_of_eq (word_cons ht)).trans (bind_of_none hsubject)

/-- A line of one simple statement is read up to its end. -/
theorem statementLine_of_simple {s : Stmt} {stop' : Pos}
    (hcompound : compoundStatement (level (n + 1)) block t u = none)
    (hmatch : isWord "match" t = false ∨ isOp "=" u = true)
    (hread : simpleStatement (level (n + 1)) ⟨t :: u :: ts, stop⟩ = some (s, ⟨v :: rest, stop'⟩))
    (hv : v.kind = .newline) :
    statementLine (level (n + 1)) block ⟨t :: u :: ts, stop⟩ = some ([s], ⟨rest, stop'⟩) := by
  have hlayout : isLayout v = true := isLayout_of_eq hv (by simp)
  have hsemicolon : isOp ";" v = false := isOp_of_isLayout hlayout
  have hmany : many (do op ";"; simpleStatement (level (n + 1))) ⟨v :: rest, stop'⟩
      = some ([], ⟨v :: rest, stop'⟩) :=
    many_of_reads .nil (Nat.zero_le _) (bind_of_none (op_of_false hsemicolon))
  have hseparated : separated ";" (simpleStatement (level (n + 1))) ⟨t :: u :: ts, stop⟩
      = some ([s], ⟨v :: rest, stop'⟩) :=
    (bind_of_eq hread).trans ((bind_of_eq hmany).trans rfl)
  have hline : simpleLine (level (n + 1)) ⟨t :: u :: ts, stop⟩ = some ([s], ⟨rest, stop'⟩) := by
    rw [simpleLine, bind_of_eq hseparated, bind_of_eq (takesOp_of_false hsemicolon),
      bind_of_eq (layout_cons hv (by simp))]
    rfl
  rw [statementLine, bind_of_eq nextTwo_cons]
  dsimp only
  rw [hcompound]
  dsimp only
  cases hword : isWord "match" t with
  | false => exact hline
  | true =>
      have hequals := hmatch.resolve_left (by simp [hword])
      have hnone : (do pure [← selection (level (n + 1)) block] : Reader (List Stmt)) ⟨t :: u :: ts, stop⟩
          = none := bind_of_none (selection_of_equals hword hequals)
      show (Option.or _ _) = _
      rw [hnone]
      exact hline

/-- A simple statement is read from its words and expressions. -/
theorem reads_simple {P : Stmt → Prop} {f : Face} (hop : f ≠ signFace "@")
    (hword : f.1 = .name → compoundWords.contains f.2 = false)
    (hmatch : f ≠ wordFace "match" ∨ gs.head? = some (signFace "="))
    (hread : ∀ {ts}, faces ts = f :: gs → ∀ {n}, ts.length ≤ n → ∀ {v rest}, v.kind = .newline →
      ∀ stop, ∃ s stop', simpleStatement (level (n + 1)) ⟨ts ++ v :: rest, stop⟩
        = some (s, ⟨v :: rest, stop'⟩) ∧ P s) :
    ReadsStatement 0 (f :: gs ++ [lineEnd]) P where
  starts := by
    refine ⟨f, gs ++ [lineEnd], rfl, ?_, ?_⟩ <;>
    · rintro rfl
      exact absurd (hword rfl) (by decide)
  reads {ts} hts {n m} hn _ {rest} _ stop := by
    obtain ⟨us, vs, rfl, hus, hvs⟩ := List.map_eq_append_iff.mp hts
    obtain ⟨v, rfl, hv⟩ := List.map_eq_singleton_iff.mp hvs
    have hv : v.kind = .newline := congrArg Prod.fst hv
    simp only [List.length_append] at hn
    obtain ⟨s, stop', hstatement, hs⟩ := @hread us hus n (by omega) v rest hv stop
    obtain ⟨t, us, rfl, ht, hgs⟩ := List.map_eq_cons_iff.mp hus
    have hat : isOp "@" t = false := isOp_eq_false hop ht
    have hnot : t.kind = .name → compoundWords.contains t.text = false := fun hkind => by
      have hword := hword (by rw [← ht, hkind])
      rwa [← ht] at hword
    obtain ⟨u, ws, hws, hu⟩ : ∃ u ws, us ++ v :: rest = u :: ws ∧
        (isWord "match" t = false ∨ isOp "=" u = true) := by
      cases us with
      | nil =>
          refine ⟨v, rest, rfl, .inl ?_⟩
          obtain rfl : gs = [] := hgs.symm
          exact isWord_eq_false (hmatch.resolve_right nofun) ht
      | cons u us =>
          refine ⟨u, us ++ v :: rest, rfl, hmatch.imp (fun h => isWord_eq_false h ht) fun h => ?_⟩
          rw [← hgs] at h
          exact isOp_of_face (Option.some.inj h)
    refine ⟨s, stop', ?_, hs⟩
    rw [List.cons_append, hws] at hstatement
    rw [List.append_assoc, List.cons_append, List.cons_append, List.nil_append, hws]
    exact statementLine_of_simple (compoundStatement_eq_none hat hnot) hu hstatement hv

/-- The reader of a statement is told by its first token alone, but for `async`. -/
theorem statementLine_of_compound {p : Reader Stmt} {s : Stmt} {c : Cursor}
    (h : compoundStatement l block t u = some p) (hread : p ⟨t :: u :: ts, stop⟩ = some (s, c)) :
    statementLine l block ⟨t :: u :: ts, stop⟩ = some ([s], c) := by
  rw [statementLine, bind_of_eq nextTwo_cons]
  dsimp only
  rw [h]
  exact (bind_of_eq hread).trans rfl

/-- A statement that starts with a keyword is read by its own reader. -/
theorem simpleStatement_of_word {w : String} {p : Reader Stmt} (ht : isWord w t = true)
    (hp : keywordStatement l w = some p) :
    simpleStatement l ⟨t :: ts, stop⟩ = p ⟨t :: ts, stop⟩ := by
  obtain ⟨hkind, htext⟩ := isWord_eq_true.mp ht
  rw [simpleStatement, bind_of_eq peek_cons, if_pos hkind, htext, hp]

/-- In front of an expression no simple statement ends. -/
theorem seesEnd_of_opens (h : Next opensExpression ts) :
    seesEnd ⟨ts, stop⟩ = some (false, ⟨ts, stop⟩) := by
  obtain ⟨t, us, rfl, ht⟩ := h
  have hnot : (decide (t.kind = .newline) || isOp ";" t) = false := by
    rw [Bool.or_eq_false_iff]
    refine ⟨decide_eq_false fun hkind => ?_, isOp_of_opens ht rfl⟩
    have hlayout := isLayout_of_opens ht
    rw [isLayout_of_eq hkind (by simp)] at hlayout
    exact nomatch hlayout
  exact hnot ▸ sees_cons

/-- **RAISING** is read with what is raised. -/
theorem reads_raise (h : Spells hs e) :
    ReadsStatement 0 (wordFace "raise" :: hs ++ [lineEnd])
      fun s => ∃ e', s = .raising (some e') none ∧ e'.SameShape e :=
  reads_simple (by decide) (fun _ => by decide) (.inl (by decide)) fun hts n hn v rest hv stop => by
    obtain ⟨t, us, rfl, ht, hus⟩ := List.map_eq_cons_iff.mp hts
    have ht : isWord "raise" t = true := isWord_of_face ht
    have hlayout : isLayout v = true := isLayout_of_eq hv (by simp)
    rw [List.length_cons] at hn
    obtain ⟨e', stop', hread, hshape⟩ := h.reads hus (n := n) (by omega)
      (.cons (stops_of_isLayout hlayout) : Next _ (v :: rest)) t.span.stop
    refine ⟨.raising (some e') none, stop', ?_, e', rfl, hshape⟩
    rw [List.cons_append, simpleStatement_of_word ht rfl, bind_of_eq (word_cons ht),
      bind_of_eq (seesEnd_of_opens (h.starts hus _)), if_neg Bool.false_ne_true]
    refine (bind_of_eq hread).trans ?_
    rw [bind_of_eq (takesWord_of_false (isWord_of_isLayout hlayout))]
    rfl

/-- A list of one item that no comma follows. -/
theorem commaList_single {α : Type} {p : Reader α} {a : α} {c : Cursor} {stop' : Pos}
    (h : p c = some (a, ⟨rest, stop'⟩)) (hrest : Next (fun t => isOp "," t = false) rest) :
    commaList p c = some (([a], false), ⟨rest, stop'⟩) := by
  have hmore : (do op ","; p : Reader α) ⟨rest, stop'⟩ = none := by
    obtain ⟨t, us, rfl, ht⟩ := hrest
    exact bind_of_none (op_of_false ht)
  have hseparated : separated "," p c = some ([a], ⟨rest, stop'⟩) :=
    (bind_of_eq h).trans ((bind_of_eq (many_of_reads .nil (Nat.zero_le _) hmore)).trans rfl)
  exact (bind_of_eq hseparated).trans ((bind_of_eq (takesOp_of_next hrest)).trans rfl)

/-- An expression is read where several could stand. -/
theorem Spells.reads_star (h : Spells hs e) (hts : faces ts = hs) (hn : ts.length ≤ n)
    (hrest : Next (fun t => Rule.expression.stops t = true ∧ isOp "," t = false) rest) :
    Yields (starExpressions (level (n + 1))) ts rest e := by
  intro stop
  obtain ⟨e', stop', hread, hshape⟩ := h.reads hts hn (hrest.mono fun _ h => h.1) stop
  have hopens := h.starts hts rest
  refine ⟨e', stop', ?_, hshape⟩
  rw [starExpressions, bind_of_eq (here_of_next (hopens.mono fun _ _ => trivial))]
  refine (bind_of_eq (commaList_single ?_ (hrest.mono fun _ h => h.2))).trans rfl
  rw [bind_of_eq (seesOp_of_next (hopens.mono fun _ h => isOp_of_opens h rfl))]
  exact hread

theorem stops_comma_of_isLayout (h : isLayout t = true) :
    Rule.expression.stops t = true ∧ isOp "," t = false :=
  ⟨stops_of_isLayout h, isOp_of_isLayout h⟩

/-- **RETURNING** is read with what is returned. -/
theorem reads_return (h : Spells hs e) :
    ReadsStatement 0 (wordFace "return" :: hs ++ [lineEnd])
      fun s => ∃ e', s = .ret (some e') ∧ e'.SameShape e :=
  reads_simple (by decide) (fun _ => by decide) (.inl (by decide)) fun hts n hn v rest hv stop => by
    obtain ⟨t, us, rfl, ht, hus⟩ := List.map_eq_cons_iff.mp hts
    have ht : isWord "return" t = true := isWord_of_face ht
    have hlayout : isLayout v = true := isLayout_of_eq hv (by simp)
    rw [List.length_cons] at hn
    obtain ⟨e', stop', hread, hshape⟩ := h.reads_star hus (n := n) (by omega)
      (.cons (stops_comma_of_isLayout hlayout) : Next _ (v :: rest)) t.span.stop
    refine ⟨.ret (some e'), stop', ?_, e', rfl, hshape⟩
    rw [List.cons_append, simpleStatement_of_word ht rfl, bind_of_eq (word_cons ht),
      bind_of_eq (seesEnd_of_opens (h.starts hus _)), if_neg Bool.false_ne_true]
    exact (bind_of_eq hread).trans rfl

theorem keywordStatement_eq_none {w : String} (h : simpleWords.contains w = false) :
    keywordStatement l w = none := by
  rw [keywordStatement.eq_def]
  split
  all_goals first | rfl | exact absurd h (by decide)

/-- What starts with no keyword is read as an expression first. -/
theorem simpleStatement_of_expression
    (h : Next (fun t => t.kind = .name → simpleWords.contains t.text = false) ts) :
    simpleStatement l ⟨ts, stop⟩ = expressionStatement l ⟨ts, stop⟩ ∧
      seesWord "yield" ⟨ts, stop⟩ = some (false, ⟨ts, stop⟩) := by
  obtain ⟨t, us, rfl, ht⟩ := h
  have hyield : isWord "yield" t = false := by
    rw [Bool.eq_false_iff]
    intro hword
    obtain ⟨hkind, htext⟩ := isWord_eq_true.mp hword
    exact absurd (htext ▸ ht hkind) (by decide)
  refine ⟨?_, seesWord_of_eq hyield⟩
  rw [simpleStatement, bind_of_eq peek_cons]
  by_cases hkind : t.kind = .name
  · rw [if_pos hkind, keywordStatement_eq_none (ht hkind)]
  · rw [if_neg hkind]

/-- The first token of what an expression spells, as a face. -/
theorem next_of_face {f : Face} {P : Token → Prop} (hts : faces ts = f :: gs)
    (hf : ∀ t, (t.kind, t.text) = f → P t) (rest : List Token) : Next P (ts ++ rest) := by
  obtain ⟨t, us, rfl, ht, -⟩ := List.map_eq_cons_iff.mp hts
  exact .cons (hf t ht)

/-- **EXPRESSIONS** are statements. -/
theorem reads_expression {f : Face} (h : Spells (f :: gs) e) (hop : f ≠ signFace "@")
    (hword : f.1 = .name →
      compoundWords.contains f.2 = false ∧ simpleWords.contains f.2 = false ∧ f.2 ≠ "match") :
    ReadsStatement 0 (f :: gs ++ [lineEnd]) fun s => ∃ e', s = .expr e' ∧ e'.SameShape e := by
  have hmatch : f ≠ wordFace "match" := by
    rintro rfl
    exact (hword rfl).2.2 rfl
  refine reads_simple hop (fun h => (hword h).1) (.inl hmatch) fun hts n hn v rest hv stop => ?_
  have hlayout : isLayout v = true := isLayout_of_eq hv (by simp)
  obtain ⟨e', stop', hread, hshape⟩ := h.reads_star hts hn
    (.cons (stops_comma_of_isLayout hlayout) : Next _ (v :: rest)) stop
  obtain ⟨hsimple, hyield⟩ := simpleStatement_of_expression (l := level (n + 1))
    (next_of_face hts (fun t ht hkind => by
      rw [← ht] at hword
      exact (hword hkind).2.1) (v :: rest))
  refine ⟨.expr e', stop', ?_, e', rfl, hshape⟩
  rw [hsimple, expressionStatement, bind_of_eq hyield, if_neg Bool.false_ne_true]
  refine (bind_of_eq hread).trans ?_
  rw [bind_of_eq peek_cons, if_neg (kind_of_isLayout hlayout).2]
  rfl

/-- A name is spelled by itself. -/
theorem spells_name {name : String} (h : keywords.contains name = false) :
    Spells [wordFace name] (.name nowhere name .load) := by
  let t : Token := ⟨.name, name, nowhere⟩
  have hatom : Derives (fun _ => True) [t] (.one (.rule .atom) (.name nowhere name .load)) :=
    .name (isIdentifier_eq_true.mpr ⟨rfl, h⟩)
  exact .of_derives (hatom.climb 14)

theorem eq_name_of_sameShape {id : String} {a : Access} (h : e.SameShape (.name nowhere id a)) :
    ∃ span, e = .name span id a := by
  cases e with
  | name span id' a' =>
      obtain ⟨-, rfl, rfl⟩ := Expr.name.inj (show Expr.name nowhere id' a' = .name nowhere id a from h)
      exact ⟨span, rfl⟩
  | constant | field | call | lambda | comprehension | compound => exact nomatch h

/-- **ASSIGNMENTS** to a name are read with their values. -/
theorem reads_assign {name : String} (hname : keywords.contains name = false) (h : Spells hs e) :
    ReadsStatement 0 (wordFace name :: signFace "=" :: hs ++ [lineEnd])
      fun s => ∃ target e', s = .assign [target] e' ∧
        target.SameShape (.name nowhere name .store) ∧ e'.SameShape e := by
  obtain ⟨hcompound, hsimple⟩ := not_statementWord hname
  refine reads_simple (wordFace_ne _ _) (fun _ => hcompound) (.inr rfl)
    fun hts n hn v rest hv stop => ?_
  obtain ⟨t, _, rfl, ht, hts⟩ := List.map_eq_cons_iff.mp hts
  obtain ⟨u, us, rfl, hu, hus⟩ := List.map_eq_cons_iff.mp hts
  have hu : isOp "=" u = true := isOp_of_face hu
  have hlayout : isLayout v = true := isLayout_of_eq hv (by simp)
  simp only [List.length_cons] at hn
  have ht' : faces [t] = [wordFace name] := congrArg (fun f => [f]) ht
  obtain ⟨first, stop₁, hfirst, hfirstShape⟩ := (spells_name hname).reads_star ht' (n := n)
    (Nat.le_trans (Nat.succ_le_succ (Nat.zero_le _)) hn)
    (.cons ⟨stops_of_isOp hu rfl, isOp_of_ne hu (by decide)⟩ : Next _ (u :: (us ++ v :: rest))) stop
  obtain ⟨e', stop₂, hread, hshape⟩ := h.reads_star hus (n := n) (by omega)
    (.cons (stops_comma_of_isLayout hlayout) : Next _ (v :: rest)) u.span.stop
  obtain ⟨hstatement, hyield⟩ := simpleStatement_of_expression (l := level (n + 1))
    (.cons fun hkind => by
      rw [(Prod.mk.inj ht).2]
      exact hsimple : Next _ (t :: u :: (us ++ v :: rest)))
  obtain ⟨span, rfl⟩ := eq_name_of_sameShape hfirstShape
  refine ⟨.assign [.name span name .store] e', stop₂, ?_, _, e', rfl, rfl, hshape⟩
  have hvalue : (do op "="; assignedValue (level (n + 1)) : Reader Expr)
      ⟨u :: (us ++ v :: rest), stop₁⟩ = some (e', ⟨v :: rest, stop₂⟩) := by
    have hopens := h.starts hus (v :: rest)
    rw [bind_of_eq (op_cons hu), assignedValue,
      bind_of_eq (seesWord_of_next (hopens.mono fun _ h => isWord_of_opens h rfl (by decide)))]
    exact hread
  have hlast : (do op "="; assignedValue (level (n + 1)) : Reader Expr) ⟨v :: rest, stop₂⟩ = none :=
    bind_of_none (op_of_false (isOp_of_isLayout hlayout))
  have hvalues : many1 (do op "="; assignedValue (level (n + 1)))
      ⟨u :: (us ++ v :: rest), stop₁⟩ = some ([e'], ⟨v :: rest, stop₂⟩) :=
    (bind_of_eq hvalue).trans ((bind_of_eq (many_of_reads .nil (Nat.zero_le _) hlast)).trans rfl)
  obtain ⟨hkind, htext⟩ := isOp_eq_true.mp hu
  show simpleStatement (level (n + 1)) ⟨t :: u :: (us ++ v :: rest), stop⟩ = _
  rw [hstatement, expressionStatement, bind_of_eq hyield, if_neg Bool.false_ne_true]
  refine (bind_of_eq hfirst).trans ?_
  rw [bind_of_eq peek_cons, if_pos hkind, htext]
  show assignmentRest (level (n + 1)) (.name span name .load) _ = _
  rw [assignmentRest, bind_of_eq hvalues]
  rfl

/-! ## Imports -/

/-- The faces of names with signs between them. -/
def nameFaces (sep : String) : List String → List Face
  | [] => []
  | name :: names => wordFace name :: names.flatMap fun name => [signFace sep, wordFace name]

section Names

variable {α β : Type} {sep : String} {p : Reader α} {val : α → β} {meant : String → β}
  {ok : Token → Prop} {name : String} {names : List String}

theorem isIdentifier_of_face (ht : (t.kind, t.text) = wordFace name)
    (h : keywords.contains name = false) : isIdentifier t = true := by
  obtain ⟨hkind, rfl⟩ := Prod.mk.inj ht
  exact isIdentifier_eq_true.mpr ⟨hkind, h⟩

/-- Names behind signs are read one after the other. -/
theorem takes_names (hp : ∀ {t ts stop}, isIdentifier t = true → Next ok ts →
      ∃ a stop', p ⟨t :: ts, stop⟩ = some (a, ⟨ts, stop'⟩) ∧ val a = meant t.text)
    (hsep : ∀ t, isOp sep t = true → ok t) (hnames : ∀ n ∈ names, keywords.contains n = false)
    (hts : faces ts = names.flatMap fun name => [signFace sep, wordFace name])
    (hrest : Next ok rest) (stop : Pos) :
    ∃ as stop', Takes (do op sep; p) ⟨ts ++ rest, stop⟩ as ⟨rest, stop'⟩ ∧
      as.map val = names.map meant := by
  induction names generalizing ts stop with
  | nil =>
      obtain rfl := List.map_eq_nil_iff.mp hts
      exact ⟨[], stop, .nil, rfl⟩
  | cons name names ih =>
      rw [List.forall_mem_cons] at hnames
      rw [List.flatMap_cons, List.cons_append, List.cons_append, List.nil_append] at hts
      obtain ⟨t, _, rfl, ht, hts⟩ := List.map_eq_cons_iff.mp hts
      obtain ⟨u, us, rfl, hu, hus⟩ := List.map_eq_cons_iff.mp hts
      have hnext : Next ok (us ++ rest) := by
        cases names with
        | nil =>
            obtain rfl := List.map_eq_nil_iff.mp hus
            exact hrest
        | cons next names =>
            obtain ⟨v, vs, rfl, hv, -⟩ := List.map_eq_cons_iff.mp hus
            exact .cons (hsep v (isOp_of_face hv))
      obtain ⟨a, stop₁, hread, ha⟩ :=
        @hp u (us ++ rest) t.span.stop (isIdentifier_of_face hu hnames.1) hnext
      obtain ⟨as, stop', htakes, has⟩ := ih hnames.2 hus stop₁
      refine ⟨a :: as, stop', .cons ?_ ?_ htakes, ?_⟩
      · exact (bind_of_eq (op_cons (isOp_of_face ht))).trans hread
      · simp only [List.cons_append, List.length_cons]
        omega
      · rw [List.map_cons, ha, (Prod.mk.inj hu).2, has, List.map_cons]

/-- Names with signs between them are read as what they are read as one by one. -/
theorem separated_names (hp : ∀ {t ts stop}, isIdentifier t = true → Next ok ts →
      ∃ a stop', p ⟨t :: ts, stop⟩ = some (a, ⟨ts, stop'⟩) ∧ val a = meant t.text)
    (hsep : ∀ t, isOp sep t = true → ok t)
    (hnames : ∀ n ∈ name :: names, keywords.contains n = false)
    (hts : faces ts = nameFaces sep (name :: names))
    (hrest : Next (fun t => ok t ∧ isOp sep t = false) rest) (stop : Pos) :
    ∃ as stop', separated sep p ⟨ts ++ rest, stop⟩ = some (as, ⟨rest, stop'⟩) ∧
      as.map val = (name :: names).map meant := by
  rw [List.forall_mem_cons] at hnames
  obtain ⟨t, us, rfl, ht, hus⟩ := List.map_eq_cons_iff.mp hts
  have hok : Next ok rest := hrest.mono fun _ h => h.1
  have hnext : Next ok (us ++ rest) := by
    cases names with
    | nil =>
        obtain rfl := List.map_eq_nil_iff.mp hus
        exact hok
    | cons next names =>
        obtain ⟨v, vs, rfl, hv, -⟩ := List.map_eq_cons_iff.mp hus
        exact .cons (hsep v (isOp_of_face hv))
  obtain ⟨a, stop₁, hread, ha⟩ := @hp t (us ++ rest) stop (isIdentifier_of_face ht hnames.1) hnext
  obtain ⟨as, stop', htakes, has⟩ := takes_names hp hsep hnames.2 hus hok stop₁
  have hlast : (do op sep; p : Reader α) ⟨rest, stop'⟩ = none := by
    obtain ⟨v, vs, rfl, -, hv⟩ := hrest
    exact bind_of_none (op_of_false hv)
  refine ⟨a :: as, stop', ?_, by rw [List.map_cons, ha, (Prod.mk.inj ht).2, has, List.map_cons]⟩
  exact (bind_of_eq hread).trans ((bind_of_eq (many_of_takes htakes hlast)).trans rfl)

end Names

/-- The name of a module is read with its parts. -/
theorem moduleName_of_names {part : String} {parts : List String}
    (hparts : ∀ n ∈ part :: parts, keywords.contains n = false)
    (hts : faces ts = nameFaces "." (part :: parts))
    (hrest : Next (fun t => isOp "." t = false) rest) (stop : Pos) :
    ∃ stop', moduleName ⟨ts ++ rest, stop⟩
      = some (".".intercalate (part :: parts), ⟨rest, stop'⟩) := by
  have hone {t : Token} {ts : List Token} {stop : Pos} (ht : isIdentifier t = true)
      (_ : Next (fun _ => True) ts) :
      ∃ u stop', identifier ⟨t :: ts, stop⟩ = some (u, ⟨ts, stop'⟩) ∧ u.text = id t.text :=
    ⟨_, _, identifier_cons ht, rfl⟩
  obtain ⟨us, stop', hread, hus⟩ := separated_names hone (fun _ _ => trivial) hparts hts
    (hrest.mono fun _ h => ⟨trivial, h⟩) stop
  refine ⟨stop', (bind_of_eq hread).trans ?_⟩
  rw [hus, List.map_id]
  rfl

theorem importedAs_cons (ht : isIdentifier t = true)
    (hts : Next (fun t => isWord "as" t = false) ts) :
    importedAs (do pure (← identifier).text) ⟨t :: ts, stop⟩
      = some (⟨t.text, none⟩, ⟨ts, t.span.stop⟩) := by
  have hname : (do pure (← identifier).text : Reader String) ⟨t :: ts, stop⟩
      = some (t.text, ⟨ts, t.span.stop⟩) := (bind_of_eq (identifier_cons ht)).trans rfl
  rw [importedAs, bind_of_eq hname, bind_of_eq (takesWord_of_next hts)]
  rfl

/-- The import of a name as it is. -/
def importOf (name : String) : Alias := ⟨name, none⟩

/-- **IMPORTS** from a module are read with its name and the imported names. -/
theorem reads_importFrom {part name : String} {parts names : List String}
    (hparts : ∀ n ∈ part :: parts, keywords.contains n = false)
    (hnames : ∀ n ∈ name :: names, keywords.contains n = false) :
    ReadsStatement 0 (wordFace "from" :: (nameFaces "." (part :: parts) ++ wordFace "import" ::
        nameFaces "," (name :: names)) ++ [lineEnd])
      (· = .importingFrom (some (".".intercalate (part :: parts)))
        ((name :: names).map importOf) 0) := by
  refine reads_simple (by decide) (fun _ => by decide) (.inl (by decide))
    fun hts n hn v rest hv stop => ?_
  obtain ⟨t, _, rfl, ht, hts⟩ := List.map_eq_cons_iff.mp hts
  obtain ⟨us, _, rfl, hus, hts⟩ := List.map_eq_append_iff.mp hts
  obtain ⟨u, vs, rfl, hu, hvs⟩ := List.map_eq_cons_iff.mp hts
  have ht : isWord "from" t = true := isWord_of_face ht
  have hu : isWord "import" u = true := isWord_of_face hu
  have hlayout : isLayout v = true := isLayout_of_eq hv (by simp)
  have hfirst {o : String} : Next (fun t => isOp o t = false) (us ++ u :: (vs ++ v :: rest)) :=
    next_of_face hus (fun t ht => isOp_eq_false (wordFace_ne _ _) ht) _
  have hnotImport : Next (fun t => isWord "import" t = false) (us ++ u :: (vs ++ v :: rest)) :=
    next_of_face hus (fun t ht => isWord_of_isIdentifier
      (isIdentifier_of_face ht (hparts _ List.mem_cons_self)) (by decide)) _
  have hdots : leadingDots ⟨us ++ u :: (vs ++ v :: rest), t.span.stop⟩
      = some (0, ⟨us ++ u :: (vs ++ v :: rest), t.span.stop⟩) := by
    refine whileSome_of_steps .none (Nat.zero_le _) ?_
    refine (bind_of_eq (takesOp_of_next hfirst)).trans ?_
    exact (bind_of_eq (takesOp_of_next hfirst)).trans rfl
  obtain ⟨stop₁, hmodule⟩ := moduleName_of_names hparts hus
    (.cons (isOp_of_isWord hu) : Next _ (u :: (vs ++ v :: rest))) t.span.stop
  have hone {t : Token} {ts : List Token} {stop : Pos} (ht : isIdentifier t = true)
      (hts : Next (fun t => isWord "as" t = false) ts) :
      ∃ a stop', importedAs (do pure (← identifier).text) ⟨t :: ts, stop⟩
        = some (a, ⟨ts, stop'⟩) ∧ id a = importOf t.text :=
    ⟨_, _, importedAs_cons ht hts, rfl⟩
  have hcomma (t : Token) (h : isOp "," t = true) : isWord "as" t = false := isWord_of_isOp h
  obtain ⟨as, stop₂, hnames', has⟩ := separated_names hone hcomma hnames hvs
    (.cons ⟨isWord_of_isLayout hlayout, isOp_of_isLayout hlayout⟩ : Next _ (v :: rest)) u.span.stop
  rw [List.map_id] at has
  refine ⟨_, stop₂, ?_, rfl⟩
  have himported : importedNames ⟨vs ++ v :: rest, u.span.stop⟩ = some (as, ⟨v :: rest, stop₂⟩) := by
    have hnext {o : String} : Next (fun t => isOp o t = false) (vs ++ v :: rest) :=
      next_of_face hvs (fun t ht => isOp_eq_false (wordFace_ne _ _) ht) _
    rw [importedNames, bind_of_eq (takesOp_of_next hnext)]
    exact (bind_of_eq (takesOp_of_next hnext)).trans hnames'
  rw [List.cons_append, List.append_assoc, List.cons_append, simpleStatement_of_word ht rfl,
    importFrom, bind_of_eq (word_cons ht), bind_of_eq hdots,
    bind_of_eq (seesWord_of_next hnotImport), ← has]
  refine (bind_of_eq hmodule).trans ?_
  refine (bind_of_eq (pure_eq _)).trans ?_
  refine (bind_of_eq require_true).trans ?_
  refine (bind_of_eq (word_cons hu)).trans ?_
  exact (bind_of_eq himported).trans rfl

/-! ## Statements with blocks -/

/-- **CONDITIONAL STATEMENTS** are read with their tests and their blocks. -/
theorem reads_branch {test : Expr} {Q : List Stmt → Prop} (htest : Spells hs test)
    (hbody : ReadsBlock depth fs Q) (hne : fs ≠ []) :
    ReadsStatement (depth + 1)
      (wordFace "if" :: (hs ++ signFace ":" :: lineEnd :: blockStart :: (fs ++ [blockEnd])))
      fun s => ∃ test' body, s = .branch test' body [] ∧ test'.SameShape test ∧ Q body where
  starts := ⟨_, _, rfl, by decide, by decide⟩
  reads {ts} hts {n m} hn hm {rest} hrest stop := by
    obtain ⟨t, _, rfl, ht, hts⟩ := List.map_eq_cons_iff.mp hts
    obtain ⟨us, _, rfl, hus, hts⟩ := List.map_eq_append_iff.mp hts
    obtain ⟨u, vs, rfl, hu, hvs⟩ := List.map_eq_cons_iff.mp hts
    have ht : isWord "if" t = true := isWord_of_face ht
    have hu : isOp ":" u = true := isOp_of_face hu
    simp only [List.length_cons, List.length_append] at hn
    have hcolon : Next (fun t => Rule.expression.stops t = true) (u :: (vs ++ rest)) :=
      .cons (stops_of_isOp hu rfl)
    obtain ⟨test', stop₁, hread, hshape⟩ :=
      namedExpression_of_yields (htest.reads hus (n := n) (by omega) hcolon)
        ((htest.starts hus _).mono fun _ _ => trivial)
        (.cons (isOp_of_ne hu (by decide))) t.span.stop
    obtain ⟨body, stop₂, hblock, hbodies⟩ :=
      blockAt_of_reads hbody hne hvs (n := n) (by omega) hm rest u.span.stop
    refine ⟨.branch test' body [], stop₂, ?_, test', body, rfl, hshape, hbodies⟩
    have helif : many (do
        word "elif"
        let test ← namedExpression (level (n + 1))
        op ":"
        pure (test, ← blockAt (level (n + 1)) m)) ⟨rest, stop₂⟩ = some ([], ⟨rest, stop₂⟩) := by
      obtain ⟨v, ws, rfl, hv, -⟩ := hrest
      exact many_of_reads .nil (Nat.zero_le _) (bind_of_none (word_of_false hv))
    have helse : elseBlock (blockAt (level (n + 1)) m) ⟨rest, stop₂⟩ = some ([], ⟨rest, stop₂⟩) :=
      (bind_of_eq (takesWord_of_next (hrest.mono fun _ h => h.2))).trans rfl
    obtain ⟨v, ws, hws⟩ : ∃ v ws, us ++ u :: (vs ++ rest) = v :: ws := by
      obtain ⟨v, ws, hws, -⟩ := htest.starts hus (u :: (vs ++ rest))
      exact ⟨v, ws, hws⟩
    have hbranches : branches (level (n + 1)) (blockAt (level (n + 1)) m)
        ⟨t :: (us ++ u :: (vs ++ rest)), stop⟩ = some (.branch test' body [], ⟨rest, stop₂⟩) := by
      rw [branches, bind_of_eq (word_cons ht)]
      refine (bind_of_eq hread).trans ?_
      rw [bind_of_eq (op_cons hu), bind_of_eq hblock, bind_of_eq helif, bind_of_eq helse]
      rfl
    rw [List.cons_append, List.append_assoc, List.cons_append, hws]
    rw [hws] at hbranches
    refine statementLine_of_compound ?_ hbranches
    obtain ⟨hkind, htext⟩ := isWord_eq_true.mp ht
    rw [compoundStatement, isOp_of_isWord ht, if_neg Bool.false_ne_true, if_neg (by simp [hkind]),
      htext]
    rfl

/-- **CLASSES** without bases are read with their names and their blocks. -/
theorem reads_class {name : String} {Q : List Stmt → Prop} (hname : keywords.contains name = false)
    (hbody : ReadsBlock depth fs Q) (hne : fs ≠ []) :
    ReadsStatement (depth + 1)
      (wordFace "class" :: wordFace name :: signFace ":" :: lineEnd :: blockStart :: (fs ++ [blockEnd]))
      fun s => ∃ body, s = .cls ⟨name, [], [], []⟩ body ∧ Q body where
  starts := ⟨_, _, rfl, by decide, by decide⟩
  reads {ts} hts {n m} hn hm {rest} hrest stop := by
    obtain ⟨t, _, rfl, ht, hts⟩ := List.map_eq_cons_iff.mp hts
    obtain ⟨u, _, rfl, hu, hts⟩ := List.map_eq_cons_iff.mp hts
    obtain ⟨v, vs, rfl, hv, hvs⟩ := List.map_eq_cons_iff.mp hts
    have ht : isWord "class" t = true := isWord_of_face ht
    have hu : isIdentifier u = true ∧ u.text = name := by
      obtain ⟨hkind, htext⟩ := Prod.mk.inj hu
      exact ⟨isIdentifier_eq_true.mpr ⟨hkind, htext ▸ hname⟩, htext⟩
    have hv : isOp ":" v = true := isOp_of_face hv
    simp only [List.length_cons] at hn
    obtain ⟨body, stop', hblock, hbodies⟩ :=
      blockAt_of_reads hbody hne hvs (n := n) (by omega) hm rest v.span.stop
    refine ⟨.cls ⟨name, [], [], []⟩ body, stop', ?_, body, rfl, hbodies⟩
    have hdecorators : decorators (level (n + 1)) ⟨t :: u :: v :: (vs ++ rest), stop⟩
        = some ([], ⟨t :: u :: v :: (vs ++ rest), stop⟩) :=
      many_of_reads .nil (Nat.zero_le _) (bind_of_none (op_of_false (isOp_of_isWord ht)))
    have hclass : definition (level (n + 1)) (blockAt (level (n + 1)) m)
        ⟨t :: u :: v :: (vs ++ rest), stop⟩ = some (.cls ⟨name, [], [], []⟩ body, ⟨rest, stop'⟩) := by
      rw [definition, bind_of_eq hdecorators, bind_of_eq (seesWord_of_eq ht), if_pos rfl,
        classDefinition, bind_of_eq (word_cons ht), bind_of_eq (identifier_cons hu.1),
        bind_of_eq (takesOp_of_false (isOp_of_ne hv (by decide))), if_neg Bool.false_ne_true]
      refine (bind_of_eq (pure_eq _)).trans ?_
      refine (bind_of_eq (op_cons hv)).trans ?_
      refine (bind_of_eq hblock).trans ?_
      show some (Stmt.cls ⟨u.text, [], [], []⟩ body, _) = _
      rw [hu.2]
    refine statementLine_of_compound ?_ hclass
    obtain ⟨hkind, htext⟩ := isWord_eq_true.mp ht
    rw [compoundStatement, isOp_of_isWord ht, if_neg Bool.false_ne_true, if_neg (by simp [hkind]),
      htext]
    rfl

end Covenant.Grammar
