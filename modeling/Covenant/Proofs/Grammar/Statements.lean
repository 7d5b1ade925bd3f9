import Covenant.Grammar.Statement
import Covenant.Proofs.Grammar.Completeness
import Covenant.Proofs.Grammar.Relocation
import Covenant.Proofs.Token.Blocks
import Mathlib.Data.List.Forall2

/-! # Statements — programs that are read

    What the readers of statements make of tokens, stated for the faces of the
    tokens, layout included.

    * A statement is read whatever follows it (`ReadsStatement`), statements
      are read one after the other (`ReadsBlock`), and an indented block of
      them belongs to the line above it.
    * A program of indented lines is read as its blocks are
      (`readProgram?_of_laid`). -/

namespace Covenant.Grammar

open Covenant.Tree Covenant.Token Reader

variable {t u : Token} {ts us rest : List Token} {fs gs hs : List Face} {e : Expr}
  {n m depth : Nat} {stop : Pos} {l : Level} {block : Reader (List Stmt)}

/-! ## Layout -/

theorem isLayout_of_eq {kind : TokenKind} (h : t.kind = kind)
    (hkind : kind = .newline ∨ kind = .indent ∨ kind = .dedent ∨ kind = .stop) :
    isLayout t = true := by
  rw [isLayout, h]
  rcases hkind with rfl | rfl | rfl | rfl <;> rfl

theorem layout_cons {kind : TokenKind} (h : t.kind = kind)
    (hkind : kind = .newline ∨ kind = .indent ∨ kind = .dedent ∨ kind = .stop) :
    layout kind ⟨t :: ts, stop⟩ = some ((), ⟨ts, stop⟩) := by
  have hlayout : t.kind = .newline ∨ t.kind = .indent ∨ t.kind = .dedent ∨ t.kind = .stop := by
    rw [h]
    exact hkind
  have hnext : next ⟨t :: ts, stop⟩ = some (t, ⟨ts, stop⟩) := by
    show some (t, (⟨ts, if _ then stop else t.span.stop⟩ : Cursor)) = _
    rw [if_pos hlayout]
  have htest : nextIf (fun t => t.kind = kind) ⟨t :: ts, stop⟩ = some (t, ⟨ts, stop⟩) := by
    refine (bind_of_eq hnext).trans ?_
    rw [if_pos (decide_eq_true h)]
    rfl
  exact bind_of_eq htest

theorem kind_of_isLayout (h : isLayout t = true) : t.kind ≠ .name ∧ t.kind ≠ .op := by
  rw [isLayout] at h
  cases hkind : t.kind <;> simp [hkind] at h ⊢

theorem isOp_of_isLayout {o : String} (h : isLayout t = true) : isOp o t = false := by
  rw [isOp, decide_eq_false (kind_of_isLayout h).2]
  rfl

theorem isWord_of_isLayout {w : String} (h : isLayout t = true) : isWord w t = false := by
  rw [isWord, decide_eq_false (kind_of_isLayout h).1]
  rfl

theorem starts_of_isLayout (h : isLayout t = true) : starts t = false := by
  obtain ⟨hstarts, -⟩ := closes_eq_true.mp (closes_of_isLayout h)
  exact hstarts

/-! ## Lines -/

theorem nextTwo_cons : nextTwo ⟨t :: u :: ts, stop⟩ = some ((t, u), ⟨t :: u :: ts, stop⟩) := rfl

/-- No expression is read where layout comes next. -/
theorem starExpressions_of_layout (h : isLayout t = true) :
    starExpressions (level (n + 1)) ⟨t :: ts, stop⟩ = none := by
  have hnone : (level (n + 1)).expression ⟨t :: ts, stop⟩ = none :=
    reader_of_not_starts (starts_of_isLayout h) (isWord_of_isLayout h) .expression
  rw [starExpressions, bind_of_eq here_cons]
  refine bind_of_none (bind_of_none (bind_of_none ?_))
  rw [bind_of_eq (seesOp_of_eq (isOp_of_isLayout h))]
  exact hnone

/-- No statement is read where layout comes next. -/
theorem statementLine_of_layout (h : Next (fun t => isLayout t = true) rest) :
    statementLine (level (n + 1)) block ⟨rest, stop⟩ = none := by
  obtain ⟨t, us, rfl, ht⟩ := h
  cases us with
  | nil => exact bind_of_none rfl
  | cons u us =>
      have hcompound : compoundStatement (level (n + 1)) block t u = none := by
        rw [compoundStatement, isOp_of_isLayout ht, if_neg Bool.false_ne_true,
          if_pos (kind_of_isLayout ht).1]
      have hmatch : isWord "match" t = false := isWord_of_isLayout ht
      have hexpression : expressionStatement (level (n + 1)) ⟨t :: u :: us, stop⟩ = none := by
        rw [expressionStatement, bind_of_eq (seesWord_of_eq (isWord_of_isLayout ht))]
        exact bind_of_none (starExpressions_of_layout ht)
      have hsimple : simpleStatement (level (n + 1)) ⟨t :: u :: us, stop⟩ = none := by
        rw [simpleStatement, bind_of_eq peek_cons, if_neg (kind_of_isLayout ht).1]
        exact hexpression
      rw [statementLine, bind_of_eq nextTwo_cons]
      dsimp only
      rw [hcompound]
      dsimp only
      rw [hmatch, if_neg Bool.false_ne_true]
      exact bind_of_none (bind_of_none hsimple)

/-! ## Repetition -/

/-- `Takes p c as c'`: the reader gives these items one after the other and takes tokens for
    each. -/
inductive Takes {α : Type} (p : Reader α) : Cursor → List α → Cursor → Prop where
  | nil {c : Cursor} : Takes p c [] c
  | cons {a : α} {as : List α} {c d c' : Cursor} : p c = some (a, d) →
      d.tokens.length < c.tokens.length → Takes p d as c' → Takes p c (a :: as) c'

section Takes

variable {α : Type} {p : Reader α} {as : List α} {a : α} {c c' : Cursor}

theorem Takes.reads (h : Takes p c as c') : Reads p c as c' := by
  induction h with
  | nil => exact .nil
  | cons hone _ _ ih => exact .cons hone ih

theorem Takes.length (h : Takes p c as c') :
    as.length + c'.tokens.length ≤ c.tokens.length := by
  induction h with
  | nil => rw [List.length_nil, Nat.zero_add]
  | cons _ hless _ ih =>
      rw [List.length_cons]
      omega

theorem Takes.eq_of_nil (h : Takes p c [] c') : c = c' := by
  cases h
  rfl

theorem many_of_takes (h : Takes p c as c') (hlast : p c' = none) :
    many p c = some (as, c') :=
  many_of_reads h.reads (Nat.le_of_add_right_le h.length) hlast

theorem many1_of_takes (h : Takes p c (a :: as) c') (hlast : p c' = none) :
    many1 p c = some (a :: as, c') := by
  cases h with
  | cons hone _ hmore =>
      exact (bind_of_eq hone).trans ((bind_of_eq (many_of_takes hmore hlast)).trans rfl)

end Takes

/-! ## Statements -/

/-- Whether a token continues no conditional statement. -/
def opensAnew (t : Token) : Prop := isWord "elif" t = false ∧ isWord "else" t = false

theorem opensAnew_of_isLayout (h : isLayout t = true) : opensAnew t :=
  ⟨isWord_of_isLayout h, isWord_of_isLayout h⟩

/-- Tokens of these faces are a statement with blocks of this depth, and it is as said. -/
structure ReadsStatement (depth : Nat) (fs : List Face) (P : Stmt → Prop) : Prop where
  starts : ∃ f gs, fs = f :: gs ∧ f ≠ (.name, "elif") ∧ f ≠ (.name, "else")
  reads : ∀ {ts}, faces ts = fs → ∀ {n m}, ts.length ≤ n → depth ≤ m → ∀ {rest},
    Next opensAnew rest → ∀ stop, ∃ s stop',
      statementLine (level (n + 1)) (blockAt (level (n + 1)) m) ⟨ts ++ rest, stop⟩
        = some ([s], ⟨rest, stop'⟩) ∧ P s

/-- Tokens of these faces are statements with blocks of this depth, and they are as said. -/
def ReadsBlock (depth : Nat) (fs : List Face) (Q : List Stmt → Prop) : Prop :=
  ∀ {ts}, faces ts = fs → ∀ {n m}, ts.length ≤ n → depth ≤ m → ∀ {rest},
    Next (fun t => isLayout t = true) rest → ∀ stop, ∃ lines stop',
      Takes (statementLine (level (n + 1)) (blockAt (level (n + 1)) m)) ⟨ts ++ rest, stop⟩ lines
        ⟨rest, stop'⟩ ∧ Q lines.flatten

theorem isWord_eq_false {f : Face} {w : String} (h : f ≠ (.name, w))
    (ht : (t.kind, t.text) = f) : isWord w t = false := by
  rw [Bool.eq_false_iff]
  intro hword
  obtain ⟨hkind, htext⟩ := isWord_eq_true.mp hword
  exact h (by rw [← ht, hkind, htext])

/-- What starts a statement continues none. -/
theorem ReadsStatement.next {P : Stmt → Prop} (h : ReadsStatement depth fs P)
    (hts : faces ts = fs) (rest : List Token) : Next opensAnew (ts ++ rest) := by
  obtain ⟨f, gs, rfl, helif, helse⟩ := h.starts
  obtain ⟨t, us, rfl, hface, -⟩ := List.map_eq_cons_iff.mp hts
  exact .cons ⟨isWord_eq_false helif hface, isWord_eq_false helse hface⟩

/-- Statements that are as said, one by one. -/
def Each (Ps : List (Stmt → Prop)) (ss : List Stmt) : Prop := List.Forall₂ (fun P s => P s) Ps ss

/-- **BLOCKS**: statements are read one after the other. -/
theorem readsBlock_of_forall₂ {fss : List (List Face)} {Ps : List (Stmt → Prop)}
    (h : List.Forall₂ (ReadsStatement depth) fss Ps) : ReadsBlock depth fss.flatten (Each Ps) := by
  induction h with
  | nil =>
      intro ts hts n m _ _ rest _ stop
      obtain rfl : ts = [] := List.map_eq_nil_iff.mp hts
      exact ⟨[], stop, .nil, .nil⟩
  | @cons fs P fss Ps hone hmore ih =>
      intro ts hts n m hn hm rest hrest stop
      obtain ⟨us, vs, rfl, hus, hvs⟩ := List.map_eq_append_iff.mp hts
      rw [List.length_append] at hn
      have hnext : Next opensAnew (vs ++ rest) := by
        cases hmore with
        | nil =>
            obtain rfl : vs = [] := List.map_eq_nil_iff.mp hvs
            exact hrest.mono fun t ht => opensAnew_of_isLayout ht
        | cons hsecond _ =>
            obtain ⟨vs₁, vs₂, rfl, hvs₁, -⟩ := List.map_eq_append_iff.mp hvs
            rw [List.append_assoc]
            exact hsecond.next hvs₁ _
      obtain ⟨s, stop₁, hread, hs⟩ := hone.reads hus (n := n) (m := m) (by omega) hm hnext stop
      obtain ⟨lines, stop₂, htakes, hlines⟩ := ih hvs (n := n) (by omega) hm hrest stop₁
      have hne : us ≠ [] := by
        rintro rfl
        obtain ⟨f, gs, rfl, -⟩ := hone.starts
        exact nomatch hus
      have hpos := List.length_pos_iff.mpr hne
      refine ⟨[s] :: lines, stop₂, ?_, .cons hs hlines⟩
      rw [List.append_assoc]
      refine .cons hread ?_ htakes
      simp only [List.length_append]
      omega

/-! ## Blocks -/

/-- An indented block is read as its statements. -/
theorem blockAt_of_reads {Q : List Stmt → Prop} (h : ReadsBlock depth fs Q) (hne : fs ≠ [])
    (hts : faces ts = lineEnd :: blockStart :: (fs ++ [blockEnd])) (hn : ts.length ≤ n)
    (hm : depth + 1 ≤ m) (rest : List Token) (stop : Pos) :
    ∃ ss stop', blockAt (level (n + 1)) m ⟨ts ++ rest, stop⟩ = some (ss, ⟨rest, stop'⟩) ∧
      Q ss := by
  obtain ⟨m, rfl⟩ := Nat.exists_eq_succ_of_ne_zero (Nat.ne_of_gt (Nat.zero_lt_of_lt hm))
  obtain ⟨t, _, rfl, ht, hts⟩ := List.map_eq_cons_iff.mp hts
  obtain ⟨u, _, rfl, hu, hts⟩ := List.map_eq_cons_iff.mp hts
  obtain ⟨us, vs, rfl, hus, hvs⟩ := List.map_eq_append_iff.mp hts
  obtain ⟨v, rfl, hv⟩ := List.map_eq_singleton_iff.mp hvs
  have ht : t.kind = .newline := congrArg Prod.fst ht
  have hu : u.kind = .indent := congrArg Prod.fst hu
  have hv : v.kind = .dedent := congrArg Prod.fst hv
  simp only [List.length_cons, List.length_append] at hn
  have hlayout : isLayout v = true := isLayout_of_eq hv (by simp)
  have hend : Next (fun t => isLayout t = true) (v :: rest) := .cons hlayout
  obtain ⟨lines, stop', htakes, hlines⟩ :=
    h hus (n := n) (m := m) (by omega) (Nat.le_of_succ_le_succ hm) hend stop
  have hmany : many1 (statementLine (level (n + 1)) (blockAt (level (n + 1)) m))
      ⟨us ++ v :: rest, stop⟩ = some (lines, ⟨v :: rest, stop'⟩) := by
    cases lines with
    | nil =>
        have htokens : us ++ v :: rest = v :: rest := congrArg Cursor.tokens htakes.eq_of_nil
        rw [List.append_left_eq_self.mp htokens] at hus
        exact absurd hus.symm hne
    | cons line lines => exact many1_of_takes htakes (statementLine_of_layout hend)
  refine ⟨lines.flatten, stop', ?_, hlines⟩
  rw [blockAt]
  show (sees _ >>= _) _ = _
  rw [List.cons_append, bind_of_eq sees_cons, if_pos (decide_eq_true ht),
    bind_of_eq (layout_cons ht (by simp)), List.cons_append,
    bind_of_eq (layout_cons hu (by simp)), List.append_assoc, List.singleton_append,
    bind_of_eq hmany, bind_of_eq (layout_cons hv (by simp))]
  rfl

/-! ## Programs -/

/-- **PROGRAMS OF INDENTED LINES** are read as their statements. -/
theorem readProgram?_of_laid {text : List Char} {Q : List Stmt → Prop}
    (h : Laid 0 (endLine text) fs) (hfeed : '\r' ∉ text) (hnull : '\x00' ∉ text)
    (hblock : ReadsBlock depth fs Q) (hdepth : depth ≤ maxIndents + 1) :
    ∃ ss, readProgram? text = some ss ∧ Q ss := by
  obtain ⟨ts, t, hlex, hts, ht⟩ := lex_of_laid h hfeed hnull
  have hend : Next (fun t => isLayout t = true) [t] := .cons (isLayout_of_eq ht (by simp))
  have hlength : ts.length ≤ text.length + 1 := by
    have hfaces : ts.length = fs.length := by
      rw [← hts]
      exact (List.length_map _).symm
    have hline : (endLine text).length ≤ text.length + 1 := by
      rw [endLine]
      split_ifs
      · exact Nat.le_succ _
      · rw [List.length_append, List.length_singleton]
    have hlaid := (length_of_laid h).1
    omega
  obtain ⟨lines, stop, htakes, hlines⟩ := hblock hts hlength hdepth hend Pos.start
  refine ⟨lines.flatten, ?_, hlines⟩
  rw [readProgram?, hlex, Option.bind_eq_bind, Option.bind_some]
  show (many _ ⟨ts ++ [t], Pos.start⟩).bind _ = _
  rw [many_of_takes htakes (statementLine_of_layout hend), Option.bind_some]
  exact if_pos ht

end Covenant.Grammar
