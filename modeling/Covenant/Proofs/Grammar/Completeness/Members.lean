import Covenant.Proofs.Grammar.Follow
import Covenant.Proofs.Grammar.Shape
import Covenant.Proofs.Grammar.Soundness

/-! # Completeness — what is derived is read

    If the grammar derives a tree from tokens and what follows them ends the
    tree, then the readers take exactly these tokens and give a tree of the
    same shape.

    * Nothing is asked of the places of the tokens.
    * A level for every token is enough, because every nesting takes one.
    * A rule whose operators join from the left is read in a loop; what the
      grammar has derived so far is where the loop stands (`Looped`). -/

namespace Covenant.Grammar

open Covenant.Tree Reader

variable {fit : Expr → Prop} {t u : Token} {ts us vs rest : List Token} {e : Expr} {n : Nat}
  {stop : Pos} {l : Level}

/-! ## Next tokens -/

/-- There is a next token, and it is as said. -/
def Next (P : Token → Prop) (ts : List Token) : Prop := ∃ t us, ts = t :: us ∧ P t

theorem Next.cons {P : Token → Prop} (h : P t) : Next P (t :: ts) := ⟨t, ts, rfl, h⟩

theorem Next.mono {P Q : Token → Prop} (h : Next P ts) (hPQ : ∀ t, P t → Q t) : Next Q ts := by
  obtain ⟨t, us, rfl, ht⟩ := h
  exact .cons (hPQ t ht)

/-- What may be nothing lets the token behind it be the next one. -/
theorem Next.append {P : Token → Prop} (hts : ∀ t ∈ ts.head?, P t) (hrest : Next P rest) :
    Next P (ts ++ rest) := by
  cases ts with
  | nil => exact hrest
  | cons t ts => exact .cons (hts t rfl)

theorem Derives.next {k : Kind} (h : Derives fit ts (.one k e)) (rest : List Token) :
    Next (fun t => k.opens t = true) (ts ++ rest) := by
  obtain ⟨t, us, rfl, ht⟩ := h.exists_cons rfl
  exact .cons ht

/-- The first token of a phrase, if it has one. -/
theorem Derives.of_mem_head {x : Phrase} (h : Derives fit ts x) : ∀ t ∈ ts.head?, x.opens t = true := by
  intro t ht
  have hhead := h.head
  cases ts with
  | nil => exact nomatch ht
  | cons u us =>
      obtain rfl := Option.some.inj ht
      exact hhead

section Readers

variable {o w : String}

theorem here_of_next {P : Token → Prop} (h : Next P ts) :
    here ⟨ts, stop⟩ = some (startOf ts, ⟨ts, stop⟩) := by
  obtain ⟨t, us, rfl, -⟩ := h
  rfl

theorem seesOp_of_next {b : Bool} (h : Next (fun t => isOp o t = b) ts) :
    seesOp o ⟨ts, stop⟩ = some (b, ⟨ts, stop⟩) := by
  obtain ⟨t, us, rfl, ht⟩ := h
  exact seesOp_of_eq ht

theorem seesWord_of_next {b : Bool} (h : Next (fun t => isWord w t = b) ts) :
    seesWord w ⟨ts, stop⟩ = some (b, ⟨ts, stop⟩) := by
  obtain ⟨t, us, rfl, ht⟩ := h
  exact seesWord_of_eq ht

theorem takesOp_of_next (h : Next (fun t => isOp o t = false) ts) :
    takesOp o ⟨ts, stop⟩ = some (false, ⟨ts, stop⟩) := by
  obtain ⟨t, us, rfl, ht⟩ := h
  exact takesOp_of_false ht

theorem takesWord_of_next (h : Next (fun t => isWord w t = false) ts) :
    takesWord w ⟨ts, stop⟩ = some (false, ⟨ts, stop⟩) := by
  obtain ⟨t, us, rfl, ht⟩ := h
  exact takesWord_of_false ht

theorem spanFrom_eq {start : Pos} :
    spanFrom start ⟨ts, stop⟩ = some (⟨start, stop⟩, ⟨ts, stop⟩) := rfl

end Readers

/-! ## What is read -/

/-- From the tokens in front of the rest, a reader gives a tree of the shape. -/
def Yields (p : Reader Expr) (ts rest : List Token) (e : Expr) : Prop :=
  ∀ stop, ∃ e' stop', p ⟨ts ++ rest, stop⟩ = some (e', ⟨rest, stop'⟩) ∧ e'.SameShape e

/-- The reader of members of a kind, at a level. -/
def Kind.reader : Kind → Nat → Reader Expr
  | .rule r, n => r.reader (level n)
  | .item, n => starNamedExpression (level (n + 1))
  | .target, n => do
    if ← seesOp "*" then Grammar.starred (level (n + 1)).bitwiseOr else (level (n + 1)).bitwiseOr
  | .index, n => Grammar.index (level (n + 1))

/-- Whether a member goes no further than to the token. -/
def Kind.stops : Kind → Token → Bool
  | .rule r, t => r.stops t
  | .item, t => Rule.expression.stops t
  | .target, t => Rule.bitOr.stops t
  | .index, t => isOp "," t || isOp "]" t

/-- Whether a token ends a list: no member starts with it, and it is no separator. -/
def closes (t : Token) : Bool :=
  !starts t && !isWord "await" t && !isOp "," t && !isOp "*" t && !isOp "**" t && !isOp ":" t
    && !isOp ":=" t

/-- Whether operands of a rule are joined in a loop. -/
def Rule.loops : Rule → Bool
  | .primary | .term | .sum | .shift | .bitAnd | .bitXor | .bitOr => true
  | _ => false

/-- The step of the loop of a rule. -/
def Rule.step (l : Level) (start : Pos) : Rule → Expr → Reader (Option Expr)
  | .primary => trailer l start
  | r => nextOperand r.operator (r.inner.reader l) start

theorem Rule.reader_of_loops {r : Rule} (h : r.loops = true) :
    r.reader l = (do
      let start ← here
      let a ← r.inner.reader l
      whileSome (r.step l start) a) := by
  cases r <;> first | rfl | exact nomatch h

theorem Rule.step_of_stops {r : Rule} (h : r.loops = true) {start : Pos}
    (hrest : Next (fun t => r.stops t = true) rest) :
    r.step l start e ⟨rest, stop⟩ = some (none, ⟨rest, stop⟩) := by
  obtain ⟨t, us, rfl, ht⟩ := hrest
  have hoperator (hstep : r.step l start e = nextOperand r.operator (r.inner.reader l) start e) :
      r.step l start e ⟨t :: us, stop⟩ = some (none, ⟨t :: us, stop⟩) := by
    rw [hstep, nextOperand, bind_of_eq peek_cons, operator_of_stops ht]
    rfl
  cases r with
  | primary =>
      show trailer l start e ⟨t :: us, stop⟩ = _
      rw [trailer, bind_of_eq peek_cons]
      split
      · rename_i hkind
        have hne (o : String) (ho : ruleOfSign o = some .primary) : t.text ≠ o := fun heq => by
          have hop := isOp_of_stops (o := o) ht (by rw [ho]; rfl)
          rw [isOp_eq_true.mpr ⟨hkind, heq⟩] at hop
          exact nomatch hop
        have hdot := hne "." rfl
        have hround := hne "(" rfl
        have hsquare := hne "[" rfl
        simp only
        rfl
      · rfl
  | term | sum | shift | bitAnd | bitXor | bitOr => exact hoperator rfl
  | _ => exact nomatch h

/-- The loop of a rule comes to stand at the rest with a tree of the shape. -/
def Looped (r : Rule) (ts : List Token) (e : Expr) : Prop :=
  ∀ n, ts.length ≤ n → ∀ rest, Next (fun t => r.inner.stops t = true) rest → ∀ stop,
    ∃ a c m e' stop', r.inner.reader (level n) ⟨ts ++ rest, stop⟩ = some (a, c) ∧
      Steps (r.step (level n) (startOf ts)) m a c e' ⟨rest, stop'⟩ ∧
        m + rest.length ≤ c.tokens.length ∧ e'.SameShape e

/-- A member of a list is read. -/
structure CompleteOne (ts : List Token) (k : Kind) (e : Expr) : Prop where
  yields : ∀ {n}, ts.length ≤ n → ∀ {rest}, Next (fun t => k.stops t = true) rest →
    Yields (k.reader n) ts rest e
  looped : ∀ {r}, k = .rule r → r.loops = true → Looped r ts e

theorem completeOne_of_not_loops {k : Kind} (hk : ∀ r, k = .rule r → r.loops = false)
    (h : ∀ n, ts.length ≤ n → ∀ rest, Next (fun t => k.stops t = true) rest →
      Yields (k.reader n) ts rest e) : CompleteOne ts k e where
  yields hn _ hrest := h _ hn _ hrest
  looped {r} hr hloops := by
    rw [hk r hr] at hloops
    exact nomatch hloops

theorem startOf_append_next (h : ts ≠ []) : startOf (ts ++ rest) = startOf ts := startOf_append h

/-- What the loop has come to is what the rule gives, where it stops. -/
theorem completeOne_of_looped {r : Rule} (hne : ts ≠ []) (hloops : r.loops = true)
    (h : Looped r ts e) : CompleteOne ts (.rule r) e where
  yields {n} hn rest hrest stop := by
    have hinner : r.inner.rank ≤ r.rank := by cases r <;> decide
    obtain ⟨a, c, m, e', stop', hfirst, hsteps, hlength, hshape⟩ :=
      h n hn rest (hrest.mono fun t ht => stops_mono ht hinner) stop
    refine ⟨e', stop', ?_, hshape⟩
    show r.reader (level n) _ = _
    obtain ⟨t, us, rfl⟩ := List.exists_cons_of_ne_nil hne
    rw [Rule.reader_of_loops hloops, List.cons_append, bind_of_eq here_cons]
    refine (bind_of_eq hfirst).trans ?_
    exact whileSome_of_steps hsteps (by omega) (Rule.step_of_stops hloops hrest)
  looped {r'} hr _ := by
    obtain rfl := Kind.rule.inj hr
    exact h

/-! ## Atoms -/

section Atoms

theorem atom_name (hname : isIdentifier t = true) :
    atom l ⟨t :: ts, stop⟩ = some (.name t.span t.text .load, ⟨ts, t.span.stop⟩) := by
  obtain ⟨hkind, hkeyword⟩ := isIdentifier_eq_true.mp hname
  have hword : wordConstant t.text = none := by
    rw [wordConstant.eq_def]
    split
    case h_1 heq => rw [heq] at hkeyword; exact absurd hkeyword (by decide)
    case h_2 heq => rw [heq] at hkeyword; exact absurd hkeyword (by decide)
    case h_3 heq => rw [heq] at hkeyword; exact absurd hkeyword (by decide)
    case h_4 => rfl
  rw [atom, bind_of_eq peek_cons, hkind]
  simp only [hword]
  rw [bind_of_eq (identifier_cons hname)]
  rfl

theorem atom_round (h : isOp "(" t = true) : atom l ⟨t :: ts, stop⟩ = round l ⟨t :: ts, stop⟩ := by
  obtain ⟨hkind, htext⟩ := isOp_eq_true.mp h
  rw [atom, bind_of_eq peek_cons, hkind, htext]
  rfl

theorem atom_square (h : isOp "[" t = true) :
    atom l ⟨t :: ts, stop⟩ = square l ⟨t :: ts, stop⟩ := by
  obtain ⟨hkind, htext⟩ := isOp_eq_true.mp h
  rw [atom, bind_of_eq peek_cons, hkind, htext]
  rfl

theorem atom_curly (h : isOp "\x7b" t = true) :
    atom l ⟨t :: ts, stop⟩ = curly l ⟨t :: ts, stop⟩ := by
  obtain ⟨hkind, htext⟩ := isOp_eq_true.mp h
  rw [atom, bind_of_eq peek_cons, hkind, htext]
  rfl

theorem isLayout_of_kind {k : TokenKind} (h : t.kind = k)
    (hk : k ≠ .newline ∧ k ≠ .indent ∧ k ≠ .dedent ∧ k ≠ .stop) : isLayout t = false := by
  simp [isLayout, h, hk]

/-- Atoms are read by the reader of atoms. -/
theorem complete_atom (h : ∀ n, ts.length ≤ n → ∀ rest, Next (fun t => t.kind ≠ .string) rest →
    Yields (atom (level n)) ts rest e) : CompleteOne ts (.rule .atom) e :=
  completeOne_of_not_loops (fun r hr => by obtain rfl := Kind.rule.inj hr; rfl)
    fun n hn rest hrest => h n hn rest (hrest.mono fun _ ht => kind_of_stops ht)

theorem complete_name (h : isIdentifier t = true) :
    CompleteOne [t] (.rule .atom) (.name t.span t.text .load) :=
  complete_atom fun _ _ _ _ _ => ⟨_, _, atom_name h, rfl⟩

theorem complete_word {c : Constant} {span : Span} (hkind : t.kind = .name)
    (hword : wordConstant t.text = some c) : CompleteOne [t] (.rule .atom) (.constant span c) := by
  refine complete_atom fun n _ rest _ stop => ⟨.constant t.span c, t.span.stop, ?_, rfl⟩
  show atom (level n) ⟨t :: rest, stop⟩ = _
  rw [atom, bind_of_eq peek_cons, hkind]
  simp only [hword]
  rw [bind_of_eq (next_cons (isLayout_of_kind hkind (by decide)))]
  rfl

theorem complete_number {c : Constant} {span : Span} (hkind : t.kind = .number)
    (hnumber : numberConstant t.text.toList = some c) :
    CompleteOne [t] (.rule .atom) (.constant span c) := by
  refine complete_atom fun n _ rest _ stop => ⟨.constant t.span c, t.span.stop, ?_, rfl⟩
  show atom (level n) ⟨t :: rest, stop⟩ = _
  rw [atom, bind_of_eq peek_cons, hkind]
  simp only
  rw [bind_of_eq (next_cons (isLayout_of_kind hkind (by decide))), hnumber]
  rfl

theorem complete_ellipsis {span : Span} (h : isOp "..." t = true) :
    CompleteOne [t] (.rule .atom) (.constant span .ellipsis) := by
  obtain ⟨hkind, htext⟩ := isOp_eq_true.mp h
  refine complete_atom fun n _ rest _ stop => ⟨.constant t.span .ellipsis, t.span.stop, ?_, rfl⟩
  show atom (level n) ⟨t :: rest, stop⟩ = _
  rw [atom, bind_of_eq peek_cons, hkind, htext]
  simp only
  rw [bind_of_eq (next_cons (isLayout_of_kind hkind (by decide)))]
  rfl

/-- String tokens are read as long as there are any. -/
theorem reads_strings (hall : ∀ t ∈ ts, t.kind = .string) :
    ∃ stop', Reads (nextIf fun t => t.kind = .string) ⟨ts ++ rest, stop⟩ ts ⟨rest, stop'⟩ := by
  induction ts generalizing stop with
  | nil => exact ⟨stop, .nil⟩
  | cons t ts ih =>
      rw [List.forall_mem_cons] at hall
      obtain ⟨stop', hreads⟩ := ih hall.2
      refine ⟨stop', .cons ?_ hreads⟩
      exact nextIf_cons (decide_eq_true hall.1) (isLayout_of_kind hall.1 (by decide))

theorem complete_string {c : Constant} {span : Span} (hne : ts ≠ [])
    (hall : ∀ t ∈ ts, t.kind = .string)
    (hread : ∀ read us, us.map (·.text) = ts.map (·.text) →
      ∃ place, concatenated read us = some (.constant place c)) :
    CompleteOne ts (.rule .atom) (.constant span c) := by
  refine complete_atom fun n _ rest hrest stop => ?_
  obtain ⟨t, ts, rfl⟩ := List.exists_cons_of_ne_nil hne
  rw [List.forall_mem_cons] at hall
  obtain ⟨place, hplace⟩ := hread (starExpressions (level n)) (t :: ts) rfl
  obtain ⟨stop', hreads⟩ := reads_strings hall.2
  refine ⟨.constant place c, stop', ?_, rfl⟩
  have hlast : nextIf (fun t => t.kind = .string) (⟨rest, stop'⟩ : Cursor) = none := by
    obtain ⟨u, us, rfl, hu⟩ := hrest
    exact nextIf_of_false (decide_eq_false hu)
  have hmany : many (nextIf fun t => t.kind = .string) ⟨ts ++ rest, t.span.stop⟩
      = some (ts, ⟨rest, stop'⟩) :=
    many_of_reads hreads (by rw [List.length_append]; omega) hlast
  have hmany1 : many1 (nextIf fun t => t.kind = .string) ⟨t :: (ts ++ rest), stop⟩
      = some (t :: ts, ⟨rest, stop'⟩) := by
    have hnext : nextIf (fun t => t.kind = .string) ⟨t :: (ts ++ rest), stop⟩
        = some (t, ⟨ts ++ rest, t.span.stop⟩) :=
      nextIf_cons (decide_eq_true hall.1) (isLayout_of_kind hall.1 (by decide))
    rw [many1, bind_of_eq hnext, bind_of_eq hmany]
    rfl
  show atom (level n) ⟨t :: (ts ++ rest), stop⟩ = _
  rw [atom, bind_of_eq peek_cons, hall.1]
  simp only
  rw [bind_of_eq hmany1, hplace]
  rfl

end Atoms

/-! ## Members -/

theorem closes_eq_true : closes t = true ↔ starts t = false ∧ isWord "await" t = false ∧
    isOp "," t = false ∧ isOp "*" t = false ∧ isOp "**" t = false ∧ isOp ":" t = false ∧
      isOp ":=" t = false := by
  simp [closes, and_assoc]

/-- A word that no tree starts with ends lists. -/
theorem closes_of_isWord {w : String} (h : isWord w t = true)
    (hw : (keywords.contains w && !startingWords.contains w && w != "await") = true) :
    closes t = true := by
  simp only [Bool.and_eq_true, Bool.not_eq_true', bne_iff_ne, ne_eq] at hw
  refine closes_eq_true.2 ⟨?_, isWord_of_ne h hw.2, isOp_of_isWord h, isOp_of_isWord h,
    isOp_of_isWord h, isOp_of_isWord h, isOp_of_isWord h⟩
  rw [Bool.eq_false_iff]
  intro hstarts
  rw [isWord_of_starts hstarts hw.1.1 hw.1.2] at h
  exact nomatch h

/-- Layout ends lists. -/
theorem closes_of_isLayout (h : isLayout t = true) : closes t = true := by
  simp only [isLayout, Bool.or_eq_true, decide_eq_true_eq] at h
  rcases h with ((h | h) | h) | h <;> simp [closes, starts, isOp, isWord, h]

theorem Kind.stops_of_comma {k : Kind} (h : isOp "," t = true) : k.stops t = true := by
  have hrule (r : Rule) : r.stops t = true := stops_of_isOp h (by cases r <;> rfl)
  cases k with
  | rule r => exact hrule r
  | item | target => exact hrule _
  | index =>
      show (_ || _) = true
      rw [h]
      rfl

theorem namedExpression_of_yields {rest : List Token} (h : Yields (expression (level n)) ts rest e)
    (hts : Next (fun _ => True) (ts ++ rest)) (hrest : Next (fun t => isOp ":=" t = false) rest) :
    Yields (namedExpression (level (n + 1))) ts rest e := by
  intro stop
  obtain ⟨e', stop', hread, hshape⟩ := h stop
  refine ⟨e', stop', ?_, hshape⟩
  rw [namedExpression, bind_of_eq (here_of_next hts)]
  refine (bind_of_eq hread).trans ?_
  have hsees : seesOp ":=" ⟨rest, stop'⟩ = some (false, ⟨rest, stop'⟩) :=
    seesOp_of_next hrest
  split
  · rw [bind_of_eq hsees]
    rfl
  · rfl

/-- What stands for itself is read as a member. -/
theorem complete_plain {k : Kind} (hts : Derives fit ts (.one (.rule k.base) e))
    (h : CompleteOne ts (.rule k.base) e) : CompleteOne ts k e := by
  have hnext (rest : List Token) : Next (fun t => starts t = true) (ts ++ rest) := hts.next rest
  have hstar (rest : List Token) : Next (fun t => isOp "*" t = false) (ts ++ rest) :=
    (hnext rest).mono fun t ht => isOp_of_starts ht rfl
  cases k with
  | rule r => exact h
  | item =>
      refine completeOne_of_not_loops nofun fun n hn rest hrest stop => ?_
      show ∃ e' stop', starNamedExpression (level (n + 1)) _ = _ ∧ _
      rw [starNamedExpression, bind_of_eq (seesOp_of_next (hstar rest))]
      exact namedExpression_of_yields (h.yields hn hrest) ((hnext rest).mono fun _ _ => trivial)
        (hrest.mono fun _ ht => not_naming_of_stops ht) stop
  | target =>
      refine completeOne_of_not_loops nofun fun n hn rest hrest stop => ?_
      show ∃ e' stop', (seesOp "*" >>= _) _ = _ ∧ _
      rw [bind_of_eq (seesOp_of_next (hstar rest))]
      exact h.yields hn hrest stop
  | index =>
      refine completeOne_of_not_loops nofun fun n hn rest hrest stop => ?_
      have hstops : Next (fun t => Rule.expression.stops t = true) rest := hrest.mono fun t ht => by
        rcases (Bool.or_eq_true _ _).mp ht with ht | ht <;> exact stops_of_isOp ht rfl
      have hcolon : Next (fun t => isOp ":" t = false) rest := hrest.mono fun t ht => by
        rcases (Bool.or_eq_true _ _).mp ht with ht | ht <;> exact isOp_of_ne ht (by decide)
      obtain ⟨e', stop', hread, hshape⟩ := namedExpression_of_yields (h.yields hn hstops)
        ((hnext rest).mono fun _ _ => trivial) (hstops.mono fun _ ht => not_naming_of_stops ht) stop
      refine ⟨e', stop', ?_, hshape⟩
      show index (level (n + 1)) _ = _
      rw [index, bind_of_eq (here_of_next (hnext rest)), bind_of_eq (seesOp_of_next (hstar rest))]
      have hnaming : seesNaming ⟨ts ++ rest, stop⟩
          = some (((do let _ ← identifier; op ":=") ⟨ts ++ rest, stop⟩ : Option (Unit × Cursor)).isSome,
            ⟨ts ++ rest, stop⟩) := rfl
      refine (bind_of_eq hnaming).trans ?_
      rw [bind_of_eq (seesOp_of_next ((hnext rest).mono fun t ht => isOp_of_starts ht rfl))]
      refine (bind_of_eq hread).trans ?_
      refine (bind_of_eq (pure_eq _)).trans ?_
      refine (bind_of_eq (seesOp_of_next hcolon)).trans ?_
      rfl

/-- A star and what it stands in front of. -/
theorem starred_of_yields {p : Reader Expr} {span : Span} (ht : isOp "*" t = true)
    (h : Yields p ts rest e) :
    Yields (Grammar.starred p) (t :: ts) rest (.compound span (.starred .load) [e]) := by
  intro stop
  obtain ⟨e', stop', hread, hshape⟩ := h t.span.stop
  refine ⟨.compound ⟨t.span.start, stop'⟩ (.starred .load) [e'], stop', ?_,
    sameShape_compound (map_cons_congr hshape rfl)⟩
  rw [List.cons_append, Grammar.starred, bind_of_eq here_cons, bind_of_eq (op_cons ht)]
  refine (bind_of_eq hread).trans ?_
  exact bind_of_eq spanFrom_eq

theorem complete_starred {k : Kind} {r : Rule} {span : Span} (hk : k.starred = some r)
    (ht : isOp "*" t = true) (h : CompleteOne ts (.rule r) e) :
    CompleteOne (t :: ts) k (.compound span (.starred .load) [e]) := by
  refine completeOne_of_not_loops (by rintro r rfl; exact nomatch hk) fun n hn rest hrest stop => ?_
  have hlength : ts.length ≤ n := by
    rw [List.length_cons] at hn
    omega
  cases k with
  | rule r => exact nomatch hk
  | item =>
      obtain rfl := Option.some.inj hk
      have hyields : Yields _ (t :: ts) rest (.compound span (.starred .load) [e]) :=
        starred_of_yields ht (h.yields hlength (hrest.mono fun _ ht => stops_mono ht (by decide)))
      show ∃ e' stop', starNamedExpression (level (n + 1)) _ = _ ∧ _
      rw [starNamedExpression, List.cons_append, bind_of_eq (seesOp_of_eq ht)]
      exact hyields stop
  | target =>
      obtain rfl := Option.some.inj hk
      have hyields : Yields _ (t :: ts) rest (.compound span (.starred .load) [e]) :=
        starred_of_yields ht (h.yields hlength hrest)
      show ∃ e' stop', (seesOp "*" >>= _) _ = _ ∧ _
      rw [List.cons_append, bind_of_eq (seesOp_of_eq ht)]
      exact hyields stop
  | index =>
      obtain rfl := Option.some.inj hk
      have hyields : Yields _ (t :: ts) rest (.compound span (.starred .load) [e]) :=
        starred_of_yields ht (h.yields hlength (hrest.mono fun t ht => by
          rcases (Bool.or_eq_true _ _).mp ht with ht | ht <;> exact stops_of_isOp ht rfl))
      show ∃ e' stop', index (level (n + 1)) _ = _ ∧ _
      rw [index, List.cons_append, bind_of_eq here_cons, bind_of_eq (seesOp_of_eq ht)]
      exact hyields stop

/-- No member is read in front of a token that ends the list. -/
theorem Kind.reader_of_closes {k : Kind} (h : Next (fun t => closes t = true) rest) :
    k.reader n ⟨rest, stop⟩ = none := by
  obtain ⟨t, us, rfl, ht⟩ := h
  obtain ⟨hstarts, hawait, -, hstar, -, hcolon, -⟩ := closes_eq_true.1 ht
  have hnamed : namedExpression (level (n + 1)) ⟨t :: us, stop⟩ = none := by
    rw [namedExpression, bind_of_eq here_cons]
    exact bind_of_none (reader_of_not_starts hstarts hawait .expression)
  cases k with
  | rule r => exact reader_of_not_starts hstarts hawait r
  | item =>
      show starNamedExpression (level (n + 1)) _ = none
      rw [starNamedExpression, bind_of_eq (seesOp_of_eq hstar)]
      exact hnamed
  | target =>
      show (seesOp "*" >>= _) _ = none
      rw [bind_of_eq (seesOp_of_eq hstar)]
      exact reader_of_not_starts hstarts hawait .bitOr
  | index =>
      show Grammar.index (level (n + 1)) _ = none
      have hnaming : seesNaming ⟨t :: us, stop⟩
          = some (((do let _ ← identifier; op ":=") ⟨t :: us, stop⟩ : Option (Unit × Cursor)).isSome,
            ⟨t :: us, stop⟩) := rfl
      rw [Grammar.index, bind_of_eq here_cons, bind_of_eq (seesOp_of_eq hstar)]
      refine (bind_of_eq hnaming).trans ?_
      rw [bind_of_eq (seesOp_of_eq hcolon)]
      exact bind_of_none hnamed

/-! ## Lists -/

/-- A reader behind a separator. -/
def behind {α : Type} (sep : Separator) (p : Reader α) : Reader α :=
  match sep with
  | .comma => do
    op ","
    p
  | .word w => do
    word w
    p

theorem behind_cons {α : Type} {sep : Separator} {p : Reader α} (h : sep.test t = true) :
    behind sep p ⟨t :: ts, stop⟩ = p ⟨ts, t.span.stop⟩ := by
  cases sep with
  | comma => exact bind_of_eq (op_cons h)
  | word w => exact bind_of_eq (word_cons h)

theorem behind_of_false {α : Type} {sep : Separator} {p : Reader α} (h : sep.test t = false) :
    behind sep p ⟨t :: ts, stop⟩ = none := by
  cases sep with
  | comma => exact bind_of_none (op_of_false h)
  | word w => exact bind_of_none (word_of_false h)

/-- Members behind separators are read one after the other. -/
structure CompleteMore (ts : List Token) (sep : Separator) (k : Kind) (es : List Expr) : Prop where
  reads : ∀ {n}, ts.length ≤ n → ∀ {rest}, Next (fun t => k.stops t = true) rest →
    (∀ t, sep.test t = true → k.stops t = true) → ∀ stop, ∃ es' stop',
      Reads (behind sep (k.reader n)) ⟨ts ++ rest, stop⟩ es' ⟨rest, stop'⟩ ∧
        es'.map Expr.unplaced = es.map Expr.unplaced
  length : es.length ≤ ts.length

theorem completeMore_nil {sep : Separator} {k : Kind} : CompleteMore [] sep k [] :=
  ⟨fun _ _ _ _ stop => ⟨[], stop, .nil, rfl⟩, Nat.le_refl 0⟩

/-- In front of more members, a member stops. -/
theorem stops_more {sep : Separator} {k : Kind} {es : List Expr} {P : Token → Prop}
    (hus : Derives fit us (.more sep k es)) (hsep : ∀ t, sep.test t = true → P t)
    (hrest : Next P rest) : Next P (us ++ rest) :=
  .append (fun t ht => hsep t (hus.of_mem_head t ht)) hrest

theorem completeMore_cons {sep : Separator} {k : Kind} {es : List Expr}
    (ht : sep.test t = true) (hus : Derives fit us (.more sep k es)) (h : CompleteOne ts k e)
    (hmore : CompleteMore us sep k es) : CompleteMore (t :: (ts ++ us)) sep k (e :: es) where
  reads {n} hn rest hrest hsep stop := by
    rw [List.length_cons, List.length_append] at hn
    obtain ⟨e', stop', hread, hshape⟩ :=
      h.yields (n := n) (by omega) (stops_more hus hsep hrest) t.span.stop
    obtain ⟨es', stop'', hreads, hshapes⟩ := hmore.reads (n := n) (by omega) hrest hsep stop'
    refine ⟨e' :: es', stop'', .cons ?_ hreads, map_cons_congr hshape hshapes⟩
    rw [List.cons_append, List.append_assoc, behind_cons ht]
    exact hread
  length := by
    have hlength := hmore.length
    simp only [List.length_cons, List.length_append]
    omega

/-- Members between commas, up to a token that ends the list; a comma may come last. -/
theorem commas_read {α : Type} {p : Reader α} {as : List α} {stop' : Pos}
    (hreads : Reads (behind .comma p) ⟨ts ++ (vs ++ rest), stop⟩ as ⟨vs ++ rest, stop'⟩)
    (hlength : as.length ≤ ts.length) (hvs : Trail vs)
    (hp : ∀ stop, p ⟨rest, stop⟩ = none) (hrest : Next (fun t => isOp "," t = false) rest) :
    ∃ stop'', many (behind .comma p) ⟨ts ++ (vs ++ rest), stop⟩
        = some (as, ⟨vs ++ rest, stop'⟩) ∧
      takesOp "," ⟨vs ++ rest, stop'⟩ = some (decide (vs ≠ []), ⟨rest, stop''⟩) := by
  have hmany (hlast : behind .comma p ⟨vs ++ rest, stop'⟩ = none) :
      many (behind .comma p) ⟨ts ++ (vs ++ rest), stop⟩ = some (as, ⟨vs ++ rest, stop'⟩) :=
    many_of_reads hreads (by simp only [List.length_append]; omega) hlast
  cases hvs with
  | none =>
      refine ⟨stop', hmany ?_, takesOp_of_next hrest⟩
      obtain ⟨u, us, rfl, hu⟩ := hrest
      exact behind_of_false hu
  | @comma t ht =>
      refine ⟨t.span.stop, hmany ?_, takesOp_cons ht⟩
      exact (bind_of_eq (op_cons ht)).trans (hp _)

theorem Trail.of_mem_head (h : Trail vs) : ∀ t ∈ vs.head?, isOp "," t = true := by
  cases h with
  | none => nofun
  | comma ht =>
      intro t' ht'
      obtain rfl := Option.some.inj ht'
      exact ht

/-- The tree of a list: one tree that stands for itself, or a tuple. -/
def Listed (k : Kind) (es : List Expr) (comma : Bool) (e : Expr) : Prop :=
  (∃ e', es = [e'] ∧ comma = false ∧ e'.SameShape e ∧ (k = .index → isStarred e' = false)) ∨
    ∃ span es', e = .compound span (.tuple .load) es' ∧
      es.map Expr.unplaced = es'.map Expr.unplaced ∧
        (comma = true ∨ es.length ≠ 1 ∨ k = .index ∧ ∃ e', es = [e'] ∧ isStarred e' = true)

/-- A tree or several are read up to a token that ends the list. -/
def CompleteSeveral (ts : List Token) (k : Kind) (e : Expr) : Prop :=
  ∀ {n}, ts.length ≤ n → ∀ {rest}, Next (fun t => k.stops t = true ∧ closes t = true) rest →
    ∀ stop, ∃ es b stop', commaList (k.reader n) ⟨ts ++ rest, stop⟩ = some ((es, b), ⟨rest, stop'⟩) ∧
      Listed k es b e

theorem commaList_of_reads {p : Reader Expr} {es : List Expr} {stop₁ stop₂ : Pos}
    (hfirst : p ⟨ts ++ (us ++ (vs ++ rest)), stop⟩ = some (e, ⟨us ++ (vs ++ rest), stop₁⟩))
    (hreads : Reads (behind .comma p) ⟨us ++ (vs ++ rest), stop₁⟩ es ⟨vs ++ rest, stop₂⟩)
    (hlength : es.length ≤ us.length) (hvs : Trail vs) (hp : ∀ stop, p ⟨rest, stop⟩ = none)
    (hrest : Next (fun t => isOp "," t = false) rest) :
    ∃ stop', commaList p ⟨ts ++ (us ++ (vs ++ rest)), stop⟩
      = some ((e :: es, decide (vs ≠ [])), ⟨rest, stop'⟩) := by
  obtain ⟨stop', hmany, htakes⟩ := commas_read hreads hlength hvs hp hrest
  refine ⟨stop', ?_⟩
  have hseparated : separated "," p ⟨ts ++ (us ++ (vs ++ rest)), stop⟩
      = some (e :: es, ⟨vs ++ rest, stop₂⟩) := by
    rw [separated, bind_of_eq hfirst]
    refine (bind_of_eq hmany).trans ?_
    rfl
  rw [commaList, bind_of_eq hseparated, bind_of_eq htakes]
  rfl

theorem not_comma_of_closes (h : closes t = true) : isOp "," t = false :=
  (closes_eq_true.1 h).2.2.1

theorem complete_single {k : Kind} (h : CompleteOne ts k e)
    (hindex : k = .index → isStarred e = false) : CompleteSeveral ts k e := by
  intro n hn rest hrest stop
  obtain ⟨e', stop', hread, hshape⟩ := h.yields hn (hrest.mono fun _ ht => ht.1) stop
  have hcloses := hrest.mono fun _ ht => ht.2
  have hnone : Reads (behind .comma (k.reader n)) ⟨[] ++ ([] ++ rest), stop'⟩ []
      ⟨[] ++ rest, stop'⟩ := .nil
  obtain ⟨stop'', hlist⟩ := commaList_of_reads hread hnone (Nat.le_refl 0) .none (fun _ => Kind.reader_of_closes hcloses)
    (hcloses.mono fun _ => not_comma_of_closes)
  refine ⟨[e'], false, stop'', hlist, .inl ⟨e', rfl, rfl, hshape, fun hk => ?_⟩⟩
  rw [isStarred_congr hshape, hindex hk]

theorem complete_several {k : Kind} {es : List Expr} {span : Span}
    (hus : Derives fit us (.more .comma k es)) (h : CompleteOne ts k e)
    (hmore : CompleteMore us .comma k es) (hvs : Trail vs)
    (htuple : es ≠ [] ∨ vs ≠ [] ∨ k = .index ∧ isStarred e = true) :
    CompleteSeveral (ts ++ (us ++ vs)) k (.compound span (.tuple .load) (e :: es)) := by
  intro n hn rest hrest stop
  simp only [List.length_append] at hn
  have hcloses := hrest.mono fun _ ht => ht.2
  have hstops : Next (fun t => k.stops t = true) (vs ++ rest) :=
    .append (fun t ht => Kind.stops_of_comma (hvs.of_mem_head t ht)) (hrest.mono fun _ ht => ht.1)
  obtain ⟨e', stop₁, hread, hshape⟩ := h.yields (n := n) (by omega)
    (stops_more hus (fun _ => Kind.stops_of_comma) hstops) stop
  obtain ⟨es', stop₂, hreads, hshapes⟩ :=
    hmore.reads (n := n) (by omega) hstops (fun _ => Kind.stops_of_comma) stop₁
  have hcount : es'.length = es.length := by
    have hlengths := congrArg List.length hshapes
    rwa [List.length_map, List.length_map] at hlengths
  obtain ⟨stop', hlist⟩ := commaList_of_reads hread hreads (hcount ▸ hmore.length) hvs
    (fun _ => Kind.reader_of_closes hcloses) (hcloses.mono fun _ => not_comma_of_closes)
  refine ⟨e' :: es', decide (vs ≠ []), stop', ?_, .inr ⟨span, e :: es, rfl, ?_, ?_⟩⟩
  · rw [List.append_assoc, List.append_assoc]
    exact hlist
  · exact map_cons_congr hshape hshapes
  · rcases htuple with hne | hne | ⟨hk, hstar⟩
    · refine .inr (.inl ?_)
      rw [List.length_cons, hcount]
      have := List.length_pos_iff.mpr hne
      omega
    · exact .inl (decide_eq_true hne)
    · by_cases hes : es' = []
      · subst hes
        exact .inr (.inr ⟨hk, e', rfl, by rw [isStarred_congr hshape, hstar]⟩)
      · refine .inr (.inl ?_)
        rw [List.length_cons]
        have := List.length_pos_iff.mpr hes
        omega

end Covenant.Grammar
