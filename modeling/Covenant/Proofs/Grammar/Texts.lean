import Covenant.Proofs.Grammar.Completeness
import Covenant.Proofs.Grammar.Soundness
import Covenant.Proofs.Token.Lines

/-! # Texts — expressions as they are written

    The reader of a text that is one expression, seen through the grammar: what
    the lexer gives for a line is derived exactly if it is read. -/

namespace Covenant.Grammar

open Covenant.Tree Covenant.Token Reader

variable {fit : Expr → Prop} {ts us : List Token} {e : Expr} {text : List Char}

/-! ## Rules -/

/-- What is derived by a rule is derived by the looser ones. -/
theorem Derives.climb {r : Rule} (n : Nat) (h : Derives fit ts (.one (.rule r) e)) :
    Derives fit ts (.one (.rule (Rule.outer^[n] r)) e) := by
  induction n generalizing r with
  | zero => exact h
  | succ n ih => exact ih h.outer

/-- What is a primary expression is an expression. -/
theorem Derives.of_primary (h : Derives fit ts (.one (.rule .primary) e)) :
    Derives fit ts (.one (.rule .expression) e) := h.climb 13

/-- Expressions between commas are items of a display. -/
theorem Derives.items {es : List Expr}
    (h : Derives fit ts (.more .comma (.rule .expression) es)) :
    Derives fit ts (.more .comma .item es) := by
  generalize hx : Phrase.more .comma (.rule .expression) es = x at h
  induction h generalizing es with
  | noMore =>
      cases hx
      exact .noMore
  | more ht hts hus _ ihMore =>
      cases hx
      exact .more ht (.plain hts) (ihMore rfl)
  | _ => exact nomatch hx

/-- In round brackets one tree stands for itself, and several are a tuple. -/
theorem Derives.round {t u : Token} (ht : isOp "(" t = true) (hu : isOp ")" u = true)
    (h : Derives fit ts (.several (.rule .expression) e)) :
    ∃ e', Derives fit (t :: (ts ++ [u])) (.one (.rule .atom) e') ∧ e'.SameShape e := by
  cases h with
  | single hts _ => exact ⟨e, .group ht hts hu, rfl⟩
  | @several ts us vs k first es span hts hus hvs htuple =>
      have hmany : Display.tuple = .tuple → es ≠ [] ∨ vs ≠ [] := fun _ =>
        htuple.imp_right fun h => h.resolve_right fun h => nomatch h.1
      refine ⟨_, ?_, rfl⟩
      rw [List.append_assoc, List.append_assoc]
      exact .display .tuple span ht (.plain hts) hus.items hvs hmany hu

/-! ## Layout -/

theorem isLayout_of_test {sep : Separator} {t : Token} (h : sep.test t = true) :
    isLayout t = false := by
  cases sep with
  | comma => exact isLayout_of_isOp h
  | word w => exact isLayout_of_isWord h

theorem Trail.not_layout (h : Trail ts) : ∀ t ∈ ts, isLayout t = false := by
  cases h with
  | none => exact nofun
  | comma ht => exact List.forall_mem_singleton.mpr (isLayout_of_isOp ht)

theorem Leads.not_layout {isAsync : Bool} (h : Leads ts isAsync) :
    ∀ t ∈ ts, isLayout t = false := by
  cases h with
  | none => exact nofun
  | async ht => exact List.forall_mem_singleton.mpr (isLayout_of_isWord ht)

theorem Compares.not_layout {o : CmpOp} (h : Compares ts o) : ∀ t ∈ ts, isLayout t = false := by
  cases h <;> grind [isLayout_of_isWord, isLayout]

/-- No layout is part of a phrase: every rule tests the tokens that it takes. -/
theorem Derives.not_layout {x : Phrase} (h : Derives fit ts x) :
    ∀ t ∈ ts, isLayout t = false := by
  induction h
  case string _ _ htexts _ => exact fun t ht => isLayout_of_kind (htexts t ht) (by decide)
  all_goals
    try simp only [List.forall_mem_cons, List.forall_mem_append, List.not_mem_nil, false_imp_iff,
      implies_true, and_true]
    and_intros
  -- what is left are the tokens that the rule itself tests, and the parts of the phrase
  all_goals
    first
    | assumption
    | exact isLayout_of_kind (by assumption) (by decide)
    | exact isLayout_of_isOp (by assumption)
    | exact isLayout_of_isWord (by assumption)
    | exact isLayout_of_isIdentifier (by assumption)
    | exact isLayout_of_test (by assumption)
    | exact Trail.not_layout (by assumption)
    | exact Leads.not_layout (by assumption)
    | exact Compares.not_layout (by assumption)

/-! ## Reading -/

/-- **A LINE IS READ** as it is derived. -/
theorem readExpression?_of_derives {t u : Token} (hlex : lex text = some (ts ++ [t, u]))
    (ht : t.kind = .newline) (hu : u.kind = .stop)
    (h : Derives fit ts (.several (.rule .expression) e)) (hn : ts.length ≤ text.length + 1) :
    ∃ e', readExpression? text = some e' ∧ e'.SameShape e := by
  have hrest : Next (fun t => isLayout t = true) [t, u] := .cons (by simp [isLayout, ht])
  obtain ⟨e', stop, hread, hshape⟩ := expressions_of_derives h hn hrest Pos.start
  refine ⟨e', ?_, hshape⟩
  unfold readExpression?
  rw [hlex, Option.bind_eq_bind, Option.bind_some]
  show ((expressions (level (text.length + 2))) ⟨ts ++ [t, u], Pos.start⟩).bind _ = _
  rw [hread, Option.bind_some]
  simp [ht, hu]

/-- What is read from a text is derived from its tokens, but for the ends of lines. -/
theorem derives_of_readExpression? (h : readExpression? text = some e) (hplain : e.Plain fit) :
    ∃ ts rest t, lex text = some (ts ++ rest) ∧
      Derives fit ts (.several (.rule .expression) e) ∧
      rest.dropWhile (·.kind = .newline) = [t] ∧ t.kind = .stop := by
  obtain ⟨tokens, hlex, h⟩ := Option.bind_eq_some_iff.mp h
  obtain ⟨⟨e', c⟩, hread, h⟩ := Option.bind_eq_some_iff.mp h
  dsimp only at h
  split at h
  · rename_i t hrest
    obtain ⟨hstop, h⟩ := Option.ite_none_right_eq_some.mp h
    obtain rfl := Option.some.inj h
    obtain ⟨ts, htokens, hts⟩ := sound_expressions (sound_level _) hread hplain
    dsimp only at htokens
    exact ⟨ts, c.tokens, t, by rw [hlex, htokens], hts, hrest, hstop⟩
  · cases h

/-- **A LINE WITH A PHRASE** that can be put between round brackets has tokens there and alone that
    are those of the phrase, in front of whatever continues no token. -/
theorem passes_of_derives {x : Phrase} (h : OneLine text) {t : Token}
    (hlex : lex text = some (ts ++ rest)) (hts : Derives fit ts x)
    (hrest : rest.dropWhile (·.kind = .newline) = [t]) {place : Pos}
    (hround : (lexBracketed place text).isSome) {around : List Char} (haround : Around around)
    {tail : List Char} (htail : Tail tail) : Passes text tail (faces ts) around around := by
  obtain ⟨us, u, v, hus, hu, hv, hkinds, hpasses⟩ := passes_of_lex h hlex hround
  -- the only end of a line is the last token but one, and no phrase takes it
  have hlast : rest = [u, v] := by
    have hsplit : rest = rest.takeWhile (·.kind = .newline) ++ [t] := by
      rw [← hrest, List.takeWhile_append_dropWhile]
    have hlines : ∀ w ∈ rest.takeWhile (·.kind = .newline), w.kind = .newline := by
      intro w hw
      have htest := List.mem_takeWhile_imp hw
      exact of_decide_eq_true htest
    generalize rest.takeWhile (·.kind = .newline) = lines at hsplit hlines
    subst hsplit
    rw [← List.append_assoc, List.append_cons us u [v]] at hus
    obtain ⟨hbefore, hstop⟩ := List.append_inj' hus rfl
    obtain rfl := List.singleton_inj.mp hstop
    rcases List.eq_nil_or_concat lines with rfl | ⟨before, w, rfl⟩
    · have hmem : u ∈ ts := by
        rw [List.append_nil] at hbefore
        rw [hbefore]
        exact List.mem_append_right us (List.mem_singleton.mpr rfl)
      have hlayout := hts.not_layout u hmem
      simp [isLayout, hu] at hlayout
    · rw [List.concat_eq_append] at hbefore hlines ⊢
      rw [← List.append_assoc] at hbefore
      obtain ⟨hfront, hend⟩ := List.append_inj' hbefore rfl
      obtain rfl := List.singleton_inj.mp hend
      cases before with
      | nil => rfl
      | cons x before =>
          have hx : x ∈ us := hfront ▸ List.mem_append_right ts List.mem_cons_self
          exact absurd (hlines x (by simp)) (hkinds x hx)
  rw [hlast] at hus
  obtain rfl : ts = us := List.append_cancel_right hus
  exact hpasses around haround tail htail

/-- **A LINE THAT IS READ** by itself as an expression or several ones. -/
theorem passes_of_readExpression? (h : OneLine text) (hread : readExpression? text = some e)
    (hplain : e.Plain fit) {place : Pos} (hround : (lexBracketed place text).isSome) :
    ∃ ts, Derives fit ts (.several (.rule .expression) e) ∧
      ∀ around, Around around → ∀ tail, Tail tail →
        Passes text tail (faces ts) around around := by
  obtain ⟨ts, rest, t, hlex, hts, hrest, -⟩ := derives_of_readExpression? hread hplain
  exact ⟨ts, hts, fun _ haround _ htail =>
    passes_of_derives h hlex hts hrest hround haround htail⟩

/-! ## One expression -/

/-- The expression that a text is by itself; a tuple stands between brackets. -/
def readSingle? (text : List Char) : Option Expr := do
  let tokens ← lex text
  let (e, c) ← (level (text.length + 2)).expression.run ⟨tokens, Pos.start⟩
  match c.tokens.dropWhile (·.kind = .newline) with
  | [t] => if t.kind = .stop then some e else none
  | _ => none

/-- **A LINE THAT IS READ** by itself as one expression. -/
theorem passes_of_readSingle? (h : OneLine text) (hread : readSingle? text = some e)
    (hplain : e.Plain fit) {place : Pos} (hround : (lexBracketed place text).isSome) :
    ∃ ts, Derives fit ts (.one (.rule .expression) e) ∧
      ∀ around, Around around → ∀ tail, Tail tail →
        Passes text tail (faces ts) around around := by
  obtain ⟨tokens, hlex, hread⟩ := Option.bind_eq_some_iff.mp hread
  obtain ⟨⟨e', c⟩, hexpression, hread⟩ := Option.bind_eq_some_iff.mp hread
  dsimp only at hread
  split at hread
  · rename_i t hrest
    obtain ⟨-, hread⟩ := Option.ite_none_right_eq_some.mp hread
    obtain rfl := Option.some.inj hread
    obtain ⟨ts, htokens, hts⟩ := (sound_level _).expression hexpression hplain
    dsimp only at htokens
    have hlex : lex text = some (ts ++ c.tokens) := by rw [hlex, htokens]
    exact ⟨ts, hts, fun _ haround _ htail =>
      passes_of_derives h hlex hts hrest hround haround htail⟩
  · cases hread

end Covenant.Grammar
