import Covenant.Proofs.Grammar.Soundness.Trailers

/-! # Soundness of operators

    Powers, signs, the operators that join from the left, comparisons and
    connectives. -/

namespace Covenant.Grammar

open Covenant.Tree Reader

variable {fit : Expr → Prop} {l : Level} {c c' : Cursor} {e : Expr}

/-! ## Operators -/

theorem sound_awaited (hl : l.Sound fit) : Sound fit (awaited l) (.rule .primary) := by
  intro c e c' h hplain
  obtain ⟨start, _, hhere, h⟩ := bind_eq_some.mp h
  obtain ⟨rfl, -⟩ := here_eq_some.mp hhere
  obtain ⟨b, c₁, htakes, h⟩ := bind_eq_some.mp h
  rcases takesWord_eq_some htakes with ⟨rfl, -⟩ | ⟨rfl, rfl⟩
  · obtain ⟨_, _, -, h⟩ := bind_eq_some.mp h
    obtain ⟨_, _, -, h⟩ := bind_eq_some.mp h
    obtain ⟨rfl, -⟩ := pure_eq_some.mp h
    exact (not_plain rfl hplain).elim
  · exact sound_primary hl h hplain

theorem sound_power (hl : l.Sound fit) : Sound fit (power l) (.rule .power) := by
  intro c e c' h hplain
  obtain ⟨start, _, hhere, h⟩ := bind_eq_some.mp h
  obtain ⟨rfl, -⟩ := here_eq_some.mp hhere
  obtain ⟨a, c₁, hbase, h⟩ := bind_eq_some.mp h
  obtain ⟨b, c₂, htakes, h⟩ := bind_eq_some.mp h
  rcases takesOp_eq_some htakes with ⟨rfl, t, ht, hstars, -⟩ | ⟨rfl, rfl⟩
  · obtain ⟨e', c₃, hread, h⟩ := bind_eq_some.mp h
    obtain ⟨span, _, hspan, h⟩ := bind_eq_some.mp h
    obtain ⟨rfl, -⟩ := spanFrom_eq_some.mp hspan
    obtain ⟨rfl, rfl⟩ := pure_eq_some.mp h
    have hparts := hplain.parts
    obtain ⟨ts, hts, ha⟩ := sound_awaited hl hbase (hparts a (by simp))
    obtain ⟨us, hus, hb⟩ := hl.factor hread (hparts e' (by simp))
    exact ⟨ts ++ t :: us, by rw [hts, ht, hus]; simp, .power span ha hstars hb⟩
  · obtain ⟨rfl, rfl⟩ := pure_eq_some.mp h
    exact (sound_awaited hl).outer hbase hplain

theorem sound_factor (hl : l.Sound fit) : Sound fit (factor l) (.rule .factor) := by
  intro c e c' h hplain
  obtain ⟨start, _, hhere, h⟩ := bind_eq_some.mp h
  obtain ⟨rfl, -⟩ := here_eq_some.mp hhere
  obtain ⟨t, _, hpeek, h⟩ := bind_eq_some.mp h
  obtain ⟨rfl, ts, hts⟩ := peek_eq_some.mp hpeek
  cases hsign : if t.kind = .op then signOp t.text else none with
  | none =>
      rw [hsign] at h
      exact (sound_power hl).outer h hplain
  | some o =>
      rw [hsign] at h
      obtain ⟨t', c₁, hnext, h⟩ := bind_eq_some.mp h
      obtain ⟨e', c₂, hread, h⟩ := bind_eq_some.mp h
      obtain ⟨span, _, hspan, h⟩ := bind_eq_some.mp h
      obtain ⟨rfl, -⟩ := spanFrom_eq_some.mp hspan
      obtain ⟨rfl, rfl⟩ := pure_eq_some.mp h
      obtain ⟨ht, -⟩ := next_eq_some hnext
      obtain ⟨rfl, rfl⟩ := List.cons.inj (hts.symm.trans ht)
      obtain ⟨hkind, hsign⟩ := Option.ite_none_right_eq_some.mp hsign
      obtain ⟨us, hus, hderives⟩ := hl.factor hread (hplain.parts e' (by simp))
      exact ⟨t :: us, by rw [ht, hus]; rfl, .sign span hkind hsign hderives⟩

/-- One more operand behind an operator. -/
def nextOperand (operator : String → Option BinOp) (operand : Reader Expr) (start : Pos)
    (e : Expr) : Reader (Option Expr) := do
  let t ← peek
  match if t.kind = .op then operator t.text else none with
  | some o =>
    let _ ← next
    let r ← operand
    pure (some (.compound (← spanFrom start) (.binOp o) [e, r]))
  | none => pure none

theorem sound_nextOperand {p : Reader Expr} {r : Rule} (hp : Sound fit p (.rule r)) {start : Pos}
    {a : Expr} {o : Option Expr} (h : nextOperand r.outer.operator p start a c = some (o, c')) :
    o = none ∧ c = c' ∨ ∃ e, o = some e ∧ (e.Plain fit → a.Plain fit ∧
      ∃ us, c.tokens = us ++ c'.tokens ∧ ∀ ts, Derives fit ts (.one (.rule r.outer) a) →
        Derives fit (ts ++ us) (.one (.rule r.outer) e)) := by
  obtain ⟨t, _, hpeek, h⟩ := bind_eq_some.mp h
  obtain ⟨rfl, ts, hts⟩ := peek_eq_some.mp hpeek
  cases hop : if t.kind = .op then r.outer.operator t.text else none with
  | none =>
      rw [hop] at h
      obtain ⟨rfl, rfl⟩ := pure_eq_some.mp h
      exact .inl ⟨rfl, rfl⟩
  | some o =>
      rw [hop] at h
      obtain ⟨t', c₁, hnext, h⟩ := bind_eq_some.mp h
      obtain ⟨b, c₂, hread, h⟩ := bind_eq_some.mp h
      obtain ⟨span, _, hspan, h⟩ := bind_eq_some.mp h
      obtain ⟨rfl, -⟩ := spanFrom_eq_some.mp hspan
      obtain ⟨rfl, rfl⟩ := pure_eq_some.mp h
      obtain ⟨ht, -⟩ := next_eq_some hnext
      obtain ⟨rfl, rfl⟩ := List.cons.inj (hts.symm.trans ht)
      obtain ⟨hkind, hop⟩ := Option.ite_none_right_eq_some.mp hop
      refine .inr ⟨_, rfl, fun hplain => ⟨hplain.parts a (by simp), ?_⟩⟩
      obtain ⟨us, hus, hb⟩ := hp hread (hplain.parts b (by simp))
      exact ⟨t :: us, by rw [ht, hus]; rfl, fun ts ha => .binary span ha hkind hop hb⟩

theorem sound_leftAssociative {p : Reader Expr} {r : Rule} (hp : Sound fit p (.rule r)) :
    Sound fit (leftAssociative r.outer.operator p) (.rule r.outer) := by
  intro c e c' h hplain
  obtain ⟨start, _, hhere, h⟩ := bind_eq_some.mp h
  obtain ⟨rfl, -⟩ := here_eq_some.mp hhere
  obtain ⟨a, c₁, hfirst, h⟩ := bind_eq_some.mp h
  obtain ⟨n, d, hsteps, hlast⟩ :=
    whileSome_eq_some h
  have hd : d = c' := by
    rcases hlast with rfl | hlast
    · rfl
    · rcases sound_nextOperand hp hlast with ⟨-, rfl⟩ | ⟨_, heq, -⟩
      · rfl
      · cases heq
  subst hd
  have hinvariant : e.Plain fit → ∃ ts, c.tokens = ts ++ d.tokens ∧
      Derives fit ts (.one (.rule r.outer) e) := by
    refine hsteps.invariant (P := fun e d => e.Plain fit → ∃ ts, c.tokens = ts ++ d.tokens ∧
      Derives fit ts (.one (.rule r.outer) e)) (fun hone ih => ?_) ?_
    · intro hplain
      rcases sound_nextOperand hp hone with ⟨heq, -⟩ | ⟨e', heq, hextends⟩
      · cases heq
      · obtain rfl := Option.some.inj heq
        obtain ⟨ha, us, hus, hextends⟩ := hextends hplain
        obtain ⟨ts, hts, hderives⟩ := ih ha
        exact ⟨ts ++ us, by rw [hts, hus, List.append_assoc], hextends ts hderives⟩
    · exact fun hplain => hp.outer hfirst hplain
  exact hinvariant hplain

theorem sound_bitwiseOr (hl : l.Sound fit) : Sound fit (bitwiseOr l) (.rule .bitOr) := by
  have hterm : Sound fit (term l) (.rule .term) :=
    sound_leftAssociative (r := .factor) (sound_factor hl)
  have hsum : Sound fit (sum l) (.rule .sum) := sound_leftAssociative (r := .term) hterm
  have hshift : Sound fit (shift l) (.rule .shift) := sound_leftAssociative (r := .sum) hsum
  have hand : Sound fit (bitwiseAnd l) (.rule .bitAnd) :=
    sound_leftAssociative (r := .shift) hshift
  have hxor : Sound fit (bitwiseXor l) (.rule .bitXor) :=
    sound_leftAssociative (r := .bitAnd) hand
  exact sound_leftAssociative (r := .bitXor) hxor

/-! ## Comparisons and connectives -/

theorem sound_comparisonOp {o : CmpOp} (h : comparisonOp c = some (some o, c')) :
    ∃ ts, c.tokens = ts ++ c'.tokens ∧ Compares ts o := by
  obtain ⟨t, _, hpeek, h⟩ := bind_eq_some.mp h
  obtain ⟨rfl, ts, hts⟩ := peek_eq_some.mp hpeek
  -- the token that was seen is the one that is taken
  have hnext {t' : Token} {d : Cursor} (h : next c = some (t', d)) : c.tokens = [t] ++ d.tokens := by
    obtain ⟨ht, -⟩ := next_eq_some h
    obtain ⟨rfl, -⟩ := List.cons.inj (hts.symm.trans ht)
    exact ht
  cases hkind : t.kind with
  | op =>
      rw [hkind] at h
      cases hsign : comparisonSign t.text with
      | none =>
          rw [hsign] at h
          exact nomatch (pure_eq_some.mp h).1
      | some o' =>
          rw [hsign] at h
          obtain ⟨t', d, hn, h⟩ := bind_eq_some.mp h
          obtain ⟨heq, rfl⟩ := pure_eq_some.mp h
          obtain rfl := Option.some.inj heq
          exact ⟨[t], hnext hn, .sign hkind hsign⟩
  | name =>
      rw [hkind] at h
      simp only at h
      by_cases hin : (t.text == "in") = true
      · rw [if_pos hin] at h
        obtain ⟨t', d, hn, h⟩ := bind_eq_some.mp h
        obtain ⟨heq, rfl⟩ := pure_eq_some.mp h
        obtain rfl := Option.some.inj heq
        exact ⟨[t], hnext hn, .member (isWord_eq_true.mpr ⟨hkind, eq_of_beq hin⟩)⟩
      rw [if_neg hin] at h
      by_cases his : (t.text == "is") = true
      · rw [if_pos his] at h
        obtain ⟨t', d, hn, h⟩ := bind_eq_some.mp h
        obtain ⟨b, d', htakes, h⟩ := bind_eq_some.mp h
        obtain ⟨heq, rfl⟩ := pure_eq_some.mp h
        obtain rfl := Option.some.inj heq
        have his : isWord "is" t = true := isWord_eq_true.mpr ⟨hkind, eq_of_beq his⟩
        rcases takesWord_eq_some htakes with ⟨rfl, u, hu, hnot⟩ | ⟨rfl, rfl⟩
        · exact ⟨[t, u], by rw [hnext hn, hu]; rfl, .isNot his hnot⟩
        · exact ⟨[t], hnext hn, .is his⟩
      rw [if_neg his] at h
      by_cases hnot : (t.text == "not") = true
      · rw [if_pos hnot] at h
        rcases maybe_eq_some h with ⟨o', heq, h⟩ | ⟨heq, -⟩
        · obtain rfl := Option.some.inj heq
          obtain ⟨_, d, hword, h⟩ := bind_eq_some.mp h
          obtain ⟨_, d', hword', h⟩ := bind_eq_some.mp h
          obtain ⟨rfl, rfl⟩ := pure_eq_some.mp h
          obtain ⟨t', ht, hnot⟩ := word_eq_some hword
          obtain ⟨u, hu, hin⟩ := word_eq_some hword'
          exact ⟨[t', u], by rw [ht, hu]; rfl, .notMember hnot hin⟩
        · exact nomatch heq
      rw [if_neg hnot] at h
      exact nomatch (pure_eq_some.mp h).1
  | number | string | newline | indent | dedent | stop =>
      rw [hkind] at h
      exact nomatch (pure_eq_some.mp h).1

/-- One more comparison. -/
def nextComparison (l : Level) : Reader (CmpOp × Expr) := do
  match ← comparisonOp with
  | some o => pure (o, ← bitwiseOr l)
  | none => failure

theorem derives_chain (hl : l.Sound fit) {chain : List (CmpOp × Expr)}
    (h : Reads (nextComparison l) c chain c') (hplain : ∀ p ∈ chain, p.2.Plain fit) :
    ∃ ts, c.tokens = ts ++ c'.tokens ∧
      Derives fit ts (.chain (chain.map (·.1)) (chain.map (·.2))) := by
  induction h with
  | nil => exact ⟨[], rfl, .noChain⟩
  | cons hread _ ih =>
      rw [List.forall_mem_cons] at hplain
      obtain ⟨o, d, hop, hread⟩ := bind_eq_some.mp hread
      cases o with
      | none => exact (failure_eq_some.mp hread).elim
      | some o =>
          obtain ⟨e, d', hoperand, hread⟩ := bind_eq_some.mp hread
          obtain ⟨rfl, rfl⟩ := pure_eq_some.mp hread
          obtain ⟨ts, hts, hcompares⟩ := sound_comparisonOp hop
          obtain ⟨us, hus, hderives⟩ := sound_bitwiseOr hl hoperand hplain.1
          obtain ⟨vs, hvs, hchain⟩ := ih hplain.2
          exact ⟨ts ++ (us ++ vs), by rw [hts, hus, hvs]; simp, .chain hcompares hderives hchain⟩

theorem sound_comparison (hl : l.Sound fit) : Sound fit (comparison l) (.rule .comparison) := by
  intro c e c' h hplain
  obtain ⟨start, _, hhere, h⟩ := bind_eq_some.mp h
  obtain ⟨rfl, -⟩ := here_eq_some.mp hhere
  obtain ⟨first, c₁, hfirst, h⟩ := bind_eq_some.mp h
  obtain ⟨chain, c₂, hmany, h⟩ := bind_eq_some.mp h
  cases chain with
  | nil =>
      obtain ⟨rfl, rfl⟩ := pure_eq_some.mp h
      cases many_eq_some hmany
      exact (sound_bitwiseOr hl).outer hfirst hplain
  | cons p chain =>
      obtain ⟨span, _, hspan, h⟩ := bind_eq_some.mp h
      obtain ⟨rfl, -⟩ := spanFrom_eq_some.mp hspan
      obtain ⟨rfl, rfl⟩ := pure_eq_some.mp h
      obtain ⟨hplainFirst, hplainRest⟩ := List.forall_mem_cons.mp hplain.parts
      obtain ⟨ts, hts, hderives⟩ := sound_bitwiseOr hl hfirst hplainFirst
      obtain ⟨us, hus, hchain⟩ := derives_chain hl (many_eq_some hmany)
        (fun q hq => hplainRest q.2 (List.mem_map.mpr ⟨q, hq, rfl⟩))
      exact ⟨ts ++ us, by rw [hts, hus, List.append_assoc],
        .compare span hderives hchain (List.cons_ne_nil _ _)⟩

theorem sound_inversion (hl : l.Sound fit) : Sound fit (inversion l) (.rule .inversion) := by
  intro c e c' h hplain
  obtain ⟨start, _, hhere, h⟩ := bind_eq_some.mp h
  obtain ⟨rfl, -⟩ := here_eq_some.mp hhere
  obtain ⟨b, c₁, htakes, h⟩ := bind_eq_some.mp h
  rcases takesWord_eq_some htakes with ⟨rfl, t, ht, hnot⟩ | ⟨rfl, rfl⟩
  · obtain ⟨e', c₂, hread, h⟩ := bind_eq_some.mp h
    obtain ⟨span, _, hspan, h⟩ := bind_eq_some.mp h
    obtain ⟨rfl, -⟩ := spanFrom_eq_some.mp hspan
    obtain ⟨rfl, rfl⟩ := pure_eq_some.mp h
    obtain ⟨ts, hts, hderives⟩ := hl.inversion hread (hplain.parts e' (by simp))
    exact ⟨t :: ts, by rw [ht, hts]; rfl, .negation span hnot hderives⟩
  · exact (sound_comparison hl).outer h hplain

theorem sound_connected {p : Reader Expr} {r : Rule} {w : String} {o : BoolOp}
    (hp : Sound fit p (.rule r)) (hr : r.outer.connective = some (w, o)) :
    Sound fit (connected w o p) (.rule r.outer) := by
  intro c e c' h hplain
  obtain ⟨start, _, hhere, h⟩ := bind_eq_some.mp h
  obtain ⟨rfl, -⟩ := here_eq_some.mp hhere
  obtain ⟨first, c₁, hfirst, h⟩ := bind_eq_some.mp h
  obtain ⟨more, c₂, hmany, h⟩ := bind_eq_some.mp h
  cases more with
  | nil =>
      obtain ⟨rfl, rfl⟩ := pure_eq_some.mp h
      cases many_eq_some hmany
      exact hp.outer hfirst hplain
  | cons e' more =>
      obtain ⟨span, _, hspan, h⟩ := bind_eq_some.mp h
      obtain ⟨rfl, -⟩ := spanFrom_eq_some.mp hspan
      obtain ⟨rfl, rfl⟩ := pure_eq_some.mp h
      obtain ⟨hplainFirst, hplainRest⟩ := List.forall_mem_cons.mp hplain.parts
      obtain ⟨ts, hts, hderives⟩ := hp hfirst hplainFirst
      obtain ⟨us, hus, hmore⟩ := derives_more (fun _ _ _ => word_member hp)
        (many_eq_some hmany) hplainRest
      exact ⟨ts ++ us, by rw [hts, hus, List.append_assoc],
        .connected span hr hderives hmore (List.cons_ne_nil _ _)⟩

theorem sound_disjunction (hl : l.Sound fit) : Sound fit (disjunction l) (.rule .disjunction) := by
  have hconjunction : Sound fit (conjunction l) (.rule .conjunction) :=
    sound_connected (sound_inversion hl) rfl
  exact sound_connected hconjunction rfl

end Covenant.Grammar
