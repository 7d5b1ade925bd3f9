import Covenant.Grammar.Expression

/-! # Reading — what a reader has done when it succeeds

    One law for each way of taking tokens and of putting readers together: what
    the result says of the tokens, and what the tokens say of the result.

    * A reader that gives something can be taken apart at its first step
      (`bind_eq_some`).
    * A repeated step has been taken some number of times and then gave
      nothing (`whileSome_eq_some`); the other way round, as many steps as
      there are tokens are always taken (`whileSome_of_steps`). -/

namespace Covenant.Grammar.Reader

open Covenant.Tree

variable {α β : Type} {c c' : Cursor} {t : Token} {ts : List Token} {stop : Pos}

/-! ## Steps -/

theorem bind_eq_some {p : Reader α} {f : α → Reader β} {b : β} :
    (p >>= f) c = some (b, c') ↔ ∃ a d, p c = some (a, d) ∧ f a d = some (b, c') := by
  show (p c).bind (fun r => f r.1 r.2) = some (b, c') ↔ _
  rw [Option.bind_eq_some_iff]
  exact Prod.exists

theorem bind_of_eq {p : Reader α} {f : α → Reader β} {a : α} {d : Cursor}
    (h : p c = some (a, d)) : (p >>= f) c = f a d := by
  show (p c).bind (fun r => f r.1 r.2) = _
  rw [h]
  rfl

theorem bind_of_none {p : Reader α} {f : α → Reader β} (h : p c = none) :
    (p >>= f) c = none := by
  show (p c).bind (fun r => f r.1 r.2) = _
  rw [h]
  rfl

theorem pure_eq_some {a b : α} : (pure a : Reader α) c = some (b, c') ↔ a = b ∧ c = c' := by
  show some (a, c) = some (b, c') ↔ _
  rw [Option.some.injEq, Prod.mk.injEq]

theorem pure_eq (a : α) : (pure a : Reader α) c = some (a, c) := rfl

theorem failure_eq_some {b : α} : (failure : Reader α) c = some (b, c') ↔ False :=
  ⟨nofun, False.elim⟩

theorem require_eq_some {b : Bool} {u : Unit} :
    require b c = some (u, c') ↔ b = true ∧ c = c' := by
  cases b
  · exact ⟨nofun, fun h => nomatch h.1⟩
  · exact pure_eq_some.trans ⟨fun h => ⟨rfl, h.2⟩, fun h => ⟨rfl, h.2⟩⟩

theorem require_true : require true c = some ((), c) := rfl

theorem peek_eq_some : peek c = some (t, c') ↔ c = c' ∧ ∃ ts, c.tokens = t :: ts := by
  obtain ⟨tokens, stop⟩ := c
  cases tokens with
  | nil => exact ⟨nofun, fun ⟨_, _, h⟩ => nomatch h⟩
  | cons u us =>
      show some (u, (⟨u :: us, stop⟩ : Cursor)) = some (t, c') ↔ _
      rw [Option.some.injEq, Prod.mk.injEq]
      constructor
      · rintro ⟨rfl, rfl⟩
        exact ⟨rfl, us, rfl⟩
      · rintro ⟨rfl, ts, h⟩
        exact ⟨(List.cons.inj h).1, rfl⟩

theorem here_eq_some {p : Pos} :
    here c = some (p, c') ↔ c = c' ∧ ∃ t ts, c.tokens = t :: ts ∧ t.span.start = p := by
  show (peek >>= fun t => pure t.span.start) c = some (p, c') ↔ _
  rw [bind_eq_some]
  constructor
  · rintro ⟨t, d, hpeek, hpure⟩
    obtain ⟨rfl, ts, hts⟩ := peek_eq_some.1 hpeek
    obtain ⟨hp, rfl⟩ := pure_eq_some.1 hpure
    exact ⟨rfl, t, ts, hts, hp⟩
  · rintro ⟨rfl, t, ts, hts, rfl⟩
    exact ⟨t, c, peek_eq_some.2 ⟨rfl, ts, hts⟩, rfl⟩

theorem here_cons : here ⟨t :: ts, stop⟩ = some (t.span.start, ⟨t :: ts, stop⟩) := rfl

theorem peek_cons : peek ⟨t :: ts, stop⟩ = some (t, ⟨t :: ts, stop⟩) := rfl

theorem spanFrom_eq_some {start : Pos} {s : Span} :
    spanFrom start c = some (s, c') ↔ c = c' ∧ s = ⟨start, c.lastStop⟩ := by
  show some ((⟨start, c.lastStop⟩ : Span), c) = some (s, c') ↔ _
  rw [Option.some.injEq, Prod.mk.injEq]
  exact ⟨fun h => ⟨h.2, h.1.symm⟩, fun h => ⟨h.2.symm, h.1⟩⟩

theorem sees_eq_some {test : Token → Bool} {b : Bool} :
    sees test c = some (b, c') ↔ c = c' ∧ b = c.tokens.head?.any test := by
  obtain ⟨tokens, stop⟩ := c
  cases tokens with
  | nil =>
      show some (false, (⟨[], stop⟩ : Cursor)) = some (b, c') ↔ _
      rw [Option.some.injEq, Prod.mk.injEq]
      exact ⟨fun h => ⟨h.2, h.1.symm⟩, fun h => ⟨h.2.symm, h.1⟩⟩
  | cons u us =>
      show some (test u, (⟨u :: us, stop⟩ : Cursor)) = some (b, c') ↔ _
      rw [Option.some.injEq, Prod.mk.injEq]
      exact ⟨fun h => ⟨h.2, h.1.symm⟩, fun h => ⟨h.2.symm, h.1⟩⟩

theorem sees_cons {test : Token → Bool} :
    sees test ⟨t :: ts, stop⟩ = some (test t, ⟨t :: ts, stop⟩) := rfl

/-- Whether a token is layout. -/
def isLayout (t : Token) : Bool :=
  t.kind = .newline || t.kind = .indent || t.kind = .dedent || t.kind = .stop

theorem next_cons (h : isLayout t = false) :
    next ⟨t :: ts, stop⟩ = some (t, ⟨ts, t.span.stop⟩) := by
  have hnot : ¬ (t.kind = .newline ∨ t.kind = .indent ∨ t.kind = .dedent ∨ t.kind = .stop) := by
    simpa [isLayout, not_or, and_assoc] using h
  show some (t, (⟨ts, if _ then stop else t.span.stop⟩ : Cursor)) = _
  rw [if_neg hnot]

theorem next_eq_some (h : next c = some (t, c')) : c.tokens = t :: c'.tokens ∧
    (isLayout t = false → c'.lastStop = t.span.stop) := by
  obtain ⟨tokens, stop⟩ := c
  cases tokens with
  | nil => exact nomatch h
  | cons u us =>
      obtain ⟨rfl, rfl⟩ := Prod.mk.inj (Option.some.inj h)
      refine ⟨rfl, fun hlayout => ?_⟩
      have hnext : next ⟨u :: us, stop⟩ = some (u, ⟨us, u.span.stop⟩) := next_cons hlayout
      rw [h] at hnext
      exact congrArg (·.2.lastStop) (Option.some.inj hnext)

section Tests

variable {test : Token → Bool}

theorem nextIf_cons (htest : test t = true) (h : isLayout t = false) :
    nextIf test ⟨t :: ts, stop⟩ = some (t, ⟨ts, t.span.stop⟩) := by
  show (next >>= fun t => if test t then pure t else failure) _ = _
  rw [bind_of_eq (next_cons h), if_pos htest]
  rfl

theorem nextIf_of_false (h : test t = false) : nextIf test ⟨t :: ts, stop⟩ = none := by
  show (if test t then (pure t : Reader Token) else failure) _ = none
  rw [h]
  rfl

theorem nextIf_eq_some (h : nextIf test c = some (t, c')) :
    c.tokens = t :: c'.tokens ∧ test t = true ∧
      (isLayout t = false → c'.lastStop = t.span.stop) := by
  obtain ⟨u, d, hnext, h⟩ := bind_eq_some.1 h
  split at h
  · rename_i htest
    obtain ⟨rfl, rfl⟩ := pure_eq_some.1 h
    obtain ⟨htokens, hstop⟩ := next_eq_some hnext
    exact ⟨htokens, htest, hstop⟩
  · exact (failure_eq_some.1 h).elim

end Tests

/-! ## Operators and words -/

theorem isLayout_of_isOp {o : String} (h : isOp o t = true) : isLayout t = false := by
  simp only [isOp, Bool.and_eq_true, decide_eq_true_eq] at h
  simp [isLayout, h.1]

theorem isLayout_of_isWord {w : String} (h : isWord w t = true) : isLayout t = false := by
  simp only [isWord, Bool.and_eq_true, decide_eq_true_eq] at h
  simp [isLayout, h.1]

theorem isLayout_of_isIdentifier (h : isIdentifier t = true) : isLayout t = false := by
  simp only [isIdentifier, Bool.and_eq_true, decide_eq_true_eq] at h
  simp [isLayout, h.1]

theorem op_cons {o : String} (h : isOp o t = true) :
    op o ⟨t :: ts, stop⟩ = some ((), ⟨ts, t.span.stop⟩) :=
  bind_of_eq (nextIf_cons h (isLayout_of_isOp h))

theorem op_of_false {o : String} (h : isOp o t = false) : op o ⟨t :: ts, stop⟩ = none :=
  bind_of_none (nextIf_of_false h)

theorem op_eq_some {o : String} {u : Unit} (h : op o c = some (u, c')) :
    ∃ t, c.tokens = t :: c'.tokens ∧ isOp o t = true ∧ c'.lastStop = t.span.stop := by
  obtain ⟨t, d, hnext, h⟩ := bind_eq_some.1 h
  obtain ⟨-, rfl⟩ := pure_eq_some.1 h
  obtain ⟨htokens, htest, hstop⟩ := nextIf_eq_some hnext
  exact ⟨t, htokens, htest, hstop (isLayout_of_isOp htest)⟩

theorem word_cons {w : String} (h : isWord w t = true) :
    word w ⟨t :: ts, stop⟩ = some ((), ⟨ts, t.span.stop⟩) :=
  bind_of_eq (nextIf_cons h (isLayout_of_isWord h))

theorem word_of_false {w : String} (h : isWord w t = false) : word w ⟨t :: ts, stop⟩ = none :=
  bind_of_none (nextIf_of_false h)

theorem word_eq_some {w : String} {u : Unit} (h : word w c = some (u, c')) :
    ∃ t, c.tokens = t :: c'.tokens ∧ isWord w t = true := by
  obtain ⟨t, d, hnext, h⟩ := bind_eq_some.1 h
  obtain ⟨-, rfl⟩ := pure_eq_some.1 h
  obtain ⟨htokens, htest, -⟩ := nextIf_eq_some hnext
  exact ⟨t, htokens, htest⟩

theorem identifier_cons (h : isIdentifier t = true) :
    identifier ⟨t :: ts, stop⟩ = some (t, ⟨ts, t.span.stop⟩) :=
  nextIf_cons h (isLayout_of_isIdentifier h)

theorem identifier_eq_some (h : identifier c = some (t, c')) :
    c.tokens = t :: c'.tokens ∧ isIdentifier t = true :=
  ⟨(nextIf_eq_some h).1, (nextIf_eq_some h).2.1⟩

theorem takesOp_cons {o : String} (h : isOp o t = true) :
    takesOp o ⟨t :: ts, stop⟩ = some (true, ⟨ts, t.span.stop⟩) := by
  show (if isOp o t then (op o >>= fun _ => pure true) else pure false : Reader Bool) _ = _
  rw [if_pos h, bind_of_eq (op_cons h)]
  rfl

theorem takesOp_of_false {o : String} (h : isOp o t = false) :
    takesOp o ⟨t :: ts, stop⟩ = some (false, ⟨t :: ts, stop⟩) := by
  show (if isOp o t then (op o >>= fun _ => pure true) else pure false : Reader Bool) _ = _
  rw [h]
  rfl

theorem takesOp_eq_some {o : String} {b : Bool} (h : takesOp o c = some (b, c')) :
    (b = true ∧ ∃ t, c.tokens = t :: c'.tokens ∧ isOp o t = true ∧ c'.lastStop = t.span.stop) ∨
      (b = false ∧ c = c') := by
  obtain ⟨seen, d, hsees, h⟩ := bind_eq_some.1 h
  obtain ⟨rfl, -⟩ := sees_eq_some.1 hsees
  cases seen with
  | true =>
      obtain ⟨u, d, hop, h⟩ := bind_eq_some.1 h
      obtain ⟨rfl, rfl⟩ := pure_eq_some.1 h
      exact .inl ⟨rfl, op_eq_some hop⟩
  | false =>
      obtain ⟨rfl, rfl⟩ := pure_eq_some.1 h
      exact .inr ⟨rfl, rfl⟩

theorem takesWord_cons {w : String} (h : isWord w t = true) :
    takesWord w ⟨t :: ts, stop⟩ = some (true, ⟨ts, t.span.stop⟩) := by
  show (if isWord w t then (word w >>= fun _ => pure true) else pure false : Reader Bool) _ = _
  rw [if_pos h, bind_of_eq (word_cons h)]
  rfl

theorem takesWord_of_false {w : String} (h : isWord w t = false) :
    takesWord w ⟨t :: ts, stop⟩ = some (false, ⟨t :: ts, stop⟩) := by
  show (if isWord w t then (word w >>= fun _ => pure true) else pure false : Reader Bool) _ = _
  rw [h]
  rfl

theorem takesWord_eq_some {w : String} {b : Bool} (h : takesWord w c = some (b, c')) :
    (b = true ∧ ∃ t, c.tokens = t :: c'.tokens ∧ isWord w t = true) ∨ (b = false ∧ c = c') := by
  obtain ⟨seen, d, hsees, h⟩ := bind_eq_some.1 h
  obtain ⟨rfl, -⟩ := sees_eq_some.1 hsees
  cases seen with
  | true =>
      obtain ⟨u, d, hword, h⟩ := bind_eq_some.1 h
      obtain ⟨rfl, rfl⟩ := pure_eq_some.1 h
      exact .inl ⟨rfl, word_eq_some hword⟩
  | false =>
      obtain ⟨rfl, rfl⟩ := pure_eq_some.1 h
      exact .inr ⟨rfl, rfl⟩

theorem seesOp_of_eq {o : String} {b : Bool} (h : isOp o t = b) :
    seesOp o ⟨t :: ts, stop⟩ = some (b, ⟨t :: ts, stop⟩) := h ▸ rfl

theorem seesWord_of_eq {w : String} {b : Bool} (h : isWord w t = b) :
    seesWord w ⟨t :: ts, stop⟩ = some (b, ⟨t :: ts, stop⟩) := h ▸ rfl

/-! ## Alternatives -/

theorem maybe_eq_some {p : Reader α} {o : Option α} (h : maybe p c = some (o, c')) :
    (∃ a, o = some a ∧ p c = some (a, c')) ∨ (o = none ∧ c = c') := by
  unfold maybe at h
  split at h
  · rename_i a d hp
    obtain ⟨rfl, rfl⟩ := Prod.mk.inj (Option.some.inj h)
    exact .inl ⟨a, rfl, hp⟩
  · obtain ⟨rfl, rfl⟩ := Prod.mk.inj (Option.some.inj h)
    exact .inr ⟨rfl, rfl⟩

theorem maybe_of_some {p : Reader α} {a : α} (h : p c = some (a, c')) :
    maybe p c = some (some a, c') := by
  unfold maybe
  rw [h]

theorem maybe_of_none {p : Reader α} (h : p c = none) : maybe p c = some (none, c) := by
  unfold maybe
  rw [h]

theorem ahead_eq_some {p : Reader α} {b : Bool} :
    ahead p c = some (b, c') ↔ c = c' ∧ b = (p c).isSome := by
  show some ((p c).isSome, c) = some (b, c') ↔ _
  rw [Option.some.injEq, Prod.mk.injEq]
  exact ⟨fun h => ⟨h.2, h.1.symm⟩, fun h => ⟨h.2.symm, h.1⟩⟩

/-! ## Repetition -/

/-- `Steps step n a c b c'`: from `a` at `c`, the step gives something `n` times and ends with
    `b` at `c'`. -/
inductive Steps (step : α → Reader (Option α)) : Nat → α → Cursor → α → Cursor → Prop where
  | none {a : α} {c : Cursor} : Steps step 0 a c a c
  | step {n : Nat} {a b b' : α} {c d d' : Cursor} : step a c = some (some b, d) →
      Steps step n b d b' d' → Steps step (n + 1) a c b' d'

section Steps

variable {step : α → Reader (Option α)} {a b : α} {n : Nat}

/-- What every step keeps, the whole repetition keeps. -/
theorem Steps.invariant {P : α → Cursor → Prop} (h : Steps step n a c b c')
    (hstep : ∀ {a c b d}, step a c = some (some b, d) → P a c → P b d) (hstart : P a c) :
    P b c' := by
  induction h with
  | none => exact hstart
  | step hone _ ih => exact ih (hstep hone hstart)

theorem Steps.trans {m : Nat} {b' : α} {d : Cursor} (h : Steps step n a c b c')
    (h' : Steps step m b c' b' d) : Steps step (n + m) a c b' d := by
  induction h with
  | none =>
      rw [Nat.zero_add]
      exact h'
  | step hone _ ih =>
      rw [Nat.add_right_comm]
      exact .step hone (ih h')

theorem iterate_of_steps (h : Steps step n a c b c') (fuel : Nat) :
    iterate step (n + fuel) a c = iterate step fuel b c' := by
  induction h with
  | none => rw [Nat.zero_add]
  | step hone _ ih =>
      rw [Nat.add_right_comm]
      show (step _ >>= _) _ = _
      rw [bind_of_eq hone]
      exact ih

theorem iterate_of_none (h : step a c = some (none, c)) (fuel : Nat) :
    iterate step fuel a c = some (a, c) := by
  cases fuel with
  | zero => rfl
  | succ fuel =>
      show (step _ >>= _) _ = _
      rw [bind_of_eq h]
      rfl

/-- As many steps as there are tokens are taken, and then the step gives nothing. -/
theorem whileSome_of_steps (h : Steps step n a c b c') (hlength : n ≤ c.tokens.length)
    (hlast : step b c' = some (none, c')) : whileSome step a c = some (b, c') := by
  show iterate step c.tokens.length a c = _
  obtain ⟨fuel, hfuel⟩ := Nat.exists_eq_add_of_le hlength
  rw [hfuel, iterate_of_steps h]
  exact iterate_of_none hlast fuel

theorem iterate_eq_some {fuel : Nat} (h : iterate step fuel a c = some (b, c')) :
    ∃ n d, Steps step n a c b d ∧ (d = c' ∨ step b d = some (none, c')) := by
  induction fuel generalizing a c with
  | zero =>
      obtain ⟨rfl, rfl⟩ := pure_eq_some.1 h
      exact ⟨0, c, .none, .inl rfl⟩
  | succ fuel ih =>
      obtain ⟨o, d, hone, h⟩ := bind_eq_some.1 h
      cases o with
      | none =>
          obtain ⟨rfl, rfl⟩ := pure_eq_some.1 h
          exact ⟨0, c, .none, .inr hone⟩
      | some a' =>
          obtain ⟨n, d', hsteps, hlast⟩ := ih h
          exact ⟨n + 1, d', .step hone hsteps, hlast⟩

/-- What has been repeated, has been repeated some number of times. -/
theorem whileSome_eq_some (h : whileSome step a c = some (b, c')) :
    ∃ n d, Steps step n a c b d ∧ (d = c' ∨ step b d = some (none, c')) :=
  iterate_eq_some h

end Steps

/-! ## Lists -/

/-- `Reads p c as c'`: the reader gives these items one after the other. -/
inductive Reads (p : Reader α) : Cursor → List α → Cursor → Prop where
  | nil {c : Cursor} : Reads p c [] c
  | cons {a : α} {as : List α} {c d c' : Cursor} : p c = some (a, d) → Reads p d as c' →
      Reads p c (a :: as) c'

section Lists

variable {p : Reader α} {as : List α}

/-- The step that `many` repeats. -/
def collect (p : Reader α) (acc : List α) : Reader (Option (List α)) := do
  match ← maybe p with
  | some a => pure (some (a :: acc))
  | none => pure none

theorem collect_eq_some {acc acc' : List α} (h : collect p acc c = some (some acc', c')) :
    ∃ a, acc' = a :: acc ∧ p c = some (a, c') := by
  obtain ⟨o, d, hmaybe, h⟩ := bind_eq_some.1 h
  rcases maybe_eq_some hmaybe with ⟨a, rfl, hp⟩ | ⟨rfl, rfl⟩
  · obtain ⟨hacc, rfl⟩ := pure_eq_some.1 h
    exact ⟨a, (Option.some.inj hacc).symm, hp⟩
  · exact nomatch (pure_eq_some.1 h).1

theorem eq_of_collect_eq_none {acc : List α} (h : collect p acc c = some (none, c')) :
    c = c' := by
  obtain ⟨o, d, hmaybe, h⟩ := bind_eq_some.1 h
  rcases maybe_eq_some hmaybe with ⟨a, rfl, hp⟩ | ⟨rfl, rfl⟩
  · exact nomatch (pure_eq_some.1 h).1
  · exact (pure_eq_some.1 h).2

theorem reads_of_steps {n : Nat} {acc acc' : List α} {d : Cursor}
    (h : Steps (collect p) n acc c acc' d) : ∃ as, acc' = as.reverse ++ acc ∧ Reads p c as d := by
  induction h with
  | none => exact ⟨[], rfl, .nil⟩
  | step hone _ ih =>
      obtain ⟨a, rfl, hp⟩ := collect_eq_some hone
      obtain ⟨as, rfl, hreads⟩ := ih
      refine ⟨a :: as, ?_, .cons hp hreads⟩
      rw [List.reverse_cons, List.append_assoc]
      rfl

theorem many_eq_some (h : many p c = some (as, c')) : Reads p c as c' := by
  obtain ⟨acc, d, hwhile, h⟩ := bind_eq_some.1 h
  obtain ⟨rfl, rfl⟩ := pure_eq_some.1 h
  obtain ⟨n, d', hsteps, hlast⟩ := whileSome_eq_some hwhile
  obtain ⟨as, rfl, hreads⟩ := reads_of_steps hsteps
  rw [List.append_nil, List.reverse_reverse]
  rcases hlast with rfl | hlast
  · exact hreads
  · exact eq_of_collect_eq_none hlast ▸ hreads

theorem steps_of_reads (h : Reads p c as c') (acc : List α) :
    Steps (collect p) as.length acc c (as.reverse ++ acc) c' := by
  induction h generalizing acc with
  | nil => exact .none
  | @cons a as c d c' hp _ ih =>
      have hone : collect p acc c = some (some (a :: acc), d) :=
        (bind_of_eq (maybe_of_some hp)).trans rfl
      rw [List.reverse_cons, List.append_assoc]
      exact .step hone (ih (a :: acc))

/-- All items are read if each takes a token and the reader fails behind them. -/
theorem many_of_reads (h : Reads p c as c') (hlength : as.length ≤ c.tokens.length)
    (hlast : p c' = none) : many p c = some (as, c') := by
  have hwhile : whileSome (collect p) [] c = some (as.reverse ++ [], c') :=
    whileSome_of_steps (steps_of_reads h []) hlength ((bind_of_eq (maybe_of_none hlast)).trans rfl)
  refine (bind_of_eq hwhile).trans ?_
  rw [List.append_nil, List.reverse_reverse]
  rfl

end Lists

end Covenant.Grammar.Reader
