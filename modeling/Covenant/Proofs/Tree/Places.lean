import Covenant.Tree.Span
import Mathlib.Data.Prod.Lex

/-! # Places — the reading order of a text

    Places are ordered by their lines, and on one line by their columns.  What
    is read moves the place on, so the places of a text stand in the order of
    the parts in front of them.

    * `lt_advanceAll`: something that is read moves the place on.
    * `isPrefix_of_le`: of two parts in front of places, the one in front of the
      first place is a part of the other.
    * Two spans are `Apart` if one ends before the other starts. -/

namespace Covenant.Tree

/-! ## Order -/

/-- A place as a pair in lexicographic order. -/
def Pos.key (p : Pos) : ℕ ×ₗ ℕ := toLex (p.line, p.col)

theorem Pos.key_injective : Function.Injective Pos.key := by
  rintro ⟨line, col⟩ ⟨line', col'⟩ h
  cases toLex.injective h
  rfl

instance : LinearOrder Pos := LinearOrder.lift' Pos.key Pos.key_injective

theorem Pos.lt_iff {p q : Pos} : p < q ↔ p.line < q.line ∨ p.line = q.line ∧ p.col < q.col := by
  show toLex (p.line, p.col) < toLex (q.line, q.col) ↔ _
  rw [Prod.Lex.toLex_lt_toLex]

theorem Pos.le_iff {p q : Pos} : p ≤ q ↔ p.line < q.line ∨ p.line = q.line ∧ p.col ≤ q.col := by
  show toLex (p.line, p.col) ≤ toLex (q.line, q.col) ↔ _
  rw [Prod.Lex.toLex_le_toLex]

/-- One place is before another exactly if it is smaller. -/
theorem Pos.before_iff_lt {p q : Pos} : p.before q = true ↔ p < q := by
  rw [Pos.lt_iff]
  unfold Pos.before
  simp

/-! ## Reading -/

variable {p q : Pos} {c : Char} {cs xs ys : List Char}

theorem Pos.lt_advance (p : Pos) (c : Char) : p < p.advance c := by
  rw [Pos.lt_iff]
  unfold Pos.advance
  split
  · exact .inl (Nat.lt_succ_self p.line)
  · exact .inr ⟨rfl, Nat.lt_add_of_pos_right c.utf8Size_pos⟩

theorem Pos.le_advanceAll (p : Pos) (cs : List Char) : p ≤ p.advanceAll cs := by
  induction cs generalizing p with
  | nil => exact le_refl p
  | cons c cs ih => exact (p.lt_advance c).le.trans (ih (p.advance c))

/-- Something that is read moves the place on. -/
theorem Pos.lt_advanceAll (p : Pos) (h : cs ≠ []) : p < p.advanceAll cs := by
  cases cs with
  | nil => exact absurd rfl h
  | cons c cs => exact (p.lt_advance c).trans_le ((p.advance c).le_advanceAll cs)

/-- The place is only the same if nothing was read. -/
theorem Pos.eq_nil_of_advanceAll_le (h : p.advanceAll cs ≤ p) : cs = [] := by
  by_contra hne
  exact absurd (p.lt_advanceAll hne) (not_lt_of_ge h)

/-- Of two parts in front of places of a text, the one in front of the first place is a part of the
    other. -/
theorem Pos.isPrefix_of_le {text : List Char} (hx : xs <+: text) (hy : ys <+: text)
    (h : p.advanceAll xs ≤ p.advanceAll ys) : xs <+: ys := by
  rcases List.prefix_or_prefix_of_prefix hx hy with hxy | ⟨more, rfl⟩
  · exact hxy
  · rw [Pos.advanceAll_append] at h
    obtain rfl := Pos.eq_nil_of_advanceAll_le h
    exact ⟨[], by rw [List.append_nil, List.append_nil]⟩

/-! ## Spans -/

/-- Two spans are apart if one of them ends before the other one starts. -/
def Span.Apart (a b : Span) : Prop := a.stop ≤ b.start ∨ b.stop ≤ a.start

theorem Span.Apart.symm {a b : Span} (h : a.Apart b) : b.Apart a := Or.symm h

end Covenant.Tree
