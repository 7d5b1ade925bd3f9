/-! # Ranges — membership of a code point in a sorted table

    Unicode properties are data: each is a list of closed intervals of code
    points.  This module holds the one question asked of such a table. -/

namespace Covenant.Text

/-- Whether a code point lies in one of the closed intervals. -/
def inRanges (table : List (Nat × Nat)) (n : Nat) : Bool :=
  table.any fun r => r.1 ≤ n && n ≤ r.2

/-- Membership unfolds to the existence of an interval that holds the point. -/
theorem inRanges_iff {table : List (Nat × Nat)} {n : Nat} :
    inRanges table n = true ↔ ∃ r ∈ table, r.1 ≤ n ∧ n ≤ r.2 := by
  simp [inRanges]

end Covenant.Text
