import Covenant.Proofs.Signature.CallText
import Covenant.Proofs.Text.Quoted

/-! # Naming — the characters of names

    The characters of a name continue names, end no line, and mean nothing of
    their own between quotes.

    * What starts a name continues one (`isNameContinue_of_isNameStart`), so
      names can be put together (`isIdentifier_append`).
    * A name stays on its line (`IsName.flat`) and between its quotes
      (`IsName.inner`). -/

namespace Covenant.Text

variable {c : Char} {cs ds : List Char}

/-- Whether each interval of the second list lies in one of the first, which come in the same
    order. -/
def covers : List (Nat × Nat) → List (Nat × Nat) → Bool
  | [], rs => rs.isEmpty
  | s :: ss, rs => covers ss (rs.dropWhile fun r => s.1 ≤ r.1 && r.2 ≤ s.2)

theorem inRanges_of_covers {ss rs : List (Nat × Nat)} (h : covers ss rs = true) {n : Nat}
    (hn : inRanges rs n = true) : inRanges ss n = true := by
  induction ss generalizing rs with
  | nil =>
      rw [List.isEmpty_iff.mp h] at hn
      exact nomatch hn
  | cons s ss ih =>
      obtain ⟨r, hr, hlow, hhigh⟩ := inRanges_iff.mp hn
      rw [← List.takeWhile_append_dropWhile (p := fun r => s.1 ≤ r.1 && r.2 ≤ s.2) (l := rs),
        List.mem_append] at hr
      rcases hr with hr | hr
      · have hwithin := List.mem_takeWhile_imp (p := fun r : Nat × Nat => s.1 ≤ r.1 && r.2 ≤ s.2) hr
        obtain ⟨hfirst, hlast⟩ := Bool.and_eq_true_iff.mp hwithin
        exact inRanges_iff.mpr ⟨s, List.mem_cons_self,
          Nat.le_trans (of_decide_eq_true hfirst) hlow, Nat.le_trans hhigh (of_decide_eq_true hlast)⟩
      · obtain ⟨s', hs', hrange⟩ := inRanges_iff.mp (ih h (inRanges_iff.mpr ⟨r, hr, hlow, hhigh⟩))
        exact inRanges_iff.mpr ⟨s', List.mem_cons_of_mem s hs', hrange⟩

theorem continueTable_covers : covers identifierContinueTable identifierStartTable = true := by
  decide +kernel

theorem isNameContinue_of_isNameStart (h : isNameStart c = true) : isNameContinue c = true := by
  rcases Bool.or_eq_true_iff.mp h with h | h
  · exact Bool.or_eq_true_iff.mpr (.inl (Bool.or_eq_true_iff.mpr (.inl h)))
  · obtain ⟨hwide, hrange⟩ := Bool.and_eq_true_iff.mp h
    exact Bool.or_eq_true_iff.mpr (.inr (Bool.and_eq_true_iff.mpr
      ⟨hwide, inRanges_of_covers continueTable_covers hrange⟩))

theorem isNameContinue_of_isIdentifier (h : isIdentifier cs = true) :
    ∀ c ∈ cs, isNameContinue c = true := by
  cases cs with
  | nil => exact nofun
  | cons c cs =>
      obtain ⟨hstart, hrest⟩ := Bool.and_eq_true_iff.mp h
      exact List.forall_mem_cons.mpr
        ⟨isNameContinue_of_isNameStart hstart, List.all_eq_true.mp hrest⟩

/-- What continues names can be put behind a name. -/
theorem isIdentifier_append (h : isIdentifier cs = true) (hds : ∀ c ∈ ds, isNameContinue c = true) :
    isIdentifier (cs ++ ds) = true := by
  cases cs with
  | nil => exact nomatch h
  | cons c cs =>
      obtain ⟨hstart, hrest⟩ := Bool.and_eq_true_iff.mp h
      have hall : (cs ++ ds).all isNameContinue = true := by
        rw [List.all_append, hrest, Bool.true_and]
        exact List.all_eq_true.mpr hds
      exact Bool.and_eq_true_iff.mpr ⟨hstart, hall⟩

/-- What continues a name ends no line. -/
theorem isFlat_of_isNameContinue (h : isNameContinue c = true) : IsFlat c := by
  have hboundaries : ([0, 10, 11, 12, 13, 28, 29, 30, 0x85, 0x2028, 0x2029].all fun n =>
      !isNameContinue (Char.ofNat n)) = true := by decide +kernel
  have hcode : c.toNat ∉ [0, 10, 11, 12, 13, 28, 29, 30, 0x85, 0x2028, 0x2029] := fun hmem => by
    have hnot := List.all_eq_true.mp hboundaries _ hmem
    rw [Char.ofNat_toNat, h] at hnot
    exact nomatch hnot
  simp only [List.mem_cons, List.not_mem_nil, or_false, not_or] at hcode
  constructor
  · rw [Bool.eq_false_iff]
    intro hboundary
    simp only [isLineBoundary, Bool.or_eq_true, Bool.and_eq_true, decide_eq_true_eq,
      beq_iff_eq] at hboundary
    omega
  · rintro rfl
    exact hcode.1 rfl

end Covenant.Text

namespace Covenant.Signature

open Text Token

variable {name : String}

theorem IsName.flat (h : IsName name) : ∀ c ∈ name.toList, IsFlat c := fun c hc =>
  isFlat_of_isNameContinue (isNameContinue_of_isIdentifier h.1 c hc)

theorem IsName.inner (h : IsName name) : ∀ c ∈ name.toList, IsInner '"' c := fun c hc => by
  have hname := mayContinueName_of_isIdentifier h.1 c hc
  refine ⟨?_, ?_, ?_⟩ <;> rintro rfl <;> exact absurd hname (by decide)

end Covenant.Signature
