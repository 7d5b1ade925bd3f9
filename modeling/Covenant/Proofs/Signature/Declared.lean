import Covenant.Proofs.Grammar.Definitions
import Covenant.Signature.Basic

/-! # Declared parameters — their order as that of a parameter list

    A wrapper declares parameters by rank, with a slash behind the last one
    that is only positional and a lone star in front of the first named one if
    no variadic parameter has a star.

    * What has been entered of a parameter list and what is to come of it fit
      together (`Awaits`).  A parameter with its marks keeps this
      (`Awaits.step`).
    * So all parameters may be entered in their order (`enterAll_placedParts`). -/

namespace Covenant.Signature

open Grammar Declaration Token
open Covenant.Value (Datum)

variable {α : Type} {p q : Parameter α} {ps : List (Parameter α)} {part : Part}
  {m m' : Grammar.Marks} {slash : Nat} {starred : Bool}

/-! ## Parts -/

/-- What a parameter is declared as. -/
def partFor (p : Parameter α) (hint default : Option (List Face)) : Part :=
  match p.kind with
  | .variadicPositional => .star p.name hint
  | .variadicNamed => .doubleStar p.name hint
  | _ => .plain p.name hint default

/-- A part that stands for a parameter. -/
def StandsFor (p : Parameter α) (part : Part) : Prop :=
  ∃ hint default, part = partFor p hint default ∧ default.isSome = p.kind.isOptional

/-- The lone star in front of the first named parameter. -/
def loneStarFor (p : Parameter α) (starred : Bool) : List Part :=
  if p.kind.isNamed && !starred then [.loneStar] else []

/-- The slash behind the last parameter that is only positional. -/
def slashBehind (slash : Nat) : List Part := if slash = 1 then [.slash] else []

/-- The parts for parameters, with the marks between their groups. -/
def placedParts (partOf : Parameter α → Part) : Nat → Bool → List (Parameter α) → List Part
  | _, _, [] => []
  | slash, starred, p :: ps =>
    loneStarFor p starred ++ [partOf p] ++ slashBehind slash
      ++ placedParts partOf (slash - 1) (starred || (p.kind.isNamed && !starred)) ps

theorem StandsFor.names (h : StandsFor p part) : part.names = [p.name] := by
  obtain ⟨hint, default, rfl, -⟩ := h
  unfold partFor
  cases p.kind <;> rfl

/-- The marks between the groups declare nothing. -/
theorem names_placedParts {partOf : Parameter α → Part} (h : ∀ p ∈ ps, StandsFor p (partOf p)) :
    (placedParts partOf slash starred ps).flatMap Part.names = ps.map (·.name) := by
  induction ps generalizing slash starred with
  | nil => rfl
  | cons p ps ih =>
      rw [List.forall_mem_cons] at h
      have hstar : (loneStarFor p starred).flatMap Part.names = [] := by
        rw [loneStarFor]
        split_ifs <;> rfl
      have hslash : (slashBehind slash).flatMap Part.names = [] := by
        rw [slashBehind]
        split_ifs <;> rfl
      rw [placedParts, List.flatMap_append, List.flatMap_append, List.flatMap_append, hstar, hslash,
        List.flatMap_singleton, h.1.names, ih h.2, List.map_cons]
      rfl

/-! ## Entering parameters -/

/-- A parameter may stand behind another one in a declaration: the groups are in their order, and
    there is one variadic parameter of each kind. -/
def Behind (p q : Parameter α) : Prop :=
  rank p.kind ≤ rank q.kind ∧
    (p.kind = q.kind → p.kind ≠ .variadicPositional ∧ p.kind ≠ .variadicNamed)

/-- What has been entered of a parameter list fits to what is to come. -/
structure Awaits (m : Grammar.Marks) (slash : Nat) (starred : Bool) (ps : List (Parameter α)) :
    Prop where
  named : m.needsNamed = false
  closed : m.closed = true → ps = []
  defaulted : m.defaulted = true → ∀ p ∈ ps, p.kind ≠ .requiredPositional
  behindStar : m.starred = true → ∀ p ∈ ps, rank .requiredNamed ≤ rank p.kind
  star : starred = (m.starred || ps.any (·.kind = .variadicPositional))
  positional : ∀ p ∈ ps.take slash, rank p.kind < rank .variadicPositional
  slashed : slash ≠ 0 → m.slashed = false

/-- What a parameter of a kind changes. -/
def entered (m : Grammar.Marks) : ParameterKind → Grammar.Marks
  | .requiredPositional => { m with positional := true }
  | .optionalPositional => { m with positional := true, defaulted := true }
  | .variadicPositional => { m with starred := true }
  | .requiredNamed | .optionalNamed => { m with starred := true, needsNamed := false }
  | .variadicNamed => { m with closed := true }

theorem enterAll_append (m : Grammar.Marks) (as bs : List Part) :
    m.enterAll (as ++ bs) = (m.enterAll as).bind (·.enterAll bs) := by
  induction as generalizing m with
  | nil => rfl
  | cons a as ih =>
      rw [List.cons_append, Marks.enterAll, Marks.enterAll, Option.bind_assoc]
      exact congrArg _ (funext fun m => ih m)

theorem enterAll_singleton (m : Grammar.Marks) (a : Part) : m.enterAll [a] = m.enter a := by
  rw [Marks.enterAll]
  cases m.enter a <;> rfl

namespace Awaits

theorem not_closed (h : Awaits m slash starred (p :: ps)) : m.closed = false :=
  Bool.eq_false_iff.mpr fun hclosed => List.cons_ne_nil _ _ (h.closed hclosed)

/-- Nothing positional stands behind a star. -/
theorem not_starred (h : Awaits m slash starred (p :: ps))
    (hp : rank p.kind < rank .requiredNamed) : m.starred = false :=
  Bool.eq_false_iff.mpr fun hstarred =>
    Nat.not_le_of_lt hp (h.behindStar hstarred p List.mem_cons_self)

/-- No variadic parameter comes behind a named one. -/
theorem starred_of_named (h : Awaits m slash starred (p :: ps)) (hps : ∀ q ∈ ps, Behind p q)
    (hp : rank .variadicPositional < rank p.kind) : starred = m.starred := by
  have hnone : (p :: ps).any (·.kind = .variadicPositional) = false := by
    rw [List.any_eq_false]
    intro q hq hkind
    have hkind : q.kind = .variadicPositional := of_decide_eq_true hkind
    rcases List.mem_cons.mp hq with rfl | hq
    · exact absurd hp (hkind ▸ Nat.lt_irrefl _)
    · exact absurd (hps q hq).1 (hkind ▸ Nat.not_le_of_lt hp)
  rw [h.star, hnone, Bool.or_false]

/-- A parameter with the lone star in front of it, if it needs one, may be entered. -/
theorem enter (h : Awaits m slash starred (p :: ps)) (hps : ∀ q ∈ ps, Behind p q)
    (hpart : StandsFor p part) :
    m.enterAll (loneStarFor p starred ++ [part]) = some (entered m p.kind) := by
  obtain ⟨hint, default, rfl, hdefault⟩ := hpart
  have hclosed := h.not_closed
  have hnamed := h.named
  unfold partFor loneStarFor
  cases hkind : p.kind with
  | requiredPositional =>
      have hstarred := h.not_starred (by rw [hkind]; decide)
      have hdefaulted : m.defaulted = false := Bool.eq_false_iff.mpr fun hdefaulted =>
        h.defaulted hdefaulted p List.mem_cons_self hkind
      simp [enterAll_singleton, Marks.enter, entered, ParameterKind.isNamed, ParameterKind.isOptional,
        hkind, hclosed, hstarred, hdefaulted, hdefault]
  | optionalPositional =>
      have hstarred := h.not_starred (by rw [hkind]; decide)
      simp [enterAll_singleton, Marks.enter, entered, ParameterKind.isNamed, ParameterKind.isOptional,
        hkind, hclosed, hstarred, hdefault]
  | variadicPositional =>
      have hstarred := h.not_starred (by rw [hkind]; decide)
      simp [enterAll_singleton, Marks.enter, entered, ParameterKind.isNamed, hclosed, hstarred]
  | requiredNamed | optionalNamed =>
      have hstarred := h.starred_of_named hps (by rw [hkind]; decide)
      cases hm : m.starred <;>
        simp [Marks.enterAll, Marks.enter, entered, ParameterKind.isNamed, hclosed, hstarred, hm]
  | variadicNamed =>
      simp [enterAll_singleton, Marks.enter, entered, ParameterKind.isNamed, hclosed, hnamed]

/-- What a parameter changes fits to the parameters behind it. -/
theorem advance (h : Awaits m slash starred (p :: ps)) (hps : ∀ q ∈ ps, Behind p q) :
    Awaits (entered m p.kind) (slash - 1) (starred || (p.kind.isNamed && !starred)) ps where
  named := by
    have hnamed := h.named
    cases p.kind <;> first | exact hnamed | rfl
  closed hclosed := by
    have hm := h.not_closed
    cases hkind : p.kind with
    | variadicNamed =>
        -- nothing may stand behind a mapping
        refine List.eq_nil_iff_forall_not_mem.mpr fun q hq => ?_
        obtain ⟨hrank, hone⟩ := hps q hq
        rw [hkind] at hrank hone
        cases hq : q.kind <;> rw [hq] at hrank hone <;>
          first | exact absurd hrank (by decide) | exact (hone rfl).2 rfl
    | _ =>
        rw [hkind] at hclosed
        exact absurd (hclosed.symm.trans hm) Bool.noConfusion
  defaulted hdefaulted q hq hrequired := by
    have hrank := (hps q hq).1
    rw [hrequired] at hrank
    cases hkind : p.kind with
    | requiredPositional =>
        rw [hkind] at hdefaulted
        exact h.defaulted hdefaulted q (List.mem_cons_of_mem _ hq) hrequired
    | _ =>
        rw [hkind] at hrank
        exact absurd hrank (by decide)
  behindStar hstarred q hq := by
    obtain ⟨hrank, hone⟩ := hps q hq
    cases hkind : p.kind with
    | variadicPositional =>
        rw [hkind] at hrank hone
        cases hq : q.kind <;> rw [hq] at hrank hone <;>
          first | exact absurd hrank (by decide) | exact absurd rfl (hone rfl).1 | decide
    | requiredPositional | optionalPositional =>
        rw [hkind] at hstarred
        exact h.behindStar hstarred q (List.mem_cons_of_mem _ hq)
    | requiredNamed | optionalNamed | variadicNamed =>
        rw [hkind] at hrank
        exact Nat.le_trans (by decide) hrank
  star := by
    have hstar := h.star
    rw [List.any_cons] at hstar
    cases hkind : p.kind with
    | requiredPositional | optionalPositional | variadicNamed =>
        rw [hkind] at hstar
        simpa [ParameterKind.isNamed, entered] using hstar
    | variadicPositional =>
        rw [hkind] at hstar
        simp [ParameterKind.isNamed, entered, hstar]
    | requiredNamed | optionalNamed => simp [ParameterKind.isNamed, entered]
  positional q hq := by
    cases slash with
    | zero => exact nomatch hq
    | succ slash => exact h.positional q (List.mem_cons_of_mem _ hq)
  slashed hslash := by
    have hm := h.slashed fun hzero => hslash (by rw [hzero])
    cases p.kind <;> exact hm

/-- The slash may be entered behind the last parameter that is only positional. -/
theorem enterSlash (h : Awaits m slash starred (p :: ps)) :
    ∃ m', (entered m p.kind).enterAll (slashBehind slash) = some m' ∧
      ∀ {starred'}, Awaits (entered m p.kind) (slash - 1) starred' ps →
        Awaits m' (slash - 1) starred' ps := by
  rw [slashBehind]
  split_ifs with hslash
  · subst hslash
    have hrank := h.positional p List.mem_cons_self
    have hclosed := h.not_closed
    have hslashed := h.slashed Nat.one_ne_zero
    have hstarred := h.not_starred (Nat.lt_trans hrank (by decide))
    refine ⟨{ entered m p.kind with positional := false, slashed := true }, ?_, fun hmore =>
      ⟨hmore.named, hmore.closed, hmore.defaulted, hmore.behindStar, hmore.star, hmore.positional,
        fun hzero => absurd rfl hzero⟩⟩
    rw [enterAll_singleton]
    cases hkind : p.kind with
    | requiredPositional | optionalPositional =>
        simp [Marks.enter, entered, hclosed, hslashed, hstarred]
    | _ =>
        rw [hkind] at hrank
        exact absurd hrank (by decide)
  · exact ⟨_, rfl, id⟩

/-- **A PARAMETER** with the marks around it may be entered, and what is entered then fits to the
    parameters behind it. -/
theorem step (h : Awaits m slash starred (p :: ps)) (hps : ∀ q ∈ ps, Behind p q)
    (hpart : StandsFor p part) :
    ∃ m', m.enterAll (loneStarFor p starred ++ [part] ++ slashBehind slash) = some m' ∧
      Awaits m' (slash - 1) (starred || (p.kind.isNamed && !starred)) ps := by
  obtain ⟨m', hslash, hmore⟩ := h.enterSlash
  refine ⟨m', ?_, hmore (h.advance hps)⟩
  rw [enterAll_append, h.enter hps hpart]
  exact hslash

end Awaits

/-- **ALL PARAMETERS** may be entered in their order. -/
theorem enterAll_placedParts {partOf : Parameter α → Part} (h : Awaits m slash starred ps)
    (hps : ps.Pairwise Behind) (hparts : ∀ p ∈ ps, StandsFor p (partOf p)) :
    ∃ m', m.enterAll (placedParts partOf slash starred ps) = some m' ∧ m'.needsNamed = false := by
  induction ps generalizing m slash starred with
  | nil => exact ⟨m, rfl, h.named⟩
  | cons p ps ih =>
      rw [List.pairwise_cons] at hps
      rw [List.forall_mem_cons] at hparts
      obtain ⟨m₁, hone, hmore⟩ := h.step hps.1 hparts.1
      obtain ⟨m', henter, hm'⟩ := ih hmore hps.2 hparts.2
      refine ⟨m', ?_, hm'⟩
      rw [placedParts, enterAll_append, hone]
      exact henter

/-! ## The slash -/

/-- Up to the last parameter that is only positional, all are positional. -/
theorem positional_of_slashAfter (hps : ps.Pairwise Behind)
    (hpositional : ∀ p ∈ ps, p.positionalOnly = true → rank p.kind < rank .variadicPositional) :
    ∀ p ∈ ps.take (slashAfter ps), rank p.kind < rank .variadicPositional := by
  have hsuffix := List.dropWhile_suffix (fun p => !p.positionalOnly) (l := ps.reverse)
  have htake : ps.take (slashAfter ps)
      = (ps.reverse.dropWhile fun p => !p.positionalOnly).reverse := by
    rw [slashAfter, ← List.length_reverse]
    refine (List.prefix_iff_eq_take.mp ?_).symm
    exact List.reverse_suffix.mp (by rwa [List.reverse_reverse])
  intro q hq
  rw [htake, List.mem_reverse] at hq
  have hmem : q ∈ ps := List.mem_reverse.mp (hsuffix.subset hq)
  cases hlist : ps.reverse.dropWhile fun p => !p.positionalOnly with
  | nil =>
      rw [hlist] at hq
      exact nomatch hq
  | cons a rest =>
      have ha : a.positionalOnly = true := by
        have hhead := List.head?_dropWhile_not (fun p => !p.positionalOnly) ps.reverse
        rw [hlist] at hhead
        simpa using hhead
      rw [hlist] at hq hsuffix
      have hlast := hpositional a (List.mem_reverse.mp (hsuffix.subset List.mem_cons_self)) ha
      rcases List.mem_cons.mp hq with rfl | hq
      · exact hlast
      · have hordered := (List.pairwise_reverse.mpr hps).sublist hsuffix.sublist
        exact Nat.lt_of_le_of_lt ((List.pairwise_cons.mp hordered).1 q hq).1 hlast

end Covenant.Signature
