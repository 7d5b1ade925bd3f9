import Covenant.Proofs.Interleaving.System
import Covenant.Proofs.Machine.Growth

/-! # Confinement — what nobody changes

    Every step leaves some objects as they are: the copies that wrappers have
    made, and the objects that cannot change (`Step.leaves`).

    That the program leaves the copies alone is an invariant of its own: it
    only ever gets hold of objects that it has made (`Confined`), since copies
    are new and no object of the program refers to them.  Each kind of change
    to a heap has a lemma for both; a step picks the ones it needs. -/

namespace Covenant.Machine

open Wrapper

/-! ## Snapshots -/

section Preserve

variable {host : Host} {d : Descriptor Value} {implementation : Value} {a : Activation Value}
  {field : String} {v w : Value} {h h' : Heap}

/-- What preserving gives is the snapshot. -/
theorem eq_snapshot_of_done (hsnapshot : Comp.snapshot v h = .done w h') :
    (w, h') = h.snapshot v := by
  unfold Comp.snapshot at hsnapshot
  unfold Heap.snapshot
  simp only [bind, Comp.object?, Run.bind] at hsnapshot
  cases ho : h.object? v with
  | none =>
      simp only [ho] at hsnapshot
      split at hsnapshot
      · cases hsnapshot
      · cases hsnapshot
        rfl
  | some o =>
      simp only [ho] at hsnapshot
      cases hu : o.isUncopyable with
      | true =>
          rw [hu] at hsnapshot
          cases hsnapshot
      | false =>
          rw [hu] at hsnapshot
          cases hsnapshot
          unfold Heap.snapshot
          simp only [ho]

/-- A wrapper that preserves a field takes a snapshot of its value. -/
theorem snapshot_of_preserve
    (hread : getField host (a.receiver?.getD .none) field h = .done v h)
    (hpreserve : (surroundings host d implementation).preserve a field h = .done w h') :
    (w, h') = h.snapshot v := by
  refine eq_snapshot_of_done ?_
  rw [← hpreserve]
  show _ = (getField host (a.receiver?.getD .none) field h).bind Comp.snapshot
  rw [hread]
  rfl

end Preserve

/-! ## What nobody changes -/

namespace System

variable {S S' S'' : System}

theorem made_make {m m' : Maker} {o : Object} {a : Address} :
    (S.make m o).Made m' a ↔ S.Made m' a ∨ a = S.heap.objects.size ∧ m = m' := by
  show a < (S.heap.add o).2.objects.size ∧
    Function.update S.maker S.heap.objects.size m a = m' ↔ _
  rw [Heap.size_add]
  rcases Nat.lt_trichotomy a S.heap.objects.size with hlt | rfl | hgt
  · rw [Function.update_of_ne (Nat.ne_of_lt hlt)]
    constructor
    · rintro ⟨-, hm⟩
      exact .inl ⟨hlt, hm⟩
    · rintro (⟨-, hm⟩ | ⟨rfl, -⟩)
      · exact ⟨Nat.lt_succ_of_lt hlt, hm⟩
      · exact absurd hlt (Nat.lt_irrefl _)
  · rw [Function.update_self]
    constructor
    · rintro ⟨-, hm⟩
      exact .inr ⟨rfl, hm⟩
    · rintro (⟨hlt, -⟩ | ⟨-, hm⟩)
      · exact absurd hlt (Nat.lt_irrefl _)
      · exact ⟨Nat.lt_succ_self _, hm⟩
  · constructor
    · rintro ⟨hlt, -⟩
      exact absurd (Nat.lt_of_lt_of_le hlt hgt) (Nat.lt_irrefl _)
    · rintro (⟨hlt, -⟩ | ⟨rfl, -⟩)
      · exact absurd (Nat.lt_trans hlt hgt) (Nat.lt_irrefl _)
      · exact absurd hgt (Nat.lt_irrefl _)

/-- What is at an address of another system is there as it was, if a wrapper has put it there
    or it cannot change. -/
structure Leaves (S S' : System) : Prop where
  copies : ∀ a, S.Made .wrapper a → S'.Made .wrapper a ∧ S'.heap.get? a = S.heap.get? a
  fixed : ∀ a o, S.heap.get? a = some o → o.isFixed = true → S'.heap.get? a = some o

theorem Leaves.refl (S : System) : S.Leaves S := ⟨fun _ h => ⟨h, rfl⟩, fun _ _ h _ => h⟩

theorem leaves_make (S : System) (m : Maker) (o : Object) : S.Leaves (S.make m o) where
  copies _ ha := ⟨made_make.2 (.inl ha), S.heap.get?_add_of_lt o ha.1⟩
  fixed _ _ hx _ := (S.heap.get?_add_of_lt o (Heap.lt_of_get? hx)).trans hx

theorem leaves_change {a : Address} (o : Object) (ha : ¬ S.Made .wrapper a)
    (hc : S.Changeable a) : S.Leaves (S.change a o) where
  copies b hb := by
    have hab : a ≠ b := by
      rintro rfl
      exact ha hb
    refine ⟨⟨?_, hb.2⟩, S.heap.get?_put_of_ne o hab⟩
    show b < (S.heap.put a o).objects.size
    rw [Heap.size_put]
    exact hb.1
  fixed b x hx hfixed := by
    have hab : a ≠ b := by
      rintro rfl
      rw [hc x hx] at hfixed
      cases hfixed
    exact (S.heap.get?_put_of_ne o hab).trans hx

/-- A value that nobody changes: no object, a copy that a wrapper has made, or an object that
    cannot change. -/
def Keeps (S : System) (w : Value) : Prop :=
  ∀ a, w = .ref a → S.Made .wrapper a ∨ ∃ o, S.heap.get? a = some o ∧ o.isFixed = true

/-- A value that nobody changes shows what it showed. -/
theorem Leaves.keeps {w : Value} (h : S.Leaves S') (hw : S.Keeps w) :
    S'.Keeps w ∧ S'.heap.object? w = S.heap.object? w := by
  cases w with
  | ref a =>
      rcases hw a rfl with hmade | ⟨o, ho, hfixed⟩
      · obtain ⟨hmade', hget⟩ := h.copies a hmade
        refine ⟨?_, hget⟩
        rintro b ⟨⟩
        exact .inl hmade'
      · have ho' := h.fixed a o ho hfixed
        refine ⟨?_, ho'.trans ho.symm⟩
        rintro b ⟨⟩
        exact .inr ⟨o, ho', hfixed⟩
  | atom | type | routine | module => exact ⟨nofun, rfl⟩

/-! ## Preserving -/

/-- To preserve a value is to make a copy of it, or to leave everything as it is. -/
theorem preserved_cases {v w : Value} {h : Heap} (hapart : S.heap.KeptApart v)
    (hw : (w, h) = S.heap.snapshot v) :
    (∃ o, S.preserved h = S.make .wrapper o ∧ w = .ref S.heap.objects.size) ∨
      (h = S.heap ∧ w = v ∧
        ∀ a, v = .ref a → ∃ o, S.heap.get? a = some o ∧ o.isFixed = true) := by
  unfold Heap.snapshot at hw
  cases ho : S.heap.object? v with
  | none =>
      simp only [ho] at hw
      cases hw
      refine .inr ⟨rfl, rfl, ?_⟩
      rintro a rfl
      obtain ⟨o, hget, -⟩ := hapart a rfl
      rw [show S.heap.object? (.ref a) = S.heap.get? a from rfl, hget] at ho
      cases ho
  | some o =>
      simp only [ho] at hw
      by_cases hc : o.isCopied = true
      · rw [if_pos hc] at hw
        cases hw
        exact .inl ⟨o, rfl, rfl⟩
      · rw [if_neg hc] at hw
        cases hw
        refine .inr ⟨rfl, rfl, ?_⟩
        rintro a rfl
        obtain ⟨x, hget, hx⟩ := hapart a rfl
        have hxo : x = o := Option.some.inj (hget.symm.trans ho)
        subst hxo
        exact ⟨x, hget, hx.resolve_left hc⟩

/-- A maker is given to an address that has no object yet. -/
theorem made_preserved {m : Maker} {a : Address} :
    (S.preserved S.heap).Made m a ↔ S.Made m a := by
  show a < S.heap.objects.size ∧
    Function.update S.maker S.heap.objects.size .wrapper a = m ↔ _
  refine and_congr_right fun ha => ?_
  rw [Function.update_of_ne (Nat.ne_of_lt ha)]

theorem leaves_preserved {v w : Value} {h : Heap} (hapart : S.heap.KeptApart v)
    (hw : (w, h) = S.heap.snapshot v) :
    S.Leaves (S.preserved h) ∧ (S.preserved h).Keeps w := by
  rcases preserved_cases hapart hw with ⟨o, hmake, rfl⟩ | ⟨rfl, rfl, hfixed⟩
  · rw [hmake]
    refine ⟨leaves_make S .wrapper o, ?_⟩
    rintro a ⟨⟩
    exact .inl (made_make.2 (.inr ⟨rfl, rfl⟩))
  · refine ⟨⟨fun a ha => ⟨made_preserved.2 ha, rfl⟩, fun _ _ hx _ => hx⟩, ?_⟩
    intro a ha
    exact .inr (hfixed a ha)

/-! ## What the program can know -/

section Confined

variable {host : Host} {refers : Object → List Address}

/-- The program knows only what it has made, and what it has made refers to nothing else. -/
structure Confined (refers : Object → List Address) (S : System) : Prop where
  known : ∀ a ∈ S.known, S.Made .program a
  closed : ∀ a o, S.Made .program a → S.heap.get? a = some o →
    ∀ b ∈ refers o, S.Made .program b

theorem Confined.make_program {o : Object} (hS : Confined refers S)
    (ho : ∀ a ∈ refers o, a ∈ S.known) :
    Confined refers { S.make .program o with known := S.heap.objects.size :: S.known } where
  known a ha := by
    rcases List.mem_cons.mp ha with rfl | ha
    · exact made_make.2 (.inr ⟨rfl, rfl⟩)
    · exact made_make.2 (.inl (hS.known a ha))
  closed a x ha hx b hb := by
    refine made_make.2 (.inl ?_)
    rcases made_make.1 ha with ha | ⟨rfl, -⟩
    · exact hS.closed a x ha ((S.heap.get?_add_of_lt o ha.1).symm.trans hx) b hb
    · obtain rfl := Option.some.inj ((S.heap.get?_add_self o).symm.trans hx)
      exact hS.known b (ho b hb)

/-- What others make is out of reach. -/
theorem Confined.make_other {m : Maker} (o : Object) (hm : m ≠ .program)
    (hS : Confined refers S) : Confined refers (S.make m o) where
  known a ha := made_make.2 (.inl (hS.known a ha))
  closed a x ha hx b hb := by
    refine made_make.2 (.inl ?_)
    rcases made_make.1 ha with ha | ⟨-, rfl⟩
    · exact hS.closed a x ha ((S.heap.get?_add_of_lt o ha.1).symm.trans hx) b hb
    · exact absurd rfl hm

theorem made_change {m : Maker} {a b : Address} {o : Object} :
    (S.change a o).Made m b ↔ S.Made m b := by
  unfold Made change
  rw [Heap.size_put]

/-- A changed object of the program has to refer to what the program has made. -/
theorem Confined.change {a : Address} {o : Object} (hS : Confined refers S)
    (ho : S.Made .program a → ∀ b ∈ refers o, S.Made .program b) :
    Confined refers (S.change a o) where
  known b hb := made_change.2 (hS.known b hb)
  closed b x hb hx c hc := by
    rw [made_change] at hb ⊢
    by_cases hab : a = b
    · subst hab
      rw [Heap.eq_of_get?_put hx] at hc
      exact ho hb c hc
    · exact hS.closed b x hb ((S.heap.get?_put_of_ne o hab).symm.trans hx) c hc

theorem Confined.preserved {v w : Value} {h : Heap} (hS : Confined refers S)
    (hapart : S.heap.KeptApart v) (hw : (w, h) = S.heap.snapshot v) :
    Confined refers (S.preserved h) := by
  rcases preserved_cases hapart hw with ⟨o, hmake, -⟩ | ⟨rfl, -, -⟩
  · rw [hmake]
    exact hS.make_other o nofun
  · refine ⟨fun a ha => made_preserved.2 (hS.known a ha), ?_⟩
    intro a o ha ho b hb
    exact made_preserved.2 (hS.closed a o (made_preserved.1 ha) ho b hb)

/-- An answer leaves what nobody changes and tells the program nothing. -/
theorem Answers.leaves {s : Strand} {q : Query Value} {r : q.Answer}
    (h : S.Answers host s q r S') (hS : Confined refers S) :
    S.Leaves S' ∧ Confined refers S' := by
  cases h with
  | holds => exact ⟨.refl S, hS⟩
  | preserve hread hapart hpreserve =>
      have hw := snapshot_of_preserve hread hpreserve
      exact ⟨(leaves_preserved hapart hw).1, hS.preserved hapart hw⟩
  | invoke => exact ⟨.refl S, hS⟩

/-- Whatever step is taken, the program stays confined. -/
theorem Step.confined (h : Step host refers S S') (hS : Confined refers S) :
    Confined refers S' := by
  cases h with
  | make o ho => exact hS.make_program ho
  | learn ha ho hb =>
      refine ⟨?_, hS.closed⟩
      intro c hc
      rcases List.mem_cons.mp hc with rfl | hc
      · exact hS.closed _ _ (hS.known _ ha) ho _ hb
      · exact hS.known c hc
  | change o ha hc ho => exact hS.change fun _ b hb => hS.known b (ho b hb)
  | note o => exact hS.make_other o nofun
  | revise o ha hc =>
      refine hS.change fun hprogram => ?_
      have hmakers := ha.2.symm.trans hprogram.2
      cases hmakers
  | enter d implementation receiver? arguments => exact ⟨hS.known, hS.closed⟩
  | advance hs hq hr =>
      obtain ⟨hknown, hclosed⟩ := (hr.leaves hS).2
      exact ⟨hknown, hclosed⟩

/-- **NOBODY CHANGES** what a wrapper has copied, or what cannot change. -/
theorem Step.leaves (h : Step host refers S S') (hS : Confined refers S) : S.Leaves S' := by
  cases h with
  | make o ho =>
      obtain ⟨hcopies, hfixed⟩ := leaves_make S .program o
      exact ⟨hcopies, hfixed⟩
  | learn ha ho hb => exact ⟨(Leaves.refl S).copies, (Leaves.refl S).fixed⟩
  | change o ha hc ho =>
      refine leaves_change o ?_ hc
      intro hwrapper
      have hmakers := (hS.known _ ha).2.symm.trans hwrapper.2
      cases hmakers
  | note o => exact leaves_make S .clause o
  | revise o ha hc =>
      refine leaves_change o ?_ hc
      intro hwrapper
      have hmakers := ha.2.symm.trans hwrapper.2
      cases hmakers
  | enter d implementation receiver? arguments =>
      exact ⟨(Leaves.refl S).copies, (Leaves.refl S).fixed⟩
  | advance hs hq hr =>
      obtain ⟨hcopies, hfixed⟩ := (hr.leaves hS).1
      exact ⟨hcopies, hfixed⟩

end Confined

end System

end Covenant.Machine
