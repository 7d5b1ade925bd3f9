import Covenant.Proofs.Weaving.Outcome
import Covenant.Signature.Binding

/-! # Order — which slots make a signature

    Slots are published as a signature if each of them is named well and any
    two of them may stand in the order in which they are given.

    * `Ordered` is that condition; `checkOrder_eq_ok` says what the check knows in the middle
      of a list, and `published_eq_ok` that exactly the ordered slots are published, as they
      are.
    * Parameters whose slots are ordered are grouped already (`reconstruct_declaration`). -/

namespace Covenant.Signature

open Declaration Text

variable {α : Type} {s t : Slot α} {slots slots' : List (Slot α)}

/-! ## Slots in order -/

/-- Whether a slot takes one argument by its position. -/
abbrev Slot.IsPositional (s : Slot α) : Prop :=
  s.passing = .positionalOnly ∨ s.passing = .positionalOrNamed

/-- Whether the name of a slot is an identifier; a reserved word will do for one that is only
    positional. -/
def Slot.WellNamed (s : Slot α) : Prop :=
  isIdentifier s.name.toList = true ∧
    (keywords.contains s.name = true → s.passing = .positionalOnly)

/-- `Precedes s t`: the slot `s` may stand somewhere before `t`. -/
structure Precedes (s t : Slot α) : Prop where
  order : s.passing.order ≤ t.passing.order
  /-- Behind a default there is no required positional slot. -/
  default : s.IsPositional → s.default.isSome → t.IsPositional → t.default.isSome
  name : s.name ≠ t.name

/-- Slots that make a signature. -/
structure Ordered (slots : List (Slot α)) : Prop where
  named : ∀ s ∈ slots, s.WellNamed
  placed : slots.Pairwise Precedes

/-- Whether a slot takes what the others leave over. -/
abbrev Slot.IsVariadic (s : Slot α) : Prop := s.passing = .variadic ∨ s.passing = .variadicNamed

/-- Slots that a definition can have: a signature of which at most one slot takes arguments that
    are left over by position and one by name, without defaults. -/
structure Definable (slots : List (Slot α)) : Prop extends Ordered slots where
  single : slots.Pairwise fun s t => s.IsVariadic → t.passing ≠ s.passing
  bare : ∀ s ∈ slots, s.IsVariadic → s.default.isSome = false

instance (s : Slot α) : Decidable s.WellNamed := instDecidableAnd

instance : DecidableRel (Precedes (α := α)) := fun s t =>
  decidable_of_iff (s.passing.order ≤ t.passing.order ∧
    (s.IsPositional → s.default.isSome → t.IsPositional → t.default.isSome) ∧ s.name ≠ t.name)
    ⟨fun h => ⟨h.1, h.2.1, h.2.2⟩, fun h => ⟨h.order, h.default, h.name⟩⟩

instance (slots : List (Slot α)) : Decidable (Ordered slots) :=
  decidable_of_iff ((∀ s ∈ slots, s.WellNamed) ∧ slots.Pairwise Precedes)
    ⟨fun h => ⟨h.1, h.2⟩, fun h => ⟨h.named, h.placed⟩⟩

instance (slots : List (Slot α)) : Decidable (Definable slots) :=
  decidable_of_iff (Ordered slots ∧
      (slots.Pairwise fun s t => s.IsVariadic → t.passing ≠ s.passing) ∧
      ∀ s ∈ slots, s.IsVariadic → s.default.isSome = false)
    ⟨fun h => ⟨h.1, h.2.1, h.2.2⟩, fun h => ⟨h.toOrdered, h.single, h.bare⟩⟩

/-- What is left of slots in order is in order. -/
theorem Ordered.sublist (h : Ordered slots) (hsub : slots'.Sublist slots) : Ordered slots' where
  named := fun s hs => h.named s (hsub.subset hs)
  placed := h.placed.sublist hsub

theorem Definable.sublist (h : Definable slots) (hsub : slots'.Sublist slots) :
    Definable slots' where
  toOrdered := h.toOrdered.sublist hsub
  single := h.single.sublist hsub
  bare := fun s hs => h.bare s (hsub.subset hs)

/-! ## Publishing -/

theorem checkedSlot_eq_ok : checkedSlot s = .ok t ↔ t = s ∧ s.WellNamed := by
  have hreserved : (keywords.contains s.name && s.passing != .positionalOnly) = false ↔
      (keywords.contains s.name = true → s.passing = .positionalOnly) := by
    cases keywords.contains s.name with
    | true => simp
    | false => simp
  unfold checkedSlot
  by_cases hempty : s.name.isEmpty = true
  · rw [if_pos hempty]
    refine ⟨nofun, fun ⟨_, hname, _⟩ => ?_⟩
    rw [String.isEmpty_iff.mp hempty] at hname
    exact nomatch hname
  · rw [if_neg hempty]
    split
    · rename_i hbad
      refine ⟨nofun, fun ⟨_, hname, hkeyword⟩ => ?_⟩
      rw [hreserved.mpr hkeyword, hname] at hbad
      exact nomatch hbad
    · rename_i hgood
      obtain ⟨hfree, hname⟩ := Bool.or_eq_false_iff.mp (Bool.eq_false_iff.mpr hgood)
      refine ⟨fun h => ⟨(Except.ok.inj h).symm, ?_, hreserved.mp hfree⟩, fun h => h.1 ▸ rfl⟩
      simpa using hname

/-- What the check of an order knows when it has met some slots: the last passing, whether
    there was a default, and the names. -/
structure Follows (top : Passing) (defaulted : Bool) (names : List String) (s : Slot α) :
    Prop where
  order : top.order ≤ s.passing.order
  default : defaulted = true → s.IsPositional → s.default.isSome
  name : s.name ∉ names

/-- A slot that was met is one more slot before the others. -/
theorem follows_met {top : Passing} {defaulted : Bool} {names : List String}
    (h : Follows top defaulted names s) :
    Follows s.passing (defaulted || (decide s.IsPositional && s.default.isSome))
        (s.name :: names) t ↔ Precedes s t ∧ Follows top defaulted names t := by
  constructor
  · intro ht
    have hdefault := ht.default
    rw [Bool.or_eq_true, Bool.and_eq_true, decide_eq_true_iff] at hdefault
    obtain ⟨hname, hnames⟩ := not_or.mp (mt List.mem_cons.mpr ht.name)
    exact ⟨⟨ht.order, fun hs hd => hdefault (.inr ⟨hs, hd⟩), Ne.symm hname⟩,
      ⟨Nat.le_trans h.order ht.order, fun hd => hdefault (.inl hd), hnames⟩⟩
  · rintro ⟨hs, ht⟩
    refine ⟨hs.order, ?_, ?_⟩
    · rw [Bool.or_eq_true, Bool.and_eq_true, decide_eq_true_iff]
      rintro (hd | ⟨hp, hd⟩)
      · exact ht.default hd
      · exact hs.default hp hd
    · rw [List.mem_cons, not_or]
      exact ⟨hs.name.symm, ht.name⟩

/-- The check lets pass what may follow the slots met so far and is in order itself. -/
theorem checkOrder_eq_ok {top : Passing} {defaulted : Bool} {names : List String} :
    checkOrder top defaulted names slots = .ok () ↔
      (∀ s ∈ slots, Follows top defaulted names s) ∧ slots.Pairwise Precedes := by
  induction slots generalizing top defaulted names with
  | nil => exact ⟨fun _ => ⟨nofun, .nil⟩, fun _ => rfl⟩
  | cons s slots ih =>
      have hstep : checkOrder top defaulted names (s :: slots) = .ok () ↔
          Follows top defaulted names s ∧ checkOrder s.passing
            (defaulted || (decide s.IsPositional && s.default.isSome)) (s.name :: names) slots
              = .ok () := by
        rw [checkOrder]
        by_cases horder : s.passing.order < top.order
        · rw [if_pos horder]
          exact ⟨nofun, fun h => absurd h.1.order (Nat.not_le_of_lt horder)⟩
        rw [if_neg horder]
        by_cases hmissing : s.IsPositional ∧ s.default.isNone = true ∧ defaulted = true
        · rw [if_pos hmissing]
          refine ⟨nofun, fun h => ?_⟩
          have hsome := h.1.default hmissing.2.2 hmissing.1
          rw [Option.isNone_iff_eq_none.mp hmissing.2.1] at hsome
          exact nomatch hsome
        rw [if_neg hmissing]
        by_cases hduplicate : names.contains s.name = true
        · rw [if_pos hduplicate]
          exact ⟨nofun, fun h => absurd (List.contains_iff_mem.mp hduplicate) h.1.name⟩
        rw [if_neg hduplicate]
        refine ⟨fun h => ⟨⟨Nat.le_of_not_lt horder, fun hd hp => ?_, ?_⟩, h⟩, fun h => h.2⟩
        · rw [Option.isSome_iff_ne_none]
          exact fun hnone => hmissing ⟨hp, Option.isNone_iff_eq_none.mpr hnone, hd⟩
        · exact fun hmem => hduplicate (List.contains_iff_mem.mpr hmem)
      rw [hstep, ih, List.forall_mem_cons, List.pairwise_cons]
      constructor
      · rintro ⟨hs, hrest, hpairs⟩
        exact ⟨⟨hs, fun t ht => ((follows_met hs).mp (hrest t ht)).2⟩,
          fun t ht => ((follows_met hs).mp (hrest t ht)).1, hpairs⟩
      · rintro ⟨⟨hs, hrest⟩, hbefore, hpairs⟩
        exact ⟨hs, fun t ht => (follows_met hs).mpr ⟨hbefore t ht, hrest t ht⟩, hpairs⟩

theorem mapM_checkedSlot : slots.mapM checkedSlot = .ok slots' ↔
    slots' = slots ∧ ∀ s ∈ slots, s.WellNamed := by
  rw [mapM_eq_ok]
  induction slots generalizing slots' with
  | nil =>
      rw [List.forall₂_nil_left_iff]
      exact ⟨fun h => ⟨h, nofun⟩, fun h => h.1⟩
  | cons s slots ih =>
      rw [List.forall₂_cons_left_iff, List.forall_mem_cons]
      constructor
      · rintro ⟨t, rest, hs, hrest, rfl⟩
        obtain ⟨rfl, hname⟩ := checkedSlot_eq_ok.1 hs
        obtain ⟨rfl, hnames⟩ := ih.mp hrest
        exact ⟨rfl, hname, hnames⟩
      · rintro ⟨rfl, hname, hnames⟩
        exact ⟨s, slots, checkedSlot_eq_ok.2 ⟨rfl, hname⟩, ih.mpr ⟨rfl, hnames⟩, rfl⟩

/-- **WHAT IS PUBLISHED**: slots in order, as they are. -/
theorem published_eq_ok : published slots = .ok slots' ↔ slots' = slots ∧ Ordered slots := by
  have hplaced : checkOrder .positionalOnly false [] slots = .ok () ↔
      slots.Pairwise Precedes := by
    refine checkOrder_eq_ok.trans ⟨fun h => h.2, fun h => ⟨fun s _ => ?_, h⟩⟩
    exact ⟨Nat.zero_le _, nofun, List.not_mem_nil⟩
  unfold published
  rw [bind_eq_ok]
  constructor
  · rintro ⟨checked, hchecked, h⟩
    obtain ⟨rfl, hnamed⟩ := mapM_checkedSlot.1 hchecked
    obtain ⟨⟨⟩, horder, h⟩ := bind_eq_ok.mp h
    exact ⟨(Except.ok.inj h).symm, hnamed, hplaced.mp horder⟩
  · rintro ⟨rfl, h⟩
    refine ⟨slots', mapM_checkedSlot.2 ⟨rfl, h.named⟩, ?_⟩
    rw [hplaced.mpr h.placed]
    rfl

theorem checkOrder_ne_emptyName {top : Passing} {defaulted : Bool} {names : List String} :
    checkOrder top defaulted names slots ≠ .error .emptyName := by
  induction slots generalizing top defaulted names with
  | nil => nofun
  | cons s slots ih =>
      intro h
      rw [checkOrder] at h
      split at h
      · exact absurd (Except.error.inj h) nofun
      · simp only at h
        split_ifs at h
        · exact absurd (Except.error.inj h) nofun
        · exact absurd (Except.error.inj h) nofun
        · exact ih h

/-- Slots with good names that are not published have a fault other than an empty name. -/
theorem published_fault (hnamed : ∀ s ∈ slots, s.WellNamed) (h : ¬ Ordered slots) :
    ∃ fault, fault ≠ .emptyName ∧ published slots = .error fault := by
  have hchecked : slots.mapM checkedSlot = .ok slots := mapM_checkedSlot.2 ⟨rfl, hnamed⟩
  cases horder : checkOrder .positionalOnly false [] slots with
  | ok =>
      have hpublished : published slots = .ok slots := by
        rw [published, hchecked]
        show (checkOrder _ _ _ _ >>= fun _ => _) = _
        rw [horder]
        rfl
      exact absurd (published_eq_ok.1 hpublished).2 h
  | error fault =>
      refine ⟨fault, fun hempty => checkOrder_ne_emptyName (hempty ▸ horder), ?_⟩
      rw [published, hchecked]
      show (checkOrder _ _ _ _ >>= fun _ => _) = _
      rw [horder]
      rfl

/-! ## Receivers -/

/-- Whether a receiver can be put in front of slots: it can be named, so that they must not be
    only positional, and its name must be free. -/
def Admits (r : String) (slots : List (Slot α)) : Prop :=
  ∀ s ∈ slots, s.passing ≠ .positionalOnly ∧ s.name ≠ r

instance (r : String) (slots : List (Slot α)) : Decidable (Admits r slots) :=
  inferInstanceAs (Decidable (∀ s ∈ slots, s.passing ≠ .positionalOnly ∧ s.name ≠ r))

/-- The slot of a receiver. -/
def receiverSlot (r : String) : Slot α := { name := r, passing := .positionalOrNamed }

theorem ordered_receiver {r : String} (hname : (receiverSlot r : Slot α).WellNamed)
    (h : Ordered slots) : Ordered (receiverSlot r :: slots) ↔ Admits r slots := by
  constructor
  · intro hordered s hs
    have hbefore := List.rel_of_pairwise_cons hordered.placed hs
    refine ⟨fun honly => ?_, hbefore.name.symm⟩
    have horder : Passing.positionalOrNamed.order ≤ s.passing.order := hbefore.order
    rw [honly] at horder
    exact absurd horder (by decide)
  · intro hadmits
    refine ⟨List.forall_mem_cons.mpr ⟨hname, h.named⟩, .cons (fun s hs => ?_) h.placed⟩
    obtain ⟨honly, hclash⟩ := hadmits s hs
    refine ⟨?_, fun _ hsome => (nomatch hsome), hclash.symm⟩
    show Passing.positionalOrNamed.order ≤ s.passing.order
    cases hpassing : s.passing with
    | positionalOnly => exact absurd hpassing honly
    | _ => decide

/-! ## Parameters -/

/-- Slots that differ in the texts of their types are in order together. -/
theorem ordered_retyped {texts : Slot α → Option String} :
    Ordered (slots.map fun s => { s with typeText := texts s }) ↔ Ordered slots := by
  constructor
  · rintro ⟨hnamed, hplaced⟩
    rw [List.forall_mem_map] at hnamed
    exact ⟨hnamed, (List.pairwise_map.mp hplaced).imp fun h => ⟨h.order, h.default, h.name⟩⟩
  · rintro ⟨hnamed, hplaced⟩
    refine ⟨?_, List.pairwise_map.mpr (hplaced.imp fun h => ⟨h.order, h.default, h.name⟩)⟩
    rw [List.forall_mem_map]
    exact hnamed

/-- A parameter as a definition can declare it: only positional parameters can be restricted to
    their position, and an optional one has a default. -/
structure Proper (p : Parameter α) : Prop where
  positional : p.positionalOnly = true → passingOf p.kind = .positionalOrNamed
  default : p.kind.isOptional = true → p.default.isSome = true

instance (p : Parameter α) : Decidable (Proper p) :=
  decidable_of_iff ((p.positionalOnly = true → passingOf p.kind = .positionalOrNamed) ∧
      (p.kind.isOptional = true → p.default.isSome = true))
    ⟨fun h => ⟨h.1, h.2⟩, fun h => ⟨h.positional, h.default⟩⟩

theorem passing_slotOf {p : Parameter α} (hp : Proper p) :
    (slotOf p).passing = passingOf p.kind ∨
      (slotOf p).passing = .positionalOnly ∧ passingOf p.kind = .positionalOrNamed := by
  cases honly : p.positionalOnly with
  | true => exact .inr ⟨by simp [slotOf, honly], hp.positional honly⟩
  | false => exact .inl (by simp [slotOf, honly])

theorem default_slotOf {p : Parameter α} (hp : Proper p) :
    (slotOf p).default.isSome = p.kind.isOptional := by
  show (if p.kind.isOptional then p.default else none).isSome = _
  cases hoptional : p.kind.isOptional with
  | true => rw [if_pos rfl, hp.default hoptional]
  | false => rfl

theorem isPositional_slotOf {p : Parameter α} (hp : Proper p) :
    (slotOf p).IsPositional ↔ passingOf p.kind = .positionalOrNamed := by
  rcases passing_slotOf hp with hpassing | ⟨hpassing, hkind⟩
  · rw [Slot.IsPositional, hpassing]
    exact ⟨fun h => h.elim (fun h => by cases hk : p.kind <;> rw [hk] at h <;> exact nomatch h) id,
      .inr⟩
  · exact ⟨fun _ => hkind, fun _ => .inl hpassing⟩

/-- The groups are those of the kinds of passing, and the positional ones are two. -/
theorem rank_eq (k : ParameterKind) : rank k =
    if passingOf k = .positionalOrNamed ∧ k.isOptional = false then 0
    else (passingOf k).order := by
  cases k <;> rfl

/-- What may stand before another parameter is not of a later group. -/
theorem rank_le_of_precedes {p q : Parameter α} (hp : Proper p) (hq : Proper q)
    (h : Precedes (slotOf p) (slotOf q)) : rank p.kind ≤ rank q.kind := by
  have hlowest (k : ParameterKind) : 1 ≤ (passingOf k).order := by cases k <;> decide
  have horder : (passingOf p.kind).order ≤ (passingOf q.kind).order := by
    have horder := h.order
    rcases passing_slotOf hp with hpp | ⟨-, hpo⟩
    · rw [hpp] at horder
      rcases passing_slotOf hq with hqq | ⟨hqq, hqo⟩
      · rwa [hqq] at horder
      · rw [hqq] at horder
        rw [hqo]
        exact Nat.le_succ_of_le horder
    · rw [hpo]
      exact hlowest q.kind
  rw [rank_eq, rank_eq q.kind]
  by_cases hrequired : passingOf q.kind = .positionalOrNamed ∧ q.kind.isOptional = false
  · -- what stands before a required positional parameter is one, too
    rw [hrequired.1] at horder
    have hpositional : passingOf p.kind = .positionalOrNamed := by
      cases hk : p.kind <;> rw [hk] at horder <;> first | rfl | exact absurd horder (by decide)
    have hrequired' : p.kind.isOptional = false := by
      by_contra hoptional
      have hsome := h.default ((isPositional_slotOf hp).mpr hpositional)
        ((default_slotOf hp).trans (Bool.not_eq_false _ ▸ hoptional))
        ((isPositional_slotOf hq).mpr hrequired.1)
      rw [default_slotOf hq, hrequired.2] at hsome
      exact nomatch hsome
    rw [if_pos ⟨hpositional, hrequired'⟩]
    exact Nat.zero_le _
  · rw [if_neg hrequired]
    split
    · exact Nat.zero_le _
    · exact horder

/-- Parameters in order are grouped already. -/
theorem reconstruct_declaration {ps : List (Parameter α)} {typeParameters : List String}
    {receiver : Option String} (hps : ∀ p ∈ ps, Proper p) (h : Ordered (ps.map slotOf)) :
    (reconstruct ps typeParameters receiver).declaration = ps := by
  refine List.mergeSort_of_pairwise ?_
  refine (List.pairwise_map.mp h.placed).imp_of_mem fun hp hq hpq => ?_
  exact decide_eq_true (rank_le_of_precedes (hps _ hp) (hps _ hq) hpq)

end Covenant.Signature
