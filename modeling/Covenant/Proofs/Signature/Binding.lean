import Covenant.Proofs.Signature.Order
import Mathlib.Data.List.Nodup

/-! # Binding — from arguments to a binding and back

    A call is bound to the slots of a signature.  With its defaults, what it
    is bound to has a value of the right form for every slot; forwarding makes
    arguments of these values again, and they are bound as before.

    * `Binds` says what is known of a binding while slots are bound one after the other, and
      `complete_of_bindArguments` that with defaults it is `Complete`.
    * `argumentsOf` and `keywordsOf` are the arguments of a complete binding.  Forwarding gives
      them (`forward_of_complete`), and they are bound to what they came from
      (`bindArguments_of_complete`, `applyDefaults_of_complete`). -/

namespace Covenant.Signature

open Declaration

variable {α : Type} {s t : Slot α} {slots : List (Slot α)} {b bound : Binding α}
  {args : List α} {kwargs left : List (String × α)}

/-! ## Values under names -/

section Names

variable {β : Type} {name : String} {ps qs : List (String × β)}

theorem lookup_eq_none_of_forall_ne (h : ∀ p ∈ ps, p.1 ≠ name) : ps.lookup name = none := by
  rw [List.lookup_eq_none_iff]
  intro p hp
  exact bne_iff_ne.mpr (h p hp).symm

theorem not_mem_keys_of_lookup (h : ps.lookup name = none) : name ∉ ps.map Prod.fst := by
  rw [List.lookup_eq_none_iff] at h
  rintro hmem
  obtain ⟨p, hp, rfl⟩ := List.mem_map.mp hmem
  exact absurd (h p hp) (by simp)

/-- What stands under a name that is given once is found. -/
theorem lookup_eq_some_of_mem (hkeys : (ps.map Prod.fst).Nodup) {p : String × β} (hp : p ∈ ps) :
    ps.lookup p.1 = some p.2 := by
  induction ps with
  | nil => exact nomatch hp
  | cons q ps ih =>
      rw [List.map_cons, List.nodup_cons] at hkeys
      rw [List.lookup_cons]
      rcases List.mem_cons.mp hp with rfl | hp
      · rw [beq_self_eq_true]
      · have hne : p.1 ≠ q.1 := fun heq => hkeys.1 (heq ▸ List.mem_map_of_mem hp)
        rw [beq_eq_false_iff_ne.mpr hne]
        exact ih hkeys.2 hp

theorem not_mem_keys_erase (hkeys : (ps.map Prod.fst).Nodup) (name : String) :
    name ∉ (Names.erase name ps).map Prod.fst := by
  induction ps with
  | nil => exact List.not_mem_nil
  | cons p ps ih =>
      rw [List.map_cons, List.nodup_cons] at hkeys
      rw [Names.erase, List.eraseP_cons]
      cases hp : p.1 == name with
      | true =>
          rw [cond_true]
          exact beq_iff_eq.mp hp ▸ hkeys.1
      | false =>
          rw [cond_false, List.map_cons, List.mem_cons, not_or]
          exact ⟨(beq_eq_false_iff_ne.mp hp).symm, ih hkeys.2⟩

/-- Names that are new are set behind the others. -/
theorem set_eq_append (h : name ∉ ps.map Prod.fst) (v : β) :
    Names.set ps name v = ps ++ [(name, v)] := by
  induction ps with
  | nil => rfl
  | cons p ps ih =>
      rw [List.map_cons, List.mem_cons, not_or] at h
      rw [Names.set, if_neg (Ne.symm h.1), ih h.2]
      rfl

theorem foldl_set_eq_append (h : ((ps ++ qs).map Prod.fst).Nodup) :
    qs.foldl (fun ks q => Names.set ks q.1 q.2) ps = ps ++ qs := by
  induction qs generalizing ps with
  | nil => rw [List.append_nil]; rfl
  | cons q qs ih =>
      have hq : q.1 ∉ ps.map Prod.fst := by
        rw [List.map_append, List.map_cons] at h
        exact fun hmem => List.disjoint_of_nodup_append h hmem List.mem_cons_self
      rw [List.foldl_cons, set_eq_append hq, ih]
      · rw [List.append_assoc]
        rfl
      · rwa [List.append_assoc]

end Names

/-! ## Bindings -/

/-- Whether an argument for the slot can be given by name. -/
abbrev Slot.IsNamable (s : Slot α) : Prop :=
  s.passing = .positionalOrNamed ∨ s.passing = .namedOnly

/-- Whether a slot can be bound to this. -/
def Slot.Fits (s : Slot α) : Bound α → Prop
  | .one _ => ¬ s.IsVariadic
  | .many _ => s.passing = .variadic
  | .named _ => s.passing = .variadicNamed

/-- Arguments left over by name: each once, and none that a slot takes. -/
structure LeftOver (slots : List (Slot α)) (vs : List (String × α)) : Prop where
  nodup : (vs.map Prod.fst).Nodup
  free : ∀ s ∈ slots, s.IsNamable → s.name ∉ vs.map Prod.fst

/-- A binding with a value for every slot, in the order of the slots. -/
structure Complete (slots : List (Slot α)) (bound : Binding α) : Prop where
  fits : List.Forall₂ (fun s e => e.1 = s.name ∧ s.Fits e.2) slots bound
  left : ∀ e ∈ bound, ∀ vs, e.2 = .named vs → LeftOver slots vs

/-- What a slot is bound to, if it is; a slot that is not bound can do without. -/
def Slot.Settled (s : Slot α) : Option (Bound α) → Prop
  | some v => s.Fits v
  | none => s.default.isSome = true ∨ s.IsVariadic

/-- A binding of slots to some of the arguments, where others may still be without a value. -/
structure Binds (slots : List (Slot α)) (b : Binding α) : Prop where
  settled : ∀ s ∈ slots, s.Settled (b.lookup s.name)
  names : ∀ e ∈ b, ∃ s ∈ slots, s.name = e.1
  left : ∀ e ∈ b, ∀ vs, e.2 = .named vs → LeftOver slots vs

/-- A slot in front of others that are bound, which is left without a value. -/
theorem Binds.skip (h : Binds slots b) (hs : ∀ t ∈ slots, s.name ≠ t.name)
    (hdefault : s.default.isSome = true ∨ s.IsVariadic)
    (hfree : ∀ e ∈ b, ∀ vs, e.2 = .named vs → s.IsNamable → s.name ∉ vs.map Prod.fst) :
    Binds (s :: slots) b where
  settled := by
    rw [List.forall_mem_cons]
    refine ⟨?_, h.settled⟩
    rw [lookup_eq_none_of_forall_ne fun e he => ?_]
    · exact hdefault
    · obtain ⟨t, ht, hname⟩ := h.names e he
      exact hname ▸ (hs t ht).symm
  names e he := by
    obtain ⟨t, ht, hname⟩ := h.names e he
    exact ⟨t, List.mem_cons_of_mem _ ht, hname⟩
  left e he vs hvs :=
    ⟨(h.left e he vs hvs).nodup, List.forall_mem_cons.mpr ⟨hfree e he vs hvs,
      (h.left e he vs hvs).free⟩⟩

/-- A slot in front of others that are bound, with its value. -/
theorem Binds.cons (h : Binds slots b) (hs : ∀ t ∈ slots, s.name ≠ t.name) {v : Bound α}
    (hfits : s.Fits v) (hv : ∀ vs, v ≠ .named vs)
    (hfree : ∀ e ∈ b, ∀ vs, e.2 = .named vs → s.IsNamable → s.name ∉ vs.map Prod.fst) :
    Binds (s :: slots) ((s.name, v) :: b) where
  settled := by
    rw [List.forall_mem_cons]
    refine ⟨?_, fun t ht => ?_⟩
    · rw [List.lookup_cons_self]
      exact hfits
    · rw [List.lookup_cons, beq_eq_false_iff_ne.mpr (hs t ht).symm]
      exact h.settled t ht
  names := by
    rw [List.forall_mem_cons]
    refine ⟨⟨s, List.mem_cons_self, rfl⟩, fun e he => ?_⟩
    obtain ⟨t, ht, hname⟩ := h.names e he
    exact ⟨t, List.mem_cons_of_mem _ ht, hname⟩
  left := by
    rw [List.forall_mem_cons]
    refine ⟨fun vs hvs => absurd hvs (hv vs), fun e he vs hvs => ?_⟩
    exact ⟨(h.left e he vs hvs).nodup, List.forall_mem_cons.mpr ⟨hfree e he vs hvs,
      (h.left e he vs hvs).free⟩⟩

/-! ## Binding by name -/

/-- What is known when slots have been bound by name: the arguments that are left over are some
    of those that were given, and those that slots take are not among them. -/
structure BindsNamed (slots : List (Slot α)) (kwargs : List (String × α)) (b : Binding α)
    (left : List (String × α)) (rest rest' : Option String) : Prop where
  binds : Binds slots b
  ones : ∀ e ∈ b, ∃ v, e.2 = .one v
  names : ∀ e ∈ b, ∀ s ∈ slots, s.IsVariadic → s.name ≠ e.1
  sublist : left.Sublist kwargs
  free : ∀ s ∈ slots, ¬ s.IsVariadic → s.name ∉ left.map Prod.fst
  rest : ∀ name, rest' = some name →
    rest = some name ∨ ∃ s ∈ slots, s.passing = .variadicNamed ∧ s.name = name

theorem BindsNamed.skip {rest rest' : Option String}
    (h : BindsNamed slots kwargs b left rest rest') (hs : ∀ t ∈ slots, s.name ≠ t.name)
    (hdefault : s.default.isSome = true ∨ s.IsVariadic)
    (hfree : ¬ s.IsVariadic → s.name ∉ kwargs.map Prod.fst) :
    BindsNamed (s :: slots) kwargs b left rest rest' where
  binds := h.binds.skip hs hdefault fun e he vs hvs => by
    obtain ⟨v, hv⟩ := h.ones e he
    rw [hvs] at hv
    exact nomatch hv
  ones := h.ones
  names e he := by
    refine List.forall_mem_cons.mpr ⟨fun _ => ?_, h.names e he⟩
    obtain ⟨t, ht, hname⟩ := h.binds.names e he
    exact hname ▸ hs t ht
  sublist := h.sublist
  free := List.forall_mem_cons.mpr
    ⟨fun hv hmem => hfree hv ((h.sublist.map _).subset hmem), h.free⟩
  rest name hname := (h.rest name hname).imp_right fun ⟨t, ht, heq⟩ =>
    ⟨t, List.mem_cons_of_mem _ ht, heq⟩

theorem BindsNamed.take {rest rest' : Option String} {v : α}
    (h : BindsNamed slots (Names.erase s.name kwargs) b left rest rest')
    (hs : ∀ t ∈ slots, s.name ≠ t.name) (hvariadic : ¬ s.IsVariadic)
    (hkeys : (kwargs.map Prod.fst).Nodup) :
    BindsNamed (s :: slots) kwargs ((s.name, .one v) :: b) left rest rest' where
  binds := h.binds.cons hs hvariadic nofun fun e he vs hvs => by
    obtain ⟨v, hv⟩ := h.ones e he
    rw [hvs] at hv
    exact nomatch hv
  ones := List.forall_mem_cons.mpr ⟨⟨v, rfl⟩, h.ones⟩
  names := by
    rw [List.forall_mem_cons]
    refine ⟨List.forall_mem_cons.mpr ⟨fun hv => absurd hv hvariadic, fun t ht _ => ?_⟩,
      fun e he => List.forall_mem_cons.mpr ⟨fun hv => absurd hv hvariadic, h.names e he⟩⟩
    exact (hs t ht).symm
  sublist := h.sublist.trans List.eraseP_sublist
  free := List.forall_mem_cons.mpr
    ⟨fun _ hmem => not_mem_keys_erase hkeys s.name ((h.sublist.map _).subset hmem), h.free⟩
  rest name hname := (h.rest name hname).imp_right fun ⟨t, ht, heq⟩ =>
    ⟨t, List.mem_cons_of_mem _ ht, heq⟩

/-- **BINDING BY NAME** binds every slot that is not variadic, or leaves it to its default. -/
theorem bindsNamed_of_bindNamed {rest rest' : Option String} (hslots : Ordered slots)
    (hkeys : (kwargs.map Prod.fst).Nodup)
    (h : bindNamed slots kwargs rest = .ok (b, left, rest')) :
    BindsNamed slots kwargs b left rest rest' := by
  induction slots generalizing kwargs rest b left rest' with
  | nil =>
      cases h
      exact ⟨⟨nofun, nofun, nofun⟩, nofun, nofun, .refl _, nofun, fun _ h => .inl h⟩
  | cons s slots ih =>
      obtain ⟨hbefore, -⟩ := List.pairwise_cons.mp hslots.placed
      have hs : ∀ t ∈ slots, s.name ≠ t.name := fun t ht => (hbefore t ht).name
      have htail : Ordered slots := hslots.sublist (List.sublist_cons_self s slots)
      rw [bindNamed] at h
      split at h
      · rename_i hpassing
        have hrest := ih htail hkeys h
        refine { hrest.skip hs (.inr (.inr hpassing)) (fun hv => absurd (.inr hpassing) hv) with
          rest := fun name hname => .inr ?_ }
        rcases hrest.rest name hname with heq | ⟨t, ht, heq⟩
        · exact ⟨s, List.mem_cons_self, hpassing, Option.some.inj heq⟩
        · exact ⟨t, List.mem_cons_of_mem _ ht, heq⟩
      · rename_i hpassing
        exact (ih htail hkeys h).skip hs (.inr (.inl hpassing))
          fun hv => absurd (.inl hpassing) hv
      · rename_i passing hnamed hpositional
        have hvariadic : ¬ s.IsVariadic := fun hv => hv.elim hpositional hnamed
        split at h
        · split_ifs at h
          obtain ⟨⟨b', left', rest''⟩, htaken, h⟩ := bind_eq_ok.mp h
          cases h
          refine (ih htail ?_ htaken).take hs hvariadic hkeys
          exact hkeys.sublist (List.eraseP_sublist.map _)
        · rename_i hlookup
          split_ifs at h with hdefault
          exact (ih htail hkeys h).skip hs (.inl hdefault)
            fun _ => not_mem_keys_of_lookup hlookup

/-! ## Binding by position -/

theorem Ordered.name_injective (h : Ordered slots) (hs : s ∈ slots) (ht : t ∈ slots)
    (hname : s.name = t.name) : s = t := by
  have hnames : (slots.map Slot.name).Nodup :=
    List.pairwise_map.mpr (h.placed.imp fun h => h.name)
  exact List.inj_on_of_nodup_map hnames hs ht hname

/-- What is left over goes to the slot that takes it, and is bound as it was given. -/
theorem binds_of_finishBinding (hslots : Ordered slots) (hkeys : (kwargs.map Prod.fst).Nodup)
    (h : finishBinding slots kwargs = .ok b) :
    Binds slots b ∧ ∀ e ∈ b, ∀ vs, e.2 = .named vs → vs.Sublist kwargs := by
  obtain ⟨⟨b₀, left, rest⟩, hnamed, h⟩ := bind_eq_ok.mp h
  have hbinds := bindsNamed_of_bindNamed hslots hkeys hnamed
  have hnone : ∀ e ∈ b₀, ∀ vs, e.2 ≠ .named vs := fun e he vs hvs => by
    obtain ⟨v, hv⟩ := hbinds.ones e he
    rw [hvs] at hv
    exact nomatch hv
  simp only at h
  split at h
  · cases h
    exact ⟨hbinds.binds, fun e he vs hvs => absurd hvs (hnone e he vs)⟩
  · rename_i name _
    cases h
    obtain ⟨r, hr, hpassing, rfl⟩ := (hbinds.rest name rfl).resolve_left nofun
    have hleft : LeftOver slots left := by
      refine ⟨hkeys.sublist (hbinds.sublist.map _), fun s hs hnamable => hbinds.free s hs ?_⟩
      rintro (hv | hv) <;> rcases hnamable with hn | hn <;> exact nomatch hv.symm.trans hn
    refine ⟨⟨fun s hs => ?_, ?_, ?_⟩, ?_⟩
    · rw [List.lookup_append]
      by_cases hname : s.name = r.name
      · obtain rfl := hslots.name_injective hs hr hname
        rw [lookup_eq_none_of_forall_ne fun e he =>
          (hbinds.names e he s hs (.inr hpassing)).symm, List.lookup_cons_self]
        exact hpassing
      · rw [List.lookup_cons, beq_eq_false_iff_ne.mpr hname, List.lookup_nil, Option.or_none]
        exact hbinds.binds.settled s hs
    · rw [List.forall_mem_append, List.forall_mem_singleton]
      exact ⟨hbinds.binds.names, r, hr, rfl⟩
    · rw [List.forall_mem_append, List.forall_mem_singleton]
      exact ⟨hbinds.binds.left, fun vs hvs => Bound.named.inj hvs ▸ hleft⟩
    · rw [List.forall_mem_append, List.forall_mem_singleton]
      exact ⟨fun e he vs hvs => absurd hvs (hnone e he vs),
        fun vs hvs => Bound.named.inj hvs ▸ hbinds.sublist⟩
  · cases h

/-- **BINDING** gives every slot a value that fits, or leaves it to its default. -/
theorem binds_of_bindArguments (hslots : Ordered slots) (hkeys : (kwargs.map Prod.fst).Nodup)
    (h : bindArguments slots args kwargs = .ok b) :
    Binds slots b ∧ ∀ e ∈ b, ∀ vs, e.2 = .named vs → vs.Sublist kwargs := by
  induction slots generalizing args b with
  | nil =>
      cases args with
      | nil => exact binds_of_finishBinding hslots hkeys h
      | cons a args => cases h
  | cons s slots ih =>
      obtain ⟨hbefore, -⟩ := List.pairwise_cons.mp hslots.placed
      have hs : ∀ t ∈ slots, s.name ≠ t.name := fun t ht => (hbefore t ht).name
      have htail : Ordered slots := hslots.sublist (List.sublist_cons_self s slots)
      cases args with
      | nil =>
          rw [bindArguments] at h
          split_ifs at h with hpassing
          · obtain ⟨hbinds, hsub⟩ := binds_of_finishBinding htail hkeys h
            refine ⟨hbinds.skip hs (.inr (.inl hpassing)) fun e he vs hvs hn => ?_, hsub⟩
            exact absurd hn (by rw [Slot.IsNamable, hpassing]; nofun)
          · exact binds_of_finishBinding hslots hkeys h
          · exact binds_of_finishBinding hslots hkeys h
      | cons a args =>
          rw [bindArguments] at h
          split at h
          · cases h
          · cases h
          · rename_i hpassing
            obtain ⟨b', hfinish, h⟩ := bind_eq_ok.mp h
            cases h
            obtain ⟨hbinds, hsub⟩ := binds_of_finishBinding htail hkeys hfinish
            refine ⟨hbinds.cons hs hpassing nofun fun e he vs hvs hn => ?_,
              List.forall_mem_cons.mpr ⟨nofun, hsub⟩⟩
            exact absurd hn (by rw [Slot.IsNamable, hpassing]; nofun)
          · rename_i hrest hnamed hvariadic
            split_ifs at h with hmultiple
            obtain ⟨b', hmore, h⟩ := bind_eq_ok.mp h
            cases h
            obtain ⟨hbinds, hsub⟩ := ih htail hmore
            refine ⟨hbinds.cons hs (fun hv => hv.elim hvariadic hrest) nofun
              fun e he vs hvs hn hmem => ?_, List.forall_mem_cons.mpr ⟨nofun, hsub⟩⟩
            -- an argument of this name was not given a second time
            have honly : s.passing ≠ .positionalOnly := fun honly => by
              rw [Slot.IsNamable, honly] at hn
              exact hn.elim nofun nofun
            have hlookup := not_and.mp hmultiple honly
            rw [Bool.not_eq_true, Option.isSome_eq_false_iff, Option.isNone_iff_eq_none] at hlookup
            exact not_mem_keys_of_lookup hlookup (((hsub e he vs hvs).map _).subset hmem)

/-! ## Defaults -/

/-- The value of a slot once defaults are given. -/
def Slot.valueIn (b : Binding α) (s : Slot α) : Option (String × Bound α) :=
  match b.lookup s.name with
  | some v => some (s.name, v)
  | none =>
    match s.default, s.passing with
    | some d, _ => some (s.name, .one d)
    | none, .variadic => some (s.name, .many [])
    | none, .variadicNamed => some (s.name, .named [])
    | none, _ => none

theorem applyDefaults_eq (slots : List (Slot α)) (b : Binding α) :
    applyDefaults slots b = slots.filterMap (Slot.valueIn b) := rfl

/-- A slot that can do without a value gets one that fits. -/
theorem exists_valueIn (hbare : s.IsVariadic → s.default.isSome = false)
    (hsettled : s.Settled (b.lookup s.name)) :
    ∃ e, s.valueIn b = some e ∧ (e.1 = s.name ∧ s.Fits e.2) ∧
      ∀ vs, e.2 = .named vs → vs = [] ∨ (s.name, .named vs) ∈ b := by
  rw [Slot.valueIn]
  cases hlookup : b.lookup s.name with
  | some v =>
      rw [hlookup] at hsettled
      refine ⟨_, rfl, ⟨rfl, hsettled⟩, ?_⟩
      rintro vs rfl
      obtain ⟨l₁, l₂, rfl, -⟩ := List.lookup_eq_some_iff.mp hlookup
      exact .inr (List.mem_append_right _ List.mem_cons_self)
  | none =>
      rw [hlookup] at hsettled
      cases hdefault : s.default with
      | some d =>
          refine ⟨_, rfl, ⟨rfl, fun hv => ?_⟩, nofun⟩
          have hnone := hbare hv
          rw [hdefault] at hnone
          exact nomatch hnone
      | none =>
          rw [Slot.Settled, hdefault] at hsettled
          rcases hsettled.resolve_left nofun with hpassing | hpassing
          · rw [hpassing]
            exact ⟨_, rfl, ⟨rfl, hpassing⟩, nofun⟩
          · rw [hpassing]
            exact ⟨_, rfl, ⟨rfl, hpassing⟩, fun vs hvs => .inl (Bound.named.inj hvs).symm⟩

/-- With defaults, every slot has a value. -/
theorem complete_of_binds (hslots : Definable slots) (h : Binds slots b) :
    Complete slots (applyDefaults slots b) := by
  rw [applyDefaults_eq]
  have hall (ss : List (Slot α)) (hss : ∀ s ∈ ss, s ∈ slots) :
      List.Forall₂ (fun s e => e.1 = s.name ∧ s.Fits e.2) ss (ss.filterMap (Slot.valueIn b)) ∧
        ∀ e ∈ ss.filterMap (Slot.valueIn b), ∀ vs, e.2 = .named vs → LeftOver slots vs := by
    induction ss with
    | nil => exact ⟨.nil, nofun⟩
    | cons s ss ih =>
        rw [List.forall_mem_cons] at hss
        obtain ⟨e, he, hfits, hnamed⟩ :=
          exists_valueIn (hslots.bare s hss.1) (h.settled s hss.1)
        obtain ⟨hfitsAll, hleft⟩ := ih hss.2
        rw [List.filterMap_cons_some he]
        refine ⟨.cons hfits hfitsAll, List.forall_mem_cons.mpr ⟨fun vs hvs => ?_, hleft⟩⟩
        rcases hnamed vs hvs with rfl | hmem
        · exact ⟨List.nodup_nil, fun _ _ _ => List.not_mem_nil⟩
        · exact h.left _ hmem vs rfl
  exact ⟨(hall slots fun _ hs => hs).1, (hall slots fun _ hs => hs).2⟩

/-- **A CALL THAT IS ACCEPTED** is, with defaults, a complete binding. -/
theorem complete_of_bindArguments (hslots : Definable slots)
    (hkeys : (kwargs.map Prod.fst).Nodup) (h : bindArguments slots args kwargs = .ok b) :
    Complete slots (applyDefaults slots b) :=
  complete_of_binds hslots (binds_of_bindArguments hslots.toOrdered hkeys h).1

/-! ## Arguments of a binding -/

/-- The positional arguments that a slot's value stands for. -/
def Slot.arguments (s : Slot α) : Bound α → List α
  | .one v => if s.passing = .namedOnly then [] else [v]
  | .many vs => vs
  | .named _ => []

/-- The named arguments that a slot's value stands for. -/
def Slot.keywords (s : Slot α) : Bound α → List (String × α)
  | .one v => if s.passing = .namedOnly then [(s.name, v)] else []
  | .many _ => []
  | .named vs => vs

/-- The positional arguments that a binding stands for. -/
def argumentsOf : List (Slot α) → Binding α → List α
  | s :: slots, e :: bound => s.arguments e.2 ++ argumentsOf slots bound
  | _, _ => []

/-- The named arguments that a binding stands for. -/
def keywordsOf : List (Slot α) → Binding α → List (String × α)
  | s :: slots, e :: bound => s.keywords e.2 ++ keywordsOf slots bound
  | _, _ => []

/-- Whether a value is what an empty slot is bound to. -/
def Bound.isEmpty : Bound α → Bool
  | .many [] | .named [] => true
  | _ => false

theorem Complete.tail {e : String × Bound α} (h : Complete (s :: slots) (e :: bound)) :
    Complete slots bound where
  fits := (List.forall₂_cons.mp h.fits).2
  left e' he' vs hvs := by
    have hleft := h.left e' (List.mem_cons_of_mem _ he') vs hvs
    exact ⟨hleft.nodup, (List.forall_mem_cons.mp hleft.free).2⟩

/-- The names of a complete binding are those of the slots. -/
theorem Complete.nodup (h : Complete slots bound) (hslots : Ordered slots) :
    (bound.map Prod.fst).Nodup := by
  have hnames : slots.map Slot.name = bound.map Prod.fst :=
    map_eq_map_of_forall₂ h.fits fun _ _ h => h.1.symm
  rw [← hnames]
  exact List.pairwise_map.mpr (hslots.placed.imp fun h => h.name)

/-- Nothing stands behind the slot that takes what is left over by name. -/
theorem eq_nil_of_variadicNamed (hslots : Definable (s :: slots))
    (hs : s.passing = .variadicNamed) : slots = [] := by
  rw [List.eq_nil_iff_forall_not_mem]
  intro t ht
  have horder := (List.rel_of_pairwise_cons hslots.placed ht).order
  have hother := List.rel_of_pairwise_cons hslots.single ht (.inr hs)
  rw [hs] at horder hother
  cases hpassing : t.passing with
  | variadicNamed => exact hother hpassing
  | positionalOnly | positionalOrNamed | variadic | namedOnly =>
      rw [hpassing] at horder
      exact absurd horder (by decide)

/-- A named argument of a complete binding has the name of a slot that is only named, or is left
    over. -/
theorem of_mem_keywordsOf {k : String}
    (hfits : List.Forall₂ (fun s e => e.1 = s.name ∧ s.Fits e.2) slots bound)
    (hk : k ∈ (keywordsOf slots bound).map Prod.fst) :
    (∃ s ∈ slots, s.passing = .namedOnly ∧ s.name = k) ∨
      ∃ e ∈ bound, ∃ vs, e.2 = .named vs ∧ k ∈ vs.map Prod.fst := by
  induction hfits with
  | nil => exact nomatch hk
  | @cons s e slots bound _ _ ih =>
      rw [keywordsOf, List.map_append, List.mem_append] at hk
      rcases hk with hk | hk
      · cases hv : e.2 with
        | one v =>
            rw [hv, Slot.keywords] at hk
            split_ifs at hk with hpassing
            · exact .inl ⟨s, List.mem_cons_self, hpassing, (List.mem_singleton.mp hk).symm⟩
            · exact nomatch hk
        | many vs =>
            rw [hv] at hk
            exact nomatch hk
        | named vs =>
            rw [hv] at hk
            exact .inr ⟨e, List.mem_cons_self, vs, hv, hk⟩
      · rcases ih hk with ⟨t, ht, hpassing, hname⟩ | ⟨e', he', vs, hvs, hmem⟩
        · exact .inl ⟨t, List.mem_cons_of_mem _ ht, hpassing, hname⟩
        · exact .inr ⟨e', List.mem_cons_of_mem _ he', vs, hvs, hmem⟩

/-- A slot that can be named is not among the named arguments of the slots behind it. -/
theorem Complete.not_mem_keywordsOf {e : String × Bound α}
    (h : Complete (s :: slots) (e :: bound)) (hslots : Ordered (s :: slots))
    (hs : s.IsNamable) : s.name ∉ (keywordsOf slots bound).map Prod.fst := by
  intro hmem
  rcases of_mem_keywordsOf h.tail.fits hmem with ⟨t, ht, -, hname⟩ | ⟨e', he', vs, hvs, hmem⟩
  · exact (List.rel_of_pairwise_cons hslots.placed ht).name hname.symm
  · exact (h.left e' (List.mem_cons_of_mem _ he') vs hvs).free s List.mem_cons_self hs hmem

/-- The named arguments of a complete binding are given once. -/
theorem Complete.nodup_keywordsOf (h : Complete slots bound) (hslots : Definable slots) :
    ((keywordsOf slots bound).map Prod.fst).Nodup := by
  obtain ⟨hfits, hleft⟩ := h
  induction hfits with
  | nil => exact List.nodup_nil
  | @cons s e slots bound he hfits ih =>
      have h : Complete (s :: slots) (e :: bound) := ⟨.cons he hfits, hleft⟩
      have htail := ih (hslots.sublist (List.sublist_cons_self s slots)) h.tail.left
      rw [keywordsOf]
      cases hv : e.2 with
      | one v =>
          rw [Slot.keywords]
          split_ifs with hpassing
          · rw [List.singleton_append, List.map_cons, List.nodup_cons]
            exact ⟨h.not_mem_keywordsOf hslots.toOrdered (.inr hpassing), htail⟩
          · exact htail
      | many vs => exact htail
      | named vs =>
          have hs : s.passing = .variadicNamed := by
            have hfit := he.2
            rwa [hv] at hfit
          obtain rfl := eq_nil_of_variadicNamed hslots hs
          rw [show keywordsOf [] bound = [] from rfl, List.append_nil]
          exact (hleft e List.mem_cons_self vs hv).nodup

/-! ## Forwarding -/

theorem passing_slotOf_eq_namedOnly {p : Parameter α} (hp : Proper p) :
    (slotOf p).passing = .namedOnly ↔ p.kind.isNamed = true := by
  rcases passing_slotOf hp with hpassing | ⟨hpassing, hkind⟩
  · rw [hpassing]
    cases p.kind <;> decide
  · rw [hpassing]
    cases hk : p.kind <;> rw [hk] at hkind <;> first | decide | exact nomatch hkind

/-- One more parameter is forwarded. -/
def forwardStep (bound : Binding α) (acc : List α × List (String × α)) (p : Parameter α) :
    List α × List (String × α) :=
  match bound.lookup p.name with
  | none => acc
  | some (.many vs) => (acc.1 ++ vs, acc.2)
  | some (.named vs) => (acc.1, vs.foldl (fun ks q => Names.set ks q.1 q.2) acc.2)
  | some (.one v) =>
    if p.kind.isNamed then (acc.1, Names.set acc.2 p.name v) else (acc.1 ++ [v], acc.2)

theorem forwardStep_eq {p : Parameter α} (hp : Proper p) {v : Bound α}
    (hlookup : bound.lookup p.name = some v) {xs : List α} {ks : List (String × α)}
    (hkeys : ((ks ++ (slotOf p).keywords v).map Prod.fst).Nodup) :
    forwardStep bound (xs, ks) p
      = (xs ++ (slotOf p).arguments v, ks ++ (slotOf p).keywords v) := by
  rw [forwardStep, hlookup]
  cases v with
  | many vs => exact congrArg (Prod.mk _) (List.append_nil ks).symm
  | named vs => exact Prod.ext (List.append_nil xs).symm (foldl_set_eq_append hkeys)
  | one v =>
      simp only
      rw [Slot.arguments, Slot.keywords] at *
      by_cases hnamed : p.kind.isNamed = true
      · have hpassing := (passing_slotOf_eq_namedOnly hp).mpr hnamed
        rw [if_pos hpassing] at hkeys
        rw [if_pos hnamed, if_pos hpassing, if_pos hpassing, List.append_nil]
        refine congrArg (Prod.mk _) (set_eq_append (fun hmem => ?_) v)
        rw [List.map_append] at hkeys
        exact List.disjoint_of_nodup_append hkeys hmem List.mem_cons_self
      · have hpassing := mt (passing_slotOf_eq_namedOnly hp).mp hnamed
        rw [if_neg hnamed, if_neg hpassing, if_neg hpassing, List.append_nil]

/-- **FORWARDING A COMPLETE BINDING** gives the arguments that it stands for. -/
theorem forward_of_complete {ps : List (Parameter α)} (hps : ∀ p ∈ ps, Proper p)
    (hslots : Definable (ps.map slotOf)) (h : Complete (ps.map slotOf) bound) :
    forward ps bound = (argumentsOf (ps.map slotOf) bound, keywordsOf (ps.map slotOf) bound) := by
  have hall (qs : List (Parameter α)) (es : Binding α) (hqs : ∀ p ∈ qs, Proper p)
      (hfits : List.Forall₂ (fun s e => e.1 = s.name ∧ s.Fits e.2) (qs.map slotOf) es)
      (hes : ∀ e ∈ es, bound.lookup e.1 = some e.2) (xs : List α) (ks : List (String × α))
      (hkeys : ((ks ++ keywordsOf (qs.map slotOf) es).map Prod.fst).Nodup) :
      qs.foldl (forwardStep bound) (xs, ks) = (xs ++ argumentsOf (qs.map slotOf) es,
        ks ++ keywordsOf (qs.map slotOf) es) := by
    induction qs generalizing es xs ks with
    | nil => exact Prod.ext (List.append_nil xs).symm (List.append_nil ks).symm
    | cons p qs ih =>
        obtain ⟨e, es, ⟨hname, -⟩, hrest, rfl⟩ := List.forall₂_cons_left_iff.mp hfits
        have hname : e.1 = p.name := hname
        rw [List.forall_mem_cons] at hqs hes
        rw [List.map_cons, keywordsOf, ← List.append_assoc] at hkeys
        have hhere : ((ks ++ (slotOf p).keywords e.2).map Prod.fst).Nodup := by
          rw [List.map_append] at hkeys
          exact hkeys.of_append_left
        rw [List.foldl_cons, forwardStep_eq hqs.1 (hname ▸ hes.1) hhere,
          ih es hqs.2 hrest hes.2 _ _ hkeys, List.map_cons, argumentsOf, keywordsOf,
          List.append_assoc, List.append_assoc]
  refine (hall ps bound hps h.fits (fun e he => ?_) [] [] ?_).trans ?_
  · exact lookup_eq_some_of_mem (h.nodup hslots.toOrdered) he
  · exact h.nodup_keywordsOf hslots
  · rfl

/-! ## Binding again -/

/-- The values of a binding that are not those of empty slots. -/
def given (bound : Binding α) : Binding α := bound.filter fun e => !e.2.isEmpty

/-- The end of a binding: what is left over goes to the slot that takes it. -/
def finish : Binding α × List (String × α) × Option String → Except BindFault (Binding α)
  | (b, [], _) => .ok b
  | (b, left, some name) => .ok (b ++ [(name, .named left)])
  | (_, (name, _) :: _, none) => .error (.unexpected name)

theorem finishBinding_eq (slots : List (Slot α)) (kwargs : List (String × α)) :
    finishBinding slots kwargs = bindNamed slots kwargs none >>= finish := by
  rw [finishBinding]
  congr
  funext ⟨b, left, rest⟩
  cases left with
  | nil => rfl
  | cons p left => cases rest <;> rfl

theorem finish_cons (p : String × Bound α)
    (r : Binding α × List (String × α) × Option String) {b : Binding α} (h : finish r = .ok b) :
    finish (p :: r.1, r.2) = .ok (p :: b) := by
  obtain ⟨b₀, left, rest⟩ := r
  cases left with
  | nil =>
      cases h
      rfl
  | cons q left =>
      cases rest with
      | none => cases h
      | some name =>
          cases h
          rfl

theorem given_cons {e : String × Bound α} (bound : Binding α) (h : e.2.isEmpty = false) :
    given (e :: bound) = e :: given bound := by
  rw [given, List.filter_cons_of_pos (by rw [h]; rfl)]
  rfl

/-- Slots that take no positional argument get back what they gave. -/
theorem finishBinding_keywordsOf (hslots : Definable slots) (h : Complete slots bound)
    (hnamed : ∀ s ∈ slots, s.passing = .namedOnly ∨ s.passing = .variadicNamed) :
    finishBinding slots (keywordsOf slots bound) = .ok (given bound) := by
  obtain ⟨hfits, -⟩ := h
  have hall : ∃ r, bindNamed slots (keywordsOf slots bound) none = .ok r ∧
      finish r = .ok (given bound) := by
    induction hfits with
    | nil => exact ⟨_, rfl, rfl⟩
    | @cons s e slots bound he hfits ih =>
        obtain ⟨name, v⟩ := e
        obtain ⟨rfl, hfit⟩ : name = s.name ∧ s.Fits v := he
        rw [List.forall_mem_cons] at hnamed
        rcases hnamed.1 with hpassing | hpassing
        · obtain ⟨r, hr, hfinish⟩ :=
            ih (hslots.sublist (List.sublist_cons_self s slots)) hnamed.2
          cases v with
          | many | named => exact nomatch hpassing.symm.trans hfit
          | one v =>
              refine ⟨((s.name, .one v) :: r.1, r.2), ?_, finish_cons _ r hfinish⟩
              rw [bindNamed, hpassing, keywordsOf, Slot.keywords, if_pos hpassing]
              simp only [List.singleton_append, List.lookup_cons_self, reduceCtorEq, if_false]
              rw [show Names.erase s.name ((s.name, v) :: keywordsOf slots bound)
                  = keywordsOf slots bound from List.eraseP_cons_of_pos (by simp), hr]
              rfl
        · obtain rfl := eq_nil_of_variadicNamed hslots hpassing
          obtain rfl := List.forall₂_nil_left_iff.mp hfits
          cases v with
          | one | many => exact absurd hfit (by simp [Slot.Fits, hpassing])
          | named vs =>
              refine ⟨([], vs, some s.name), ?_, ?_⟩
              · rw [bindNamed, hpassing]
                show bindNamed [] (vs ++ []) (some s.name) = _
                rw [List.append_nil]
                rfl
              · cases vs with
                | nil => rfl
                | cons q vs => rfl
  obtain ⟨r, hr, hfinish⟩ := hall
  rw [finishBinding_eq, hr]
  exact hfinish

/-- What stands behind a slot that takes no single argument by position is only named. -/
theorem named_behind (hslots : Definable (s :: slots)) (hs : ¬ s.IsPositional) :
    ∀ t ∈ slots, t.passing = .namedOnly ∨ t.passing = .variadicNamed := by
  intro t ht
  have horder := (List.rel_of_pairwise_cons hslots.placed ht).order
  have hfirst : Passing.variadic.order ≤ s.passing.order := by
    cases hsp : s.passing with
    | positionalOnly => exact absurd (.inl hsp) hs
    | positionalOrNamed => exact absurd (.inr hsp) hs
    | variadic | namedOnly | variadicNamed => decide
  have hlater := Nat.le_trans hfirst horder
  cases htp : t.passing with
  | namedOnly => exact .inl rfl
  | variadicNamed => exact .inr rfl
  | positionalOnly | positionalOrNamed =>
      rw [htp] at hlater
      exact absurd hlater (by decide)
  | variadic =>
      rw [htp] at horder
      cases hsp : s.passing with
      | positionalOnly => exact absurd (.inl hsp) hs
      | positionalOrNamed => exact absurd (.inr hsp) hs
      | variadic =>
          exact absurd (htp.trans hsp.symm) (List.rel_of_pairwise_cons hslots.single ht (.inl hsp))
      | namedOnly | variadicNamed =>
          rw [hsp] at horder
          exact absurd horder (by decide)

theorem argumentsOf_eq_nil
    (hfits : List.Forall₂ (fun s e => e.1 = s.name ∧ s.Fits e.2) slots bound)
    (hnamed : ∀ s ∈ slots, s.passing = .namedOnly ∨ s.passing = .variadicNamed) :
    argumentsOf slots bound = [] := by
  induction hfits with
  | nil => rfl
  | @cons s e slots bound he _ ih =>
      rw [List.forall_mem_cons] at hnamed
      rw [argumentsOf, ih hnamed.2, List.append_nil]
      have hfit := he.2
      cases hv : e.2 with
      | named vs => rfl
      | one v =>
          rw [hv] at hfit
          exact if_pos (hnamed.1.resolve_right fun h => hfit (.inr h))
      | many vs =>
          rw [hv] at hfit
          rcases hnamed.1 with h | h <;> exact nomatch h.symm.trans hfit

/-- **BINDING THE ARGUMENTS OF A COMPLETE BINDING** gives the binding back, but for slots that
    are empty. -/
theorem bindArguments_of_complete (hslots : Definable slots) (h : Complete slots bound) :
    bindArguments slots (argumentsOf slots bound) (keywordsOf slots bound)
      = .ok (given bound) := by
  obtain ⟨hfits, hleft⟩ := h
  induction hfits with
  | nil => rfl
  | @cons s e slots bound he hfits ih =>
      have h : Complete (s :: slots) (e :: bound) := ⟨.cons he hfits, hleft⟩
      have htail := hslots.sublist (List.sublist_cons_self s slots)
      obtain ⟨name, v⟩ := e
      obtain ⟨rfl, hfit⟩ : name = s.name ∧ s.Fits v := he
      by_cases hpositional : s.IsPositional
      · cases v with
        | many | named => rcases hpositional with hp | hp <;> exact nomatch hp.symm.trans hfit
        | one a =>
            have hnot : s.passing ≠ .namedOnly := by
              rcases hpositional with hp | hp <;> rw [hp] <;> decide
            have hlookup : ¬ (s.passing ≠ .positionalOnly ∧
                ((keywordsOf slots bound).lookup s.name).isSome = true) := by
              rintro ⟨honly, hsome⟩
              have hmem := h.not_mem_keywordsOf hslots.toOrdered
                (.inl (hpositional.resolve_left honly))
              rw [lookup_eq_none_of_forall_ne fun p hp heq =>
                hmem (List.mem_map.mpr ⟨p, hp, heq⟩)] at hsome
              exact nomatch hsome
            have hmore := ih htail h.tail.left
            rw [argumentsOf, keywordsOf, Slot.arguments, Slot.keywords, if_neg hnot, if_neg hnot,
              given_cons bound rfl]
            show bindArguments (s :: slots) (a :: argumentsOf slots bound) (keywordsOf slots bound)
              = _
            rw [bindArguments]
            rcases hpositional with hp | hp
            · simp only [hp] at hlookup ⊢
              rw [if_neg hlookup, hmore]
              rfl
            · simp only [hp] at hlookup ⊢
              rw [if_neg hlookup, hmore]
              rfl
      · have hbehind := named_behind hslots hpositional
        have hargs : argumentsOf slots bound = [] := argumentsOf_eq_nil hfits hbehind
        have hmore := finishBinding_keywordsOf htail h.tail hbehind
        by_cases hvariadic : s.passing = .variadic
        · cases v with
          | one | named => exact absurd hfit (by simp [Slot.Fits, hvariadic])
          | many vs =>
              rw [argumentsOf, keywordsOf, Slot.arguments, Slot.keywords, hargs, List.append_nil,
                List.nil_append]
              cases vs with
              | nil =>
                  rw [bindArguments, if_pos hvariadic, hmore]
                  rfl
              | cons a vs =>
                  rw [bindArguments, given_cons bound rfl]
                  simp only [hvariadic]
                  rw [hmore]
                  rfl
        · have hnamed : s.passing = .namedOnly ∨ s.passing = .variadicNamed := by
            cases hsp : s.passing with
            | namedOnly => exact .inl rfl
            | variadicNamed => exact .inr rfl
            | variadic => exact absurd hsp hvariadic
            | positionalOnly => exact absurd (.inl hsp) hpositional
            | positionalOrNamed => exact absurd (.inr hsp) hpositional
          have hall : ∀ t ∈ s :: slots, t.passing = .namedOnly ∨ t.passing = .variadicNamed :=
            List.forall_mem_cons.mpr ⟨hnamed, hbehind⟩
          have hfinish := finishBinding_keywordsOf hslots h hall
          rw [argumentsOf_eq_nil h.fits hall, bindArguments, if_neg hvariadic]
          by_cases hlookup : ((keywordsOf (s :: slots) ((s.name, v) :: bound)).lookup
              s.name).isSome = true
          · rw [if_pos hlookup, if_neg fun honly => hpositional (.inl honly)]
            exact hfinish
          · have hrest : s.passing = .variadicNamed := by
              refine hnamed.resolve_left fun honly => hlookup ?_
              cases v with
              | many | named => exact nomatch honly.symm.trans hfit
              | one v =>
                  rw [keywordsOf, Slot.keywords, if_pos honly, List.singleton_append,
                    List.lookup_cons_self]
                  rfl
            rw [if_neg hlookup, if_pos (.inl hrest)]
            exact hfinish

/-- A slot gets its value back from what was not empty. -/
theorem valueIn_given (hslots : Definable slots) (h : Complete slots bound) (hs : s ∈ slots)
    {e : String × Bound α} (he : e ∈ bound) (hname : e.1 = s.name) (hfit : s.Fits e.2) :
    s.valueIn (given bound) = some e := by
  have hkeys := h.nodup hslots.toOrdered
  obtain ⟨name, v⟩ := e
  obtain rfl : name = s.name := hname
  rw [Slot.valueIn]
  by_cases hempty : v.isEmpty = true
  · have hnone : (given bound).lookup s.name = none := by
      refine lookup_eq_none_of_forall_ne fun p hp heq => ?_
      obtain ⟨hp, hfull⟩ := List.mem_filter.mp hp
      have hvalue := lookup_eq_some_of_mem hkeys hp
      rw [heq, lookup_eq_some_of_mem hkeys he] at hvalue
      rw [← Option.some.inj hvalue, hempty] at hfull
      exact nomatch hfull
    have hdefault (hv : s.IsVariadic) : s.default = none :=
      Option.isNone_iff_eq_none.mp (by simpa using hslots.bare s hs hv)
    cases v with
    | one v => exact nomatch hempty
    | many vs =>
        have hpassing : s.passing = .variadic := hfit
        cases vs with
        | nil => simp only [hnone, hdefault (.inl hpassing), hpassing]
        | cons v vs => exact nomatch hempty
    | named vs =>
        have hpassing : s.passing = .variadicNamed := hfit
        cases vs with
        | nil => simp only [hnone, hdefault (.inr hpassing), hpassing]
        | cons v vs => exact nomatch hempty
  · have hmem : (s.name, v) ∈ given bound := List.mem_filter.mpr ⟨he, by simpa using hempty⟩
    have hsome : (given bound).lookup s.name = some v :=
      lookup_eq_some_of_mem (hkeys.sublist (List.filter_sublist.map _)) hmem
    simp only [hsome]

/-- Defaults fill the slots that are empty. -/
theorem applyDefaults_of_complete (hslots : Definable slots) (h : Complete slots bound) :
    applyDefaults slots (given bound) = bound := by
  have hall (ss : List (Slot α)) (es : Binding α)
      (hfits : List.Forall₂ (fun s e => e.1 = s.name ∧ s.Fits e.2) ss es)
      (hss : ∀ s ∈ ss, s ∈ slots) (hes : ∀ e ∈ es, e ∈ bound) :
      ss.filterMap (Slot.valueIn (given bound)) = es := by
    induction hfits with
    | nil => rfl
    | cons he _ ih =>
        rw [List.forall_mem_cons] at hss hes
        rw [List.filterMap_cons_some (valueIn_given hslots h hss.1 hes.1 he.1 he.2),
          ih hss.2 hes.2]
  exact hall slots bound h.fits (fun _ hs => hs) (fun _ he => he)

end Covenant.Signature
