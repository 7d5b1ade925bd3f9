import Covenant.Proofs.Value.Built
import Covenant.Proofs.Value.Literals

/-! # Reading back — what the literal of a value is

    `ReadsBack d v` says what the text of a value may be read as: a value equal
    to it if it is clean, and no literal otherwise.  A collection is read back
    if the values that it holds are (`readsBack_list`, `readsBack_tuple`,
    `readsBack_set`, `readsBack_dict`).

    * Sets and mappings are put together from what was read, so their items and
      keys have to be read back as they are and not merely as equal values. -/

namespace Covenant.Value

open Grammar Covenant.Tree

variable {d : Datum} {v : Option Datum} {items : List Datum} {value : Datum → Option Datum}

/-- What the text of a value is read back as: a value equal to it if it is clean, which for a key is
    the key itself, and no literal otherwise. -/
structure ReadsBack (d : Datum) (v : Option Datum) : Prop where
  clean : d.IsClean → ∃ d', v = some d' ∧ d.same d' = true ∧ (d.isKey = true → d' = d)
  other : ¬ d.IsClean → v = none

theorem readsBack_self (hform : d.hasNoLiteral = false) (hparts : d.parts = [])
    (hsame : d.same d = true) : ReadsBack d (some d) where
  clean _ := ⟨d, rfl, hsame, fun _ => rfl⟩
  other h := absurd (Datum.isClean_of_parts hform hparts) h

theorem readsBack_none (h : d.hasNoLiteral = true) : ReadsBack d none where
  clean hclean := absurd hclean (Datum.not_isClean d h)
  other _ := rfl

/-- A collection is clean if the values that it holds are. -/
theorem readsBack_of_parts (hform : d.hasNoLiteral = false)
    (hclean : (∀ x ∈ d.parts, x.IsClean) →
      ∃ d', v = some d' ∧ d.same d' = true ∧ (d.isKey = true → d' = d))
    (hother : ∀ x ∈ d.parts, ¬ x.IsClean → v = none) : ReadsBack d v where
  clean h := hclean (Datum.isClean_iff.mp h).2
  other h := by
    have hparts : ¬ ∀ x ∈ d.parts, x.IsClean := fun hparts => h (Datum.isClean_iff.mpr ⟨hform, hparts⟩)
    obtain ⟨x, hx, hforeign⟩ : ∃ x ∈ d.parts, ¬ x.IsClean := by
      simpa only [not_forall, exists_prop] using hparts
    exact hother x hx hforeign

/-- Values with equal ones in their places, the keys as they are. -/
def Copied : List Datum → List Datum → Prop :=
  List.Forall₂ fun d d' => d.same d' = true ∧ (d.isKey = true → d' = d)

theorem exists_mapM_of_clean (h : ∀ d ∈ items, ReadsBack d (value d))
    (hclean : ∀ d ∈ items, d.IsClean) :
    ∃ items', items.mapM value = some items' ∧ Copied items items' := by
  induction items with
  | nil => exact ⟨[], rfl, .nil⟩
  | cons d ds ih =>
      rw [List.forall_mem_cons] at h hclean
      obtain ⟨d', hd', hcopy⟩ := h.1.clean hclean.1
      obtain ⟨ds', hds', hcopies⟩ := ih h.2 hclean.2
      refine ⟨d' :: ds', ?_, .cons hcopy hcopies⟩
      rw [List.mapM_cons, hd', hds']
      rfl

theorem mapM_eq_none (h : ∀ d ∈ items, ReadsBack d (value d)) (hd : d ∈ items)
    (hforeign : ¬ d.IsClean) : items.mapM value = none := by
  induction items with
  | nil => exact nomatch hd
  | cons e es ih =>
      rw [List.forall_mem_cons] at h
      rw [List.mapM_cons]
      rcases List.mem_cons.mp hd with rfl | hd
      · rw [h.1.other hforeign]
        rfl
      · rw [ih h.2 hd]
        cases value e <;> rfl

/-- Keys are read back as they are. -/
theorem Copied.eq_of_areKeys {items' : List Datum} (h : Copied items items')
    (hkeys : Datum.areKeys items = true) : items' = items := by
  induction h with
  | nil => rfl
  | cons hd _ ih =>
      obtain ⟨hkey, hmore⟩ := Bool.and_eq_true_iff.mp hkeys
      rw [hd.2 hkey, ih hmore]

theorem Copied.sameAll {items' : List Datum} (h : Copied items items') :
    Datum.sameAll items items' = true := by
  induction h with
  | nil => simp [Datum.sameAll]
  | cons hd _ ih => rw [Datum.sameAll, hd.1, ih, Bool.and_self]

theorem readsBack_list (h : ∀ d ∈ items, ReadsBack d (value d)) :
    ReadsBack (.list items) ((items.mapM value).bind (displayed? .list)) := by
  refine readsBack_of_parts rfl (fun hclean => ?_) fun d hd hforeign => ?_
  · obtain ⟨items', hitems', hcopies⟩ := exists_mapM_of_clean h hclean
    refine ⟨.list items', by rw [hitems']; rfl, ?_, nofun⟩
    rw [Datum.same]
    exact hcopies.sameAll
  · rw [mapM_eq_none h hd hforeign]
    rfl

theorem readsBack_tuple (h : ∀ d ∈ items, ReadsBack d (value d)) :
    ReadsBack (.tuple items) ((items.mapM value).bind (displayed? .tuple)) := by
  refine readsBack_of_parts rfl (fun hclean => ?_) fun d hd hforeign => ?_
  · obtain ⟨items', hitems', hcopies⟩ := exists_mapM_of_clean h hclean
    refine ⟨.tuple items', by rw [hitems']; rfl, ?_, fun hkey => ?_⟩
    · rw [Datum.same]
      exact hcopies.sameAll
    · rw [hcopies.eq_of_areKeys hkey]
  · rw [mapM_eq_none h hd hforeign]
    rfl

theorem allIn_of_forall {as bs : List Datum} (h : ∀ a ∈ as, ∃ b ∈ bs, a.same b = true) :
    Datum.allIn as bs = true := by
  induction as with
  | nil => simp [Datum.allIn]
  | cons a as ih =>
      rw [List.forall_mem_cons] at h
      rw [Datum.allIn, List.any_eq_true.mpr h.1, ih h.2, Bool.and_self]

/-- **SETS** are read back in the order in which they were written. -/
theorem readsBack_set {order : List Datum} (horder : order.Perm items)
    (hbuilt : ∀ d ∈ items, d.Built) (hkeys : Datum.areKeys items = true)
    (hapart : items.Pairwise fun a b => a.same b = false)
    (h : ∀ d ∈ items, ReadsBack d (value d)) :
    ReadsBack (.set items) ((order.mapM value).bind (displayed? .set)) := by
  have hread : ∀ d ∈ order, ReadsBack d (value d) := fun d hd => h d (horder.mem_iff.mp hd)
  have hkey : ∀ d ∈ items, d.isKey = true := Datum.areKeys_iff.mp hkeys
  refine readsBack_of_parts rfl (fun hclean => ?_) fun d hd hforeign => ?_
  · have hclean : ∀ d ∈ items, d.IsClean := hclean
    obtain ⟨order', horder', hcopies⟩ :=
      exists_mapM_of_clean hread fun d hd => hclean d (horder.mem_iff.mp hd)
    have hordered : Datum.areKeys order = true :=
      Datum.areKeys_iff.mpr fun d hd => hkey d (horder.mem_iff.mp hd)
    rw [hcopies.eq_of_areKeys hordered] at horder'
    -- the items differ in any order, since equality of keys goes both ways
    have hboth : items.Pairwise fun a b => a.same b = false ∧ b.same a = false :=
      hapart.imp_of_mem fun {a b} ha _ hab =>
        ⟨hab, Datum.same_comm (hbuilt a ha) (hclean a ha) (hkey a ha) b ▸ hab⟩
    have hdiffer : order.Pairwise fun a b => a.same b = false :=
      (horder.symm.pairwise hboth fun h => ⟨h.2, h.1⟩).imp And.left
    have hset : (order.mapM value).bind (displayed? .set) = some (.set order) := by
      rw [horder', Option.bind_some, displayed?, setOf?, if_pos hordered,
        Datum.foldl_addItem (List.forall_mem_nil _) hdiffer, List.nil_append]
    refine ⟨.set order, hset, ?_, fun hkey => absurd hkey Bool.false_ne_true⟩
    rw [Datum.same, horder.length_eq, beq_self_eq_true, Bool.true_and]
    refine allIn_of_forall fun a ha => ⟨a, horder.mem_iff.mpr ha, ?_⟩
    obtain ⟨a', -, hsame, hcopy⟩ := (h a ha).clean (hclean a ha)
    rwa [hcopy (hkey a ha)] at hsame
  · rw [mapM_eq_none hread (horder.mem_iff.mpr hd) hforeign]
    rfl

theorem allItemsIn_of_forall {ps qs : List (Datum × Datum)}
    (h : ∀ p ∈ ps, ∃ q ∈ qs, p.1.same q.1 = true ∧ p.2.same q.2 = true) :
    Datum.allItemsIn ps qs = true := by
  induction ps with
  | nil => simp [Datum.allItemsIn]
  | cons p ps ih =>
      rw [List.forall_mem_cons] at h
      obtain ⟨⟨q, hq, hsame⟩, hmore⟩ := h
      obtain ⟨k, v⟩ := p
      have hany : qs.any (fun q => k.same q.1 && v.same q.2) = true :=
        List.any_eq_true.mpr ⟨q, hq, Bool.and_eq_true_iff.mpr hsame⟩
      rw [Datum.allItemsIn, hany, ih hmore, Bool.and_self]

/-- Keys with copied values make items that equal those with the values themselves. -/
theorem Copied.exists_item {ps : List (Datum × Datum)} {keys values : List Datum}
    (hkeys : Copied (ps.map (·.1)) keys) (hvalues : Copied (ps.map (·.2)) values) :
    keys.length = ps.length ∧ values.length = ps.length ∧
      ∀ p ∈ ps, ∃ q ∈ keys.zip values, p.1.same q.1 = true ∧ p.2.same q.2 = true := by
  refine ⟨by simpa using hkeys.length_eq.symm, by simpa using hvalues.length_eq.symm, ?_⟩
  induction ps generalizing keys values with
  | nil => exact nofun
  | cons p ps ih =>
      cases hkeys with
      | cons hkey hkeys =>
          cases hvalues with
          | cons hvalue hvalues =>
              rw [List.forall_mem_cons]
              refine ⟨⟨_, List.mem_cons_self, hkey.1, hvalue.1⟩, fun q hq => ?_⟩
              obtain ⟨r, hr, hsame⟩ := ih hkeys hvalues q hq
              exact ⟨r, List.mem_cons_of_mem _ hr, hsame⟩

/-- **MAPPINGS** are read back with their keys as they are. -/
theorem readsBack_dict {ps : List (Datum × Datum)} (hkeys : Datum.areKeys (ps.map (·.1)) = true)
    (hapart : ps.Pairwise fun p q => p.1.same q.1 = false)
    (h : ∀ p ∈ ps, ReadsBack p.1 (value p.1) ∧ ReadsBack p.2 (value p.2)) :
    ReadsBack (.dict ps) (((ps.map (·.1)).mapM value).bind fun ks =>
      ((ps.map (·.2)).mapM value).bind fun vs => mappingOf? ks vs []) := by
  have hreadKeys : ∀ d ∈ ps.map (·.1), ReadsBack d (value d) :=
    List.forall_mem_map.mpr fun p hp => (h p hp).1
  have hreadValues : ∀ d ∈ ps.map (·.2), ReadsBack d (value d) :=
    List.forall_mem_map.mpr fun p hp => (h p hp).2
  refine readsBack_of_parts rfl (fun hclean => ?_) fun d hd hforeign => ?_
  · obtain ⟨hcleanKeys, hcleanValues⟩ := List.forall_mem_append.mp hclean
    obtain ⟨ks, hks, hcopiedKeys⟩ := exists_mapM_of_clean hreadKeys hcleanKeys
    obtain ⟨vs, hvs, hcopiedValues⟩ := exists_mapM_of_clean hreadValues hcleanValues
    obtain ⟨hlength, hlength', hitems⟩ := hcopiedKeys.exists_item hcopiedValues
    obtain rfl := hcopiedKeys.eq_of_areKeys hkeys
    have hmapping := Datum.mappingOf?_eq (hlength.trans hlength'.symm) hkeys
      (List.forall_mem_nil _) (List.pairwise_map.mpr hapart)
    rw [List.nil_append] at hmapping
    refine ⟨_, by rw [hks, hvs]; exact hmapping, ?_, nofun⟩
    rw [Datum.same, allItemsIn_of_forall hitems]
    simp [hlength']
  · rcases List.mem_append.mp hd with hd | hd
    · rw [mapM_eq_none hreadKeys hd hforeign]
      rfl
    · rw [mapM_eq_none hreadValues hd hforeign]
      cases (ps.map (·.1)).mapM value <;> rfl

end Covenant.Value
