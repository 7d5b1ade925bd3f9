import Covenant.Document.Canonical
import Covenant.Proofs.Document.Reading
import Mathlib.Data.List.Forall2
import Mathlib.Data.List.Perm.Basic
import Mathlib.Data.String.Basic

/-! # Canonical documents — equal texts, equal documents

    Two documents have one canonical text exactly when they are equal up to
    the order in which the keys of their objects were inserted.

    * `Agrees` is this equality, with truth values and numbers kept apart.
    * Sorting forgets the order and nothing else (`sorted_eq_iff`): the sorted
      fields of an object are the one arrangement of its fields in which the
      keys go up.
    * The text of what has been sorted is read back, so it forgets nothing.

    What holds of documents holds of the values they stand for
    (`canonicalText?_value`). -/

namespace Covenant.Document

open Value

/-! ## Equality up to order -/

mutual

/-- Equality of documents up to the order in which keys were inserted, at every level. -/
inductive Agrees : Json → Json → Prop where
  | null : Agrees .null .null
  | bool (b : Bool) : Agrees (.bool b) (.bool b)
  | int (n : Int) : Agrees (.int n) (.int n)
  | str (s : String) : Agrees (.str s) (.str s)
  | arr {as bs : List Json} : AgreesAll as bs → Agrees (.arr as) (.arr bs)
  | obj {fs gs' gs : List (String × Json)} : AgreesFields fs gs' → gs'.Perm gs →
      Agrees (.obj fs) (.obj gs)

/-- Several documents that are equal in this way, one by one. -/
inductive AgreesAll : List Json → List Json → Prop where
  | nil : AgreesAll [] []
  | cons {a b : Json} {as bs : List Json} : Agrees a b → AgreesAll as bs →
      AgreesAll (a :: as) (b :: bs)

/-- Fields with the same keys in order, and with documents that are equal in this way. -/
inductive AgreesFields : List (String × Json) → List (String × Json) → Prop where
  | nil : AgreesFields [] []
  | cons {k : String} {v w : Json} {fs gs : List (String × Json)} : Agrees v w →
      AgreesFields fs gs → AgreesFields ((k, v) :: fs) ((k, w) :: gs)

end

/-! ## Sorting -/

-- their equations are made here, once for the proofs below that unfold them
attribute [local simp] insertField sortedFields

variable {k : String} {v : Json} {fs gs : List (String × Json)}

/-- The order of fields by their keys. -/
def KeysAscend (fs : List (String × Json)) : Prop := fs.Pairwise fun f g => f.1 < g.1

theorem perm_insertField (k : String) (v : Json) (fs : List (String × Json)) :
    (insertField k v fs).Perm ((k, v) :: fs) := by
  induction fs with
  | nil => exact .refl _
  | cons f fs ih =>
    obtain ⟨l, w⟩ := f
    unfold insertField
    split
    · exact .refl _
    · exact (ih.cons (l, w)).trans (.swap (k, v) (l, w) fs)

theorem keysAscend_insertField (hfs : KeysAscend fs) (hk : k ∉ fs.map (·.1)) :
    KeysAscend (insertField k v fs) := by
  induction fs with
  | nil => exact List.pairwise_singleton _ _
  | cons f fs ih =>
    obtain ⟨l, w⟩ := f
    obtain ⟨hhead, htail⟩ := List.pairwise_cons.mp hfs
    rw [List.map_cons, List.mem_cons, not_or] at hk
    unfold insertField
    split
    next hlt =>
      refine List.pairwise_cons.mpr ⟨fun g hg => ?_, hfs⟩
      rcases List.mem_cons.mp hg with rfl | hg
      · exact hlt
      · exact hlt.trans (hhead g hg)
    next hge =>
      have hlt : l < k := lt_of_le_of_ne (not_lt.mp hge) (Ne.symm hk.1)
      refine List.pairwise_cons.mpr ⟨fun g hg => ?_, ih htail hk.2⟩
      rcases List.mem_cons.mp ((perm_insertField k v fs).mem_iff.mp hg) with rfl | hg
      · exact hlt
      · exact hhead g hg

/-- A field with its document sorted. -/
def sortedField (f : String × Json) : String × Json := (f.1, f.2.sorted)

theorem map_fst_sortedField (fs : List (String × Json)) :
    (fs.map sortedField).map (·.1) = fs.map (·.1) := by
  rw [List.map_map]
  rfl

theorem perm_sortedFields : (fs : List (String × Json)) →
    (sortedFields fs).Perm (fs.map sortedField)
  | [] => by
      rw [sortedFields]
      exact .refl _
  | (k, v) :: fs => by
      rw [sortedFields]
      exact (perm_insertField k v.sorted _).trans ((perm_sortedFields fs).cons _)

theorem keysAscend_sortedFields : (fs : List (String × Json)) → (fs.map (·.1)).Nodup →
    KeysAscend (sortedFields fs)
  | [], _ => by
      rw [sortedFields]
      exact .nil
  | (k, v) :: fs, h => by
      obtain ⟨hk, hfs⟩ := List.nodup_cons.mp h
      rw [sortedFields]
      refine keysAscend_insertField (keysAscend_sortedFields fs hfs) ?_
      rw [((perm_sortedFields fs).map _).mem_iff, map_fst_sortedField]
      exact hk

/-- **SORTING FORGETS THE ORDER** of fields with different keys, and nothing else. -/
theorem sortedFields_eq_iff (hfs : (fs.map (·.1)).Nodup) (hgs : (gs.map (·.1)).Nodup) :
    sortedFields fs = sortedFields gs ↔ (fs.map sortedField).Perm (gs.map sortedField) := by
  constructor
  · intro h
    exact (perm_sortedFields fs).symm.trans (h ▸ perm_sortedFields gs)
  · intro h
    have hperm := ((perm_sortedFields fs).trans h).trans (perm_sortedFields gs).symm
    refine hperm.eq_of_pairwise ?_ (keysAscend_sortedFields fs hfs) (keysAscend_sortedFields gs hgs)
    exact fun f g _ _ hlt hgt => absurd (hlt.trans hgt) (lt_irrefl _)

/-! ## Equal texts -/

theorem exactFields_iff (fs : List (String × Json)) :
    Json.ExactFields fs ↔ ∀ f ∈ fs, f.2.Exact := by
  induction fs with
  | nil => exact ⟨fun _ => List.forall_mem_nil _, fun _ => trivial⟩
  | cons f fs ih =>
    obtain ⟨k, v⟩ := f
    rw [Json.ExactFields, ih, List.forall_mem_cons]

theorem AgreesFields.keys_eq (h : AgreesFields fs gs) : fs.map (·.1) = gs.map (·.1) := by
  induction fs generalizing gs with
  | nil =>
    cases h
    rfl
  | cons f fs ih =>
    cases h with
    | cons _ h => rw [List.map_cons, List.map_cons, ih h]

mutual

theorem Agrees.sorted_eq {a b : Json} : Agrees a b → a.Exact → b.Exact → a.sorted = b.sorted
  | .null, _, _ | .bool _, _, _ | .int _, _, _ | .str _, _, _ => rfl
  | .arr h, ha, hb => by
      rw [Json.sorted, Json.sorted, h.sorted_eq ha hb]
  | @Agrees.obj fs gs' gs h hperm, ha, hb => by
      have hkeys : (gs'.map (·.1)).Nodup := (hperm.map _).nodup_iff.mpr hb.1
      have hexact : Json.ExactFields gs' := by
        rw [exactFields_iff]
        exact fun f hf => (exactFields_iff gs).mp hb.2 f (hperm.mem_iff.mp hf)
      rw [Json.sorted, Json.sorted, (sortedFields_eq_iff ha.1 hb.1).mpr]
      rw [h.sorted_eq ha.2 hexact]
      exact hperm.map _

theorem AgreesAll.sorted_eq {as bs : List Json} : AgreesAll as bs → Json.ExactAll as →
    Json.ExactAll bs → sortedAll as = sortedAll bs
  | .nil, _, _ => rfl
  | .cons h hs, ha, hb => by
      rw [sortedAll, sortedAll, h.sorted_eq ha.1 hb.1, hs.sorted_eq ha.2 hb.2]

theorem AgreesFields.sorted_eq {fs gs : List (String × Json)} : AgreesFields fs gs →
    Json.ExactFields fs → Json.ExactFields gs → fs.map sortedField = gs.map sortedField
  | .nil, _, _ => rfl
  | .cons h hs, hf, hg => by
      rw [List.map_cons, List.map_cons, hs.sorted_eq hf.2 hg.2, sortedField, sortedField,
        h.sorted_eq hf.1 hg.1]

end

/-- A rearrangement of what fields become comes from one of the fields. -/
theorem exists_perm_of_map {α β : Type} {f : α → β} {xs ys : List α}
    (h : (xs.map f).Perm (ys.map f)) :
    ∃ zs : List α, xs.map f = zs.map f ∧ zs.Perm ys := by
  have hys : List.Forall₂ (fun b a => b = f a) (ys.map f) ys :=
    List.forall₂_map_left_iff.mpr (List.forall₂_same.mpr fun _ _ => rfl)
  obtain ⟨zs, hzs, hperm⟩ := List.perm_comp_forall₂ h hys
  refine ⟨zs, ?_, hperm⟩
  clear h hys hperm
  generalize xs.map f = bs at hzs
  induction hzs with
  | nil => rfl
  | cons hb _ ih => rw [List.map_cons, hb, ih]

mutual

theorem agrees_of_sorted_eq : (a : Json) → a.Exact → ∀ b, a.sorted = b.sorted → Agrees a b
  | .null, _, b, h => by
      cases b with
      | null => exact .null
      | _ => simp [Json.sorted] at h
  | .bool c, _, b, h => by
      cases b with
      | bool d =>
        obtain rfl := Json.bool.inj h
        exact .bool c
      | _ => simp [Json.sorted] at h
  | .int m, _, b, h => by
      cases b with
      | int n =>
        obtain rfl := Json.int.inj h
        exact .int m
      | _ => simp [Json.sorted] at h
  | .str s, _, b, h => by
      cases b with
      | str t =>
        obtain rfl := Json.str.inj h
        exact .str s
      | _ => simp [Json.sorted] at h
  | .float _, ha, _, _ => absurd ha id
  | .arr as, ha, b, h => by
      cases b with
      | arr bs =>
        rw [Json.sorted, Json.sorted] at h
        exact .arr (agreesAll_of_sorted_eq as ha bs (Json.arr.inj h))
      | _ => simp [Json.sorted] at h
  | .obj fs, ha, b, h => by
      cases b with
      | obj gs =>
        rw [Json.sorted, Json.sorted] at h
        have hperm : (fs.map sortedField).Perm (gs.map sortedField) :=
          (perm_sortedFields fs).symm.trans (Json.obj.inj h ▸ perm_sortedFields gs)
        obtain ⟨gs', hmap, hgs'⟩ := exists_perm_of_map hperm
        exact .obj (agreesFields_of_sorted_eq fs ha.2 gs' hmap) hgs'
      | _ => simp [Json.sorted] at h

theorem agreesAll_of_sorted_eq : (as : List Json) → Json.ExactAll as → ∀ bs,
    sortedAll as = sortedAll bs → AgreesAll as bs
  | [], _, [], _ => .nil
  | [], _, _ :: _, h => nomatch h
  | _ :: _, _, [], h => nomatch h
  | a :: as, ha, b :: bs, h => by
      rw [sortedAll, sortedAll, List.cons.injEq] at h
      exact .cons (agrees_of_sorted_eq a ha.1 b h.1) (agreesAll_of_sorted_eq as ha.2 bs h.2)

theorem agreesFields_of_sorted_eq : (fs : List (String × Json)) → Json.ExactFields fs → ∀ gs,
    fs.map sortedField = gs.map sortedField → AgreesFields fs gs
  | [], _, [], _ => .nil
  | [], _, _ :: _, h => nomatch h
  | _ :: _, _, [], h => nomatch h
  | (k, v) :: fs, hfs, (l, w) :: gs, h => by
      rw [List.map_cons, List.map_cons, List.cons.injEq, sortedField, sortedField,
        Prod.mk.injEq] at h
      obtain ⟨⟨rfl, hv⟩, hrest⟩ := h
      exact .cons (agrees_of_sorted_eq v hfs.1 w hv) (agreesFields_of_sorted_eq fs hfs.2 gs hrest)

end

mutual

theorem exact_sorted : (j : Json) → j.Exact → j.sorted.Exact
  | .null, _ | .bool _, _ | .int _, _ | .str _, _ => trivial
  | .float _, h => absurd h id
  | .arr js, h => by
      rw [Json.sorted]
      exact exactAll_sorted js h
  | .obj fs, h => by
      rw [Json.sorted]
      refine ⟨?_, (exactFields_iff _).mpr fun f hf => ?_⟩
      · rw [((perm_sortedFields fs).map _).nodup_iff, map_fst_sortedField]
        exact h.1
      · exact exactFields_sorted fs h.2 f ((perm_sortedFields fs).mem_iff.mp hf)

theorem exactAll_sorted : (js : List Json) → Json.ExactAll js → Json.ExactAll (sortedAll js)
  | [], _ => trivial
  | j :: js, h => by
      rw [sortedAll]
      exact ⟨exact_sorted j h.1, exactAll_sorted js h.2⟩

theorem exactFields_sorted : (fs : List (String × Json)) → Json.ExactFields fs →
    ∀ f ∈ fs.map sortedField, f.2.Exact
  | [], _ => nofun
  | (_, v) :: fs, h =>
      List.forall_mem_cons.mpr ⟨exact_sorted v h.1, exactFields_sorted fs h.2⟩

end

/-- **ONE TEXT, ONE DOCUMENT**: canonical texts are equal exactly when the documents are, up to
    the order of keys. -/
theorem canonicalText_eq_iff {a b : Json} (ha : a.Exact) (hb : b.Exact) :
    canonicalText a = canonicalText b ↔ Agrees a b := by
  constructor
  · intro h
    have hsorted := Json.compactWith_injective (exact_sorted a ha) (exact_sorted b hb) h
    exact agrees_of_sorted_eq a ha b hsorted
  · intro h
    rw [canonicalText, canonicalText, h.sorted_eq ha hb]

/-! ## Values -/

mutual

/-- The value that a document stands for. -/
def Json.value : Json → Datum
  | .null => .none
  | .bool b => .bool b
  | .int n => .int n
  | .float x => .float x
  | .str s => .str s
  | .arr items => .list (valueAll items)
  | .obj fields => .dict (valueFields fields)

/-- The values of several documents. -/
def valueAll : List Json → List Datum
  | [] => []
  | j :: js => j.value :: valueAll js

/-- The items of a mapping from strings. -/
def valueFields : List (String × Json) → List (Datum × Datum)
  | [] => []
  | (k, v) :: fs => (.str k, v.value) :: valueFields fs

end

/-- A field under a key that is a value. -/
def keyed (f : String × Json) : Datum × Json := (.str f.1, f.2)

theorem insertItem_keyed (k : String) (v : Json) (fs : List (String × Json)) :
    insertItem (.str k) v (fs.map keyed) = some ((insertField k v fs).map keyed) := by
  induction fs with
  | nil => rfl
  | cons f fs ih =>
    obtain ⟨l, w⟩ := f
    rw [List.map_cons, keyed, insertItem, ih, insertField]
    show (if decide (k < l) = true then _ else _) = _
    by_cases h : k < l
    · rw [if_pos (decide_eq_true h), if_pos h]
      rfl
    · rw [if_neg (by simpa using h), if_neg h]
      rfl

theorem fieldsOf?_keyed (fs : List (String × Json)) : fieldsOf? (fs.map keyed) = some fs := by
  induction fs with
  | nil => rfl
  | cons f fs ih =>
    rw [List.map_cons, keyed, fieldsOf?, ih]
    rfl

mutual

theorem arranged?_value : (j : Json) → arranged? j.value = some j.sorted
  | .null | .bool _ | .int _ | .float _ | .str _ => rfl
  | .arr js => by
      rw [Json.value, arranged?, arrangedAll?_value js, Json.sorted]
      rfl
  | .obj fs => by
      rw [Json.value, arranged?, arrangedItems?_value fs, Json.sorted]
      show (fieldsOf? _).map _ = _
      rw [fieldsOf?_keyed]
      rfl

theorem arrangedAll?_value : (js : List Json) → arrangedAll? (valueAll js) = some (sortedAll js)
  | [] => rfl
  | j :: js => by
      rw [valueAll, arrangedAll?, arranged?_value j, arrangedAll?_value js, sortedAll]
      rfl

theorem arrangedItems?_value : (fs : List (String × Json)) →
    arrangedItems? (valueFields fs) = some ((sortedFields fs).map keyed)
  | [] => rfl
  | (k, v) :: fs => by
      rw [valueFields, arrangedItems?, arranged?_value v, arrangedItems?_value fs, sortedFields]
      exact insertItem_keyed k v.sorted (sortedFields fs)

end

/-- The canonical text of a value that a document stands for is that of the document. -/
theorem canonicalText?_value (j : Json) : canonicalText? j.value = some (canonicalText j) := by
  rw [canonicalText?, arranged?_value]
  rfl

end Covenant.Document
