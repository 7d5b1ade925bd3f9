import Covenant.Proofs.Document.Canonical
import Covenant.Wrapper.Descriptor
import Mathlib.Data.List.Nodup
import Mathlib.Data.Set.Function

/-! # Fingerprints — the digest of a canonical text

    The document of a wrapper's plan has no floating numbers, and its keys
    differ at every level: those of the defaults as well, since setting a key
    once more gives it another text and no second place.  So the digests of
    plans tell their documents apart as far as the digest tells texts apart. -/

namespace Covenant.Document

open Value Wrapper

variable {fs : List (String × Json)} {k : String} {v : Json}

/-! ## Documents of plans -/

theorem keys_setField (fs : List (String × Json)) (k : String) (v : Json) :
    (Json.setField fs k v).map (·.1) =
      if k ∈ fs.map (·.1) then fs.map (·.1) else fs.map (·.1) ++ [k] := by
  by_cases hk : k ∈ fs.map (·.1)
  · have hany : fs.any (·.1 == k) = true := by
      obtain ⟨f, hf, rfl⟩ := List.mem_map.mp hk
      exact List.any_eq_true.mpr ⟨f, hf, beq_self_eq_true _⟩
    rw [Json.setField, hany, if_pos rfl, if_pos hk, List.map_map]
    refine List.map_congr_left fun f _ => ?_
    show (if f.1 == k then (k, v) else f).1 = f.1
    split
    next h => exact (beq_iff_eq.mp h).symm
    next => rfl
  · rw [Json.setField_new v hk, if_neg hk, List.map_append]
    rfl

theorem exact_setField (hkeys : (fs.map (·.1)).Nodup) (hfs : Json.ExactFields fs)
    (hv : v.Exact) :
    ((Json.setField fs k v).map (·.1)).Nodup ∧ Json.ExactFields (Json.setField fs k v) := by
  constructor
  · rw [keys_setField]
    split
    next => exact hkeys
    next hk => exact List.concat_eq_append ▸ hkeys.concat hk
  · rw [exactFields_iff] at hfs ⊢
    intro f hf
    unfold Json.setField at hf
    split at hf
    next =>
      obtain ⟨g, hg, rfl⟩ := List.mem_map.mp hf
      show (if g.1 == k then (k, v) else g).2.Exact
      split
      next => exact hv
      next => exact hfs g hg
    next =>
      rcases List.mem_append.mp hf with hf | hf
      · exact hfs f hf
      · rw [List.mem_singleton.mp hf]
        exact hv

theorem exactAll_iff (js : List Json) : Json.ExactAll js ↔ ∀ j ∈ js, j.Exact := by
  induction js with
  | nil => exact ⟨fun _ => List.forall_mem_nil _, fun _ => trivial⟩
  | cons j js ih => rw [Json.ExactAll, ih, List.forall_mem_cons]

theorem exact_arr_map {α : Type} {f : α → Json} (xs : List α) (h : ∀ x ∈ xs, (f x).Exact) :
    (Json.arr (xs.map f)).Exact := by
  rw [Json.Exact, exactAll_iff]
  exact List.forall_mem_map.mpr h

theorem exact_ofOption (s : Option String) : (Json.ofOption s).Exact := by
  cases s <;> trivial

theorem exact_clause (c : EnforcedClause) : c.toJson.Exact :=
  ⟨show ["condition", "message", "enforced"].Nodup by decide, trivial, trivial, trivial, trivial⟩

theorem exact_defaultTexts (d : Descriptor Datum) : (Json.obj d.defaultTexts).Exact := by
  unfold Descriptor.defaultTexts
  generalize d.signature.declaration.filter _ = ps
  suffices h : ∀ fs : List (String × Json), (fs.map (·.1)).Nodup ∧ Json.ExactFields fs →
      (Json.obj (ps.foldl (fun fields p =>
        Json.setField fields p.name (.str (Signature.defaultText p))) fs)).Exact from
    h [] ⟨.nil, trivial⟩
  induction ps with
  | nil => exact fun fs h => h
  | cons p ps ih => exact fun fs h => ih _ (exact_setField h.1 h.2 trivial)

/-- The document of a plan has no floating numbers, and its keys differ at every level. -/
theorem exact_toJson (d : Descriptor Datum) : d.toJson.Exact := by
  have hsignature : (Json.obj [
      ("declaration", .str (d.signature.declarationText true none)),
      ("forwarding", .str d.signature.forwardingText),
      ("type_parameters", Json.ofTexts d.signature.typeParameters),
      ("defaults", .obj d.defaultTexts)]).Exact :=
    ⟨show ["declaration", "forwarding", "type_parameters", "defaults"].Nodup by decide,
      trivial, trivial, exact_arr_map _ fun _ _ => trivial, exact_defaultTexts d, trivial⟩
  have htexts (ts : List String) : (Json.ofTexts ts).Exact := exact_arr_map _ fun _ _ => trivial
  have hclauses (cs : List EnforcedClause) : (Json.arr (cs.map EnforcedClause.toJson)).Exact :=
    exact_arr_map _ fun c _ => exact_clause c
  have hkeys : ["owner", "module", "internal_name", "public_name", "role", "async", "signature",
      "returns", "steps", "invariants", "preconditions", "postconditions",
      "captured_fields"].Nodup := by decide
  exact ⟨hkeys, exact_ofOption _, exact_ofOption _, trivial, trivial, trivial, trivial,
    hsignature, exact_ofOption _, htexts _, hclauses _, hclauses _, hclauses _, htexts _, trivial⟩

/-! ## The law -/

/-- **CANONICAL TEXTS**: of values made of null, truth values, whole numbers, texts, lists and
    mappings from texts, each has a canonical text, and two have the same one exactly when they
    are equal up to the order of keys at every level.  So the fingerprints of plans among which
    the digest has no collision are equal exactly when their documents are. -/
theorem canonical_form :
    (∀ a b : Json, a.Exact → b.Exact → ∃ s t, canonicalText? a.value = some s ∧
      canonicalText? b.value = some t ∧ (s = t ↔ Agrees a b)) ∧
    ∀ plans : Set (Descriptor Datum),
      Set.InjOn Digest.ofText ((fun d => canonicalText d.toJson) '' plans) →
      ∀ d ∈ plans, ∀ e ∈ plans, d.fingerprint = e.fingerprint ↔ Agrees d.toJson e.toJson := by
  refine ⟨fun a b ha hb => ?_, fun plans hdigest d hd e he => ?_⟩
  · exact ⟨_, _, canonicalText?_value a, canonicalText?_value b, canonicalText_eq_iff ha hb⟩
  · rw [← canonicalText_eq_iff (exact_toJson d) (exact_toJson e)]
    exact hdigest.eq_iff (Set.mem_image_of_mem _ hd) (Set.mem_image_of_mem _ he)

/-- A document with two keys in either order. -/
def twoKeys (first : Bool) : Json :=
  let a := ("é", Json.arr [.bool true, .int 1, .str "\"\\\n😀"])
  let b := ("b", Json.obj [])
  .obj (if first then [a, b] else [b, a])

/-- The plan of a function without parameters and clauses. -/
def barePlan (implementation : Option Datum) : Descriptor Datum where
  owner := none
  internalName := "_open"
  publicName := "open"
  role := .function
  isAsync := false
  signature := ⟨[], [], none⟩
  invariants := []
  preconditions := []
  postconditions := []
  capturedFields := []
  returns := none
  module := none
  implementation := implementation

theorem canonical_form_two :
    (twoKeys true).Exact ∧ (twoKeys false).Exact ∧
    (∃ s t, canonicalText? (twoKeys true).value = some s ∧
      canonicalText? (twoKeys false).value = some t ∧
      (s = t ↔ Agrees (twoKeys true) (twoKeys false))) ∧
    Set.InjOn Digest.ofText ((fun d => canonicalText d.toJson) '' Set.range barePlan) ∧
    ((barePlan none).fingerprint = (barePlan (some (.int 1))).fingerprint ↔
      Agrees (barePlan none).toJson (barePlan (some (.int 1))).toJson) := by
  have hkeys : ["é", "b"].Nodup ∧ ["b", "é"].Nodup := by decide
  have htrue : (twoKeys true).Exact :=
    ⟨hkeys.1, ⟨trivial, trivial, trivial, trivial⟩, ⟨.nil, trivial⟩, trivial⟩
  have hfalse : (twoKeys false).Exact :=
    ⟨hkeys.2, ⟨.nil, trivial⟩, ⟨trivial, trivial, trivial, trivial⟩, trivial⟩
  have hinj : Set.InjOn Digest.ofText
      ((fun d => canonicalText d.toJson) '' Set.range barePlan) := by
    -- the implementation is no part of the document
    rintro _ ⟨_, ⟨_, rfl⟩, rfl⟩ _ ⟨_, ⟨_, rfl⟩, rfl⟩ _
    rfl
  exact ⟨htrue, hfalse, canonical_form.1 _ _ htrue hfalse, hinj,
    canonical_form.2 _ hinj _ (Set.mem_range_self _) _ (Set.mem_range_self _)⟩

example : canonicalText? (twoKeys true).value =
    some "\x7b\"b\":\x7b\x7d,\"\\u00e9\":[true,1,\"\\\"\\\\\\n\\ud83d\\ude00\"]\x7d" := by
  decide +kernel

end Covenant.Document
