import Covenant.Proofs.Grammar.WholeNumbers
import Covenant.Value.Constant
import Mathlib.Data.List.Perm.Basic
import Mathlib.Logic.Relation

/-! # Built values — what the collections of constants are

    Values that are built from constants, whole numbers, texts and bytes by the
    collections that have a text.

    * `Datum.Built` says which they are: no two items of a set and no two keys
      of a mapping are equal.
    * `Datum.IsClean` says that a value holds no value without a literal, at
      any depth, and `Datum.depth` how deep brackets nest in its text.
    * A set goes through its items in an order of its own (`setOrder_perm`), and
      from items that differ it is put together again (`foldl_addItem`), as is a
      mapping (`mappingOf?_eq`). -/

namespace Covenant.Value

open Grammar

namespace Datum

/-! ## Values -/

/-- A value that is built from constants, whole numbers that can be written, texts and bytes. -/
inductive Built : Datum → Prop where
  | none : Built .none
  | ellipsis : Built .ellipsis
  | bool (b : Bool) : Built (.bool b)
  | int {n : Int} (digits : HasFewDigits n.natAbs) : Built (.int n)
  | str (s : String) : Built (.str s)
  | bytes (bs : List UInt8) : Built (.bytes bs)
  | bytearray (bs : List UInt8) : Built (.bytearray bs)
  | list {items : List Datum} (built : ∀ d ∈ items, Built d) : Built (.list items)
  | tuple {items : List Datum} (built : ∀ d ∈ items, Built d) : Built (.tuple items)
  | set {items : List Datum} (built : ∀ d ∈ items, Built d) (keys : areKeys items = true)
      (apart : items.Pairwise fun a b => a.same b = false) : Built (.set items)
  | frozenset {items : List Datum} (built : ∀ d ∈ items, Built d) (keys : areKeys items = true)
      (apart : items.Pairwise fun a b => a.same b = false) : Built (.frozenset items)
  | dict {items : List (Datum × Datum)} (builtKeys : ∀ p ∈ items, Built p.1)
      (builtValues : ∀ p ∈ items, Built p.2) (keys : areKeys (items.map (·.1)) = true)
      (apart : items.Pairwise fun p q => p.1.same q.1 = false) : Built (.dict items)
  | range {start stop step : Int} (starts : HasFewDigits start.natAbs)
      (stops : HasFewDigits stop.natAbs) (steps : HasFewDigits step.natAbs) :
      Built (.range start stop step)

/-- The values that a value holds directly. -/
def parts : Datum → List Datum
  | .list items | .tuple items | .set items | .frozenset items => items
  | .dict items => items.map (·.1) ++ items.map (·.2)
  | _ => []

/-- `Within x d`: the first value is the second one or stands in it, at any depth. -/
def Within : Datum → Datum → Prop := Relation.ReflTransGen fun x d => x ∈ d.parts

/-- Whether a value is of a type that has no literal. -/
def hasNoLiteral : Datum → Bool
  | .ellipsis | .bytearray _ | .frozenset _ | .range .. => true
  | _ => false

/-- A value that holds no value without a literal. -/
def IsClean (d : Datum) : Prop := ∀ x, Within x d → x.hasNoLiteral = false

theorem isClean_iff {d : Datum} :
    d.IsClean ↔ d.hasNoLiteral = false ∧ ∀ x ∈ d.parts, x.IsClean := by
  constructor
  · intro h
    exact ⟨h d .refl, fun x hx y hy => h y (hy.tail hx)⟩
  · rintro ⟨hself, hparts⟩ x hx
    rcases Relation.ReflTransGen.cases_tail hx with rfl | ⟨y, hxy, hy⟩
    · exact hself
    · exact hparts y hy x hxy

theorem not_isClean (d : Datum) (h : d.hasNoLiteral = true) : ¬ d.IsClean := fun hclean =>
  Bool.false_ne_true ((hclean d .refl).symm.trans h)

theorem isClean_of_parts {d : Datum} (h : d.hasNoLiteral = false) (hparts : d.parts = []) :
    d.IsClean := by
  rw [isClean_iff, hparts]
  exact ⟨h, nofun⟩

mutual

/-- How deep brackets nest in the text of a value, those of calls included. -/
def depth : Datum → Nat
  | .list items | .tuple items | .set items => deepest items + 1
  | .frozenset [] => 1
  | .frozenset items => deepest items + 2
  | .dict items => deepestItem items + 1
  | .bytearray _ | .range .. => 1
  | _ => 0

/-- How deep brackets nest in the texts of several values. -/
def deepest : List Datum → Nat
  | [] => 0
  | d :: ds => max d.depth (deepest ds)

/-- How deep brackets nest in the texts of items of a mapping. -/
def deepestItem : List (Datum × Datum) → Nat
  | [] => 0
  | (k, v) :: ps => max (max k.depth v.depth) (deepestItem ps)

end

theorem depth_le_deepest {d : Datum} {ds : List Datum} (h : d ∈ ds) : d.depth ≤ deepest ds := by
  induction ds with
  | nil => exact nomatch h
  | cons e ds ih =>
      rw [deepest]
      rcases List.mem_cons.mp h with rfl | h
      · exact Nat.le_max_left _ _
      · exact Nat.le_trans (ih h) (Nat.le_max_right _ _)

theorem depth_le_deepestItem {p : Datum × Datum} {ps : List (Datum × Datum)} (h : p ∈ ps) :
    p.1.depth ≤ deepestItem ps ∧ p.2.depth ≤ deepestItem ps := by
  induction ps with
  | nil => exact nomatch h
  | cons q ps ih =>
      obtain ⟨k, v⟩ := q
      rw [deepestItem]
      rcases List.mem_cons.mp h with rfl | h
      · dsimp only
        omega
      · obtain ⟨hkey, hvalue⟩ := ih h
        omega

/-! ## Texts -/

theorem spellAll_eq (ds : List Datum) : spellAll ds = ds.map spell := by
  induction ds with
  | nil => rw [spellAll, List.map_nil]
  | cons d ds ih => rw [spellAll, ih, List.map_cons]

theorem spellItems_eq (ps : List (Datum × Datum)) :
    spellItems ps = ps.map fun p => p.1.spell ++ ": " ++ p.2.spell := by
  induction ps with
  | nil => rw [spellItems, List.map_nil]
  | cons p ps ih => rw [spellItems, ih, List.map_cons]

/-- The order of a set looks at the numbers of its items only. -/
theorem setOrder_map {α β : Type} (f : α → β) (number : β → Option Nat) (items : List α) :
    setOrder number (items.map f) = (setOrder (fun x => number (f x)) items).map f := by
  unfold setOrder
  dsimp only
  rw [List.length_map, List.all_map, Function.comp_def]
  by_cases hall : (items.all fun x => (number (f x)).any (· < if items.length < 5 then 8 else 32)) = true
  · rw [if_pos hall, if_pos hall]
    refine Eq.symm (List.map_mergeSort ?_)
    exact fun _ _ _ _ => rfl
  · rw [if_neg hall, if_neg hall]

/-- A set goes through its items in some order. -/
theorem setOrder_perm {α : Type} (number : α → Option Nat) (items : List α) :
    (setOrder number items).Perm items := by
  unfold setOrder
  dsimp only
  by_cases hall : (items.all fun x => (number x).any (· < if items.length < 5 then 8 else 32)) = true
  · rw [if_pos hall]
    exact List.mergeSort_perm _ _
  · rw [if_neg hall]

theorem spellSet_eq (items : List Datum) :
    spellSet items = (setOrder small? items).map spell := by
  have hzip : items.zip (items.map spell) = items.map fun d => (d, d.spell) := by
    induction items with
    | nil => rfl
    | cons d ds ih => rw [List.map_cons, List.zip_cons_cons, ih, List.map_cons]
  rw [spellSet, spellAll_eq, hzip, setOrder_map, List.map_map]
  rfl

/-! ## Equality -/

-- equality goes by kinds of values: its equations are made here, once for all the proofs
attribute [local simp] same isNumber ratio?

theorem areKeys_iff {ds : List Datum} : areKeys ds = true ↔ ∀ d ∈ ds, d.isKey = true := by
  induction ds with
  | nil => simp [areKeys]
  | cons d ds ih => simp [areKeys, ih]

theorem sameRatio_comm (x y : Int × Nat) : sameRatio x y = sameRatio y x := by
  rw [sameRatio, sameRatio]
  exact Bool.beq_comm

/-- Equality with a number that is a ratio goes both ways. -/
theorem sameNumber_comm {a : Datum} (h : (ratio? a).isSome = true) (b : Datum) :
    sameNumber a b = sameNumber b a := by
  obtain ⟨x, hx⟩ := Option.isSome_iff_exists.mp h
  unfold sameNumber
  rw [hx]
  cases ratio? b with
  | none => rfl
  | some y => exact sameRatio_comm x y

theorem same_bool (b : Bool) : same (.bool b) (.bool b) = true := by
  simp [same, isNumber, sameNumber, ratio?, sameRatio]

theorem same_int (n : Int) : same (.int n) (.int n) = true := by
  simp [same, isNumber, sameNumber, ratio?, sameRatio]

theorem sameAll_comm {as bs : List Datum} (h : ∀ a ∈ as, ∀ b, a.same b = b.same a) :
    sameAll as bs = sameAll bs as := by
  induction as generalizing bs with
  | nil => cases bs <;> simp [sameAll]
  | cons a as ih =>
      rw [List.forall_mem_cons] at h
      cases bs with
      | nil => simp [sameAll]
      | cons b bs => rw [sameAll, sameAll, h.1, ih h.2]

/-- Equality with what can be read back as a key goes both ways. -/
theorem same_comm {a : Datum} (h : a.Built) (hclean : a.IsClean) (hkey : a.isKey = true)
    (b : Datum) : a.same b = b.same a := by
  induction h generalizing b with
  | none => cases b <;> simp [same, isNumber]
  | str s => cases b <;> simp [same, isNumber, eq_comm]
  | bytes bs => cases b <;> simp [same, isNumber, eq_comm]
  | bool t => cases b <;> simp [same, isNumber, sameNumber_comm (a := .bool t) rfl]
  | @int n _ => cases b <;> simp [same, isNumber, sameNumber_comm (a := .int n) rfl]
  | tuple _ ih =>
      have hitems := areKeys_iff.1 (show areKeys _ = true from hkey)
      have hparts := (isClean_iff.1 hclean).2
      cases b with
      | tuple bs =>
          rw [same, same]
          exact sameAll_comm fun a ha b => ih a ha (hparts a ha) (hitems a ha) b
      | _ => simp [same, isNumber]
  | ellipsis | frozenset | range => exact absurd hclean (not_isClean _ rfl)
  | bytearray | list | set | dict => exact absurd hkey Bool.false_ne_true

/-! ## Collections -/

/-- Items that differ are added to a set one by one. -/
theorem foldl_addItem {seen items : List Datum} (hseen : ∀ a ∈ seen, ∀ b ∈ items, a.same b = false)
    (h : items.Pairwise fun a b => a.same b = false) :
    items.foldl addItem seen = seen ++ items := by
  induction items generalizing seen with
  | nil => rw [List.foldl_nil, List.append_nil]
  | cons d ds ih =>
      obtain ⟨hd, hds⟩ := List.pairwise_cons.mp h
      have hnew : seen.any (·.same d) = false :=
        List.any_eq_false.mpr fun a ha => by simp [hseen a ha d List.mem_cons_self]
      rw [List.foldl_cons, addItem, hnew, if_neg Bool.false_ne_true, ih ?_ hds, List.append_assoc]
      · rfl
      · intro a ha b hb
        rcases List.mem_append.mp ha with ha | ha
        · exact hseen a ha b (List.mem_cons_of_mem _ hb)
        · exact List.mem_singleton.mp ha ▸ hd b hb

/-- Keys that differ are set one by one. -/
theorem mappingOf?_eq {seen : List (Datum × Datum)} {keys values : List Datum}
    (hlength : keys.length = values.length) (hkeys : areKeys keys = true)
    (hseen : ∀ p ∈ seen, ∀ k ∈ keys, p.1.same k = false)
    (h : keys.Pairwise fun a b => a.same b = false) :
    mappingOf? keys values seen = some (.dict (seen ++ keys.zip values)) := by
  induction keys generalizing seen values with
  | nil =>
      obtain rfl := List.length_eq_zero_iff.mp hlength.symm
      rw [mappingOf?, List.zip_nil_left, List.append_nil]
  | cons k ks ih =>
      cases values with
      | nil => exact nomatch hlength
      | cons v vs =>
          obtain ⟨hk, hks⟩ := List.pairwise_cons.mp h
          obtain ⟨hkey, hmore⟩ := Bool.and_eq_true_iff.mp (show (k.isKey && areKeys ks) = true from hkeys)
          have hnew : seen.any (fun p => p.1.same k) = false :=
            List.any_eq_false.mpr fun p hp => by simp [hseen p hp k List.mem_cons_self]
          rw [mappingOf?, if_pos hkey, setItem, hnew, if_neg Bool.false_ne_true,
            ih (Nat.succ.inj hlength) hmore ?_ hks, List.append_assoc]
          · rfl
          · intro p hp b hb
            rcases List.mem_append.mp hp with hp | hp
            · exact hseen p hp b (List.mem_cons_of_mem _ hb)
            · exact List.mem_singleton.mp hp ▸ hk b hb

end Datum

end Covenant.Value
