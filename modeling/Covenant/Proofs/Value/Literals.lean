import Covenant.Proofs.Grammar.Derivation
import Covenant.Proofs.Grammar.Shape
import Covenant.Value.Constant

/-! # Literals — the value of a literal does not hang on its place

    Trees of one shape are the same literal (`literal?_congr`), wherever they
    were read.  A display and a mapping are made from the literals in them
    (`literal?_display`, `literal?_mappingOf`). -/

namespace Covenant.Value

open Grammar Covenant.Tree

variable {e f : Expr}

theorem number?_unplaced (e : Expr) : number? e.unplaced = number? e := by
  cases e <;> rfl

theorem signedNumber?_unplaced (e : Expr) : signedNumber? e.unplaced = signedNumber? e := by
  cases e with
  | compound s form ps =>
      cases form with
      | unaryOp op =>
          cases op with
          | plus | minus =>
              rcases ps with _ | ⟨e, _ | ⟨e', ps⟩⟩
              · rfl
              · exact congrArg (Option.bind · _) (number?_unplaced e)
              · rfl
          | _ => rfl
      | _ => rfl
  | _ => rfl

theorem sum?_unplaced (minus : Bool) (l r : Expr) :
    sum? minus l.unplaced r.unplaced = sum? minus l r := by
  rw [sum?, sum?, signedNumber?_unplaced, number?_unplaced]

/-- Of all calls only that of the empty set is a literal. -/
theorem literal?_call_eq_none {s : Span} {f : Expr} {as : List Expr} {ks : List Keyword}
    (h : ∀ p a, f = .name p "set" a → as = [] → ks ≠ []) :
    literal? (.call s f as ks) = none := by
  rw [literal?.eq_def]
  split
  case h_6 heq =>
      obtain ⟨-, rfl, rfl, rfl⟩ := Expr.call.inj heq
      exact absurd rfl (h _ _ rfl rfl)
  case h_11 => rfl
  all_goals
    rename_i heq
    cases heq

mutual

theorem literal?_unplaced : (e : Expr) → literal? e.unplaced = literal? e
  | .name .. => rfl
  | .constant .. => rfl
  | .field .. => rfl
  | .lambda .. => rfl
  | .comprehension .. => rfl
  | .call s f as ks => by
      rw [unplaced_call]
      by_cases hset : (∃ p a, f = .name p "set" a) ∧ as = [] ∧ ks = []
      · obtain ⟨⟨p, a, rfl⟩, rfl, rfl⟩ := hset
        rfl
      · have hnone (p a) (hf : f = .name p "set" a) (has : as = []) : ks ≠ [] := fun hks =>
          hset ⟨⟨p, a, hf⟩, has, hks⟩
        rw [literal?_call_eq_none hnone, literal?_call_eq_none]
        intro p a hf has hks
        have hname : f.SameShape (.name p "set" a) := by
          rw [Expr.SameShape, hf]
          cases f <;> simp_all [Expr.unplaced]
        obtain ⟨p', rfl⟩ := exists_name_of_sameShape hname
        exact hnone p' a rfl (List.map_eq_nil_iff.mp has) (List.map_eq_nil_iff.mp hks)
  | .compound s form ps => by
      have hparts := literals?_unplaced ps
      show literal? (.compound nowhere form (unplacedAll ps)) = _
      cases form with
      | tuple | list | set => rw [literal?, literal?, hparts]
      | dict keyed => rw [literal?, literal?, hparts]
      | binOp op =>
          cases op with
          | add | sub =>
              rcases ps with _ | ⟨l, _ | ⟨r, _ | ⟨_, ps⟩⟩⟩
              · rfl
              · rfl
              · exact sum?_unplaced _ l r
              · rfl
          | _ => rfl
      | unaryOp op =>
          cases op with
          | plus | minus =>
              rcases ps with _ | ⟨e, _ | ⟨_, ps⟩⟩
              · rfl
              · exact congrArg (Option.bind · _) (number?_unplaced e)
              · rfl
          | _ => rfl
      | _ => rfl

theorem literals?_unplaced : (es : List Expr) → literals? (unplacedAll es) = literals? es
  | [] => rfl
  | e :: es => by
      rw [unplacedAll, literals?, literals?, literal?_unplaced e, literals?_unplaced es]

end

/-- **LITERALS** of one shape have one value. -/
theorem literal?_congr (h : e.SameShape f) : literal? e = literal? f := by
  have h : e.unplaced = f.unplaced := h
  rw [← literal?_unplaced e, h, literal?_unplaced f]

/-! ## Collections -/

/-- The value of a display of values. -/
def displayed? : Display → List Datum → Option Datum
  | .tuple, ds => some (.tuple ds)
  | .list, ds => some (.list ds)
  | .set, ds => setOf? ds

theorem literal?_display (d : Display) (span : Span) (es : List Expr) :
    literal? (.compound span d.form es) = (literals? es).bind (displayed? d) := by
  cases d with
  | tuple | list => cases hes : literals? es <;> simp [Display.form, literal?, hes, displayed?]
  | set =>
      rw [Display.form, literal?]
      rfl

theorem literals?_append (es fs : List Expr) : literals? (es ++ fs)
    = (literals? es).bind fun ds => (literals? fs).map (ds ++ ·) := by
  induction es with
  | nil => cases hfs : literals? fs <;> simp [literals?, hfs]
  | cons e es ih =>
      rw [List.cons_append, literals?, literals?, ih]
      cases literal? e with
      | none => rfl
      | some d =>
          cases literals? es with
          | none => rfl
          | some ds => cases literals? fs <;> rfl

theorem length_of_literals? {es : List Expr} {ds : List Datum} (h : literals? es = some ds) :
    ds.length = es.length := by
  induction es generalizing ds with
  | nil =>
      obtain rfl := Option.some.inj h
      rfl
  | cons e es ih =>
      rw [literals?] at h
      obtain ⟨d, -, h⟩ := Option.bind_eq_some_iff.mp h
      obtain ⟨more, hmore, h⟩ := Option.bind_eq_some_iff.mp h
      obtain rfl := Option.some.inj h
      rw [List.length_cons, List.length_cons, ih hmore]

theorem literal?_mappingOf (span : Span) (ps : List (Expr × Expr)) :
    literal? (mappingOf span (ps.map fun p => (some p.1, p.2)))
      = (literals? (ps.map (·.1))).bind fun ks =>
          (literals? (ps.map (·.2))).bind fun vs => mappingOf? ks vs [] := by
  have hkeyed : ((ps.map fun p : Expr × Expr => (some p.1, p.2)).map (·.1.isSome)).all id = true := by
    simp
  have hkeys : (ps.map fun p : Expr × Expr => (some p.1, p.2)).filterMap (·.1) = ps.map (·.1) := by
    rw [List.filterMap_map]
    show ps.filterMap (some ∘ Prod.fst) = _
    rw [List.filterMap_eq_map]
  have hvalues : (ps.map fun p : Expr × Expr => (some p.1, p.2)).map (·.2) = ps.map (·.2) := by
    simp [Function.comp_def]
  rw [mappingOf, hkeys, hvalues, literal?, if_pos hkeyed, literals?_append]
  cases hks : literals? (ps.map (·.1)) with
  | none => rfl
  | some ks =>
      have hlength : ks.length = ps.length := by
        rw [length_of_literals? hks, List.length_map]
      cases literals? (ps.map (·.2)) with
      | none => rfl
      | some vs => simp [← hlength]

end Covenant.Value
