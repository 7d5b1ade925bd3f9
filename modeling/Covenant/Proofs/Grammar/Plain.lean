import Covenant.Grammar.Expression
import Covenant.Proofs.Tree.Marks

/-! # Plain trees — trees whose forms are all read alike

    A plain tree has no assignment expression, no `await` or `yield` and no
    interpolated string, and its calls are as they are asked to be.

    * Being plain passes to the parts of a tree, one law for each constructor.
    * What an expression is used as does not matter (`all_of_asTarget`). -/

namespace Covenant.Tree

variable {P : Expr → Prop} {s : Span}

/-- Every node of a tree is as asked. -/
def Expr.All (P : Expr → Prop) (e : Expr) : Prop := ∀ n ∈ e.nodes, P n

theorem forall_preorderAll {es : List Expr} :
    (∀ n ∈ preorderAll some es, P n) ↔ ∀ e ∈ es, e.All P := by
  induction es with
  | nil => simp [preorderAll]
  | cons e es ih =>
      simp only [mem_preorderAll_cons, or_imp, forall_and, List.forall_mem_cons, ih]
      rfl

theorem forall_preorderKeywords {ks : List Keyword} :
    (∀ n ∈ preorderKeywords some ks, P n) ↔ ∀ k ∈ ks, k.value.All P := by
  induction ks with
  | nil => simp [preorderKeywords]
  | cons k ks ih =>
      obtain ⟨span, name, v⟩ := k
      simp only [mem_preorderKeywords_cons, or_imp, forall_and, List.forall_mem_cons, ih]
      rfl

/-- Every node of a `for` part is as asked. -/
def Generator.All (P : Expr → Prop) : Generator → Prop
  | .mk t i fs _ => t.All P ∧ i.All P ∧ ∀ f ∈ fs, f.All P

theorem forall_preorderGenerators {gs : List Generator} :
    (∀ n ∈ preorderGenerators some gs, P n) ↔ ∀ g ∈ gs, g.All P := by
  induction gs with
  | nil => simp [preorderGenerators]
  | cons g gs ih =>
      obtain ⟨t, i, fs, a⟩ := g
      simp only [mem_preorderGenerators_cons, or_imp, forall_and, List.forall_mem_cons, ih,
        forall_preorderAll, Generator.All, and_assoc]
      rfl

theorem Expr.All.self {e : Expr} (h : e.All P) : P e := h e (self_mem_nodes e)

theorem all_name {id : String} {a : Access} : (Expr.name s id a).All P ↔ P (.name s id a) := by
  simp [Expr.All]

theorem all_constant {c : Constant} : (Expr.constant s c).All P ↔ P (.constant s c) := by
  simp [Expr.All]

theorem all_field {v : Expr} {attr : String} {a : Access} :
    (Expr.field s v attr a).All P ↔ P (.field s v attr a) ∧ v.All P := by
  show (∀ n ∈ _, P n) ↔ _
  simp only [mem_nodes_field, or_imp, forall_and, forall_eq]
  rfl

theorem all_call {f : Expr} {as : List Expr} {ks : List Keyword} :
    (Expr.call s f as ks).All P ↔
      P (.call s f as ks) ∧ f.All P ∧ (∀ a ∈ as, a.All P) ∧ ∀ k ∈ ks, k.value.All P := by
  show (∀ n ∈ _, P n) ↔ _
  simp only [mem_nodes_call, or_imp, forall_and, forall_eq, forall_preorderAll,
    forall_preorderKeywords]
  rfl

theorem all_lambda {b : Binders} {kd ds : List Expr} {e : Expr} :
    (Expr.lambda s b kd ds e).All P ↔
      P (.lambda s b kd ds e) ∧ (∀ d ∈ kd, d.All P) ∧ (∀ d ∈ ds, d.All P) ∧ e.All P := by
  show (∀ n ∈ _, P n) ↔ _
  simp only [mem_nodes_lambda, or_imp, forall_and, forall_eq, forall_preorderAll]
  rfl

theorem all_comprehension {k : ComprehensionKind} {es : List Expr} {gs : List Generator} :
    (Expr.comprehension s k es gs).All P ↔
      P (.comprehension s k es gs) ∧ (∀ e ∈ es, e.All P) ∧ ∀ g ∈ gs, g.All P := by
  show (∀ n ∈ _, P n) ↔ _
  simp only [mem_nodes_comprehension, or_imp, forall_and, forall_eq, forall_preorderAll,
    forall_preorderGenerators]

theorem all_compound {form : Form} {ps : List Expr} :
    (Expr.compound s form ps).All P ↔ P (.compound s form ps) ∧ ∀ p ∈ ps, p.All P := by
  show (∀ n ∈ _, P n) ↔ _
  simp only [mem_nodes_compound, or_imp, forall_and, forall_eq, forall_preorderAll]

/-- The forms that conditions are made of, interpolated strings aside. -/
def Form.isPlain : Form → Bool
  | .namedExpr | .await | .yield | .yieldFrom | .joinedStr => false
  | _ => true

/-- What a plain tree asks of a node: its calls are fit, its forms plain. -/
def Expr.Fits (fit : Expr → Prop) : Expr → Prop
  | .call s f as ks => fit (.call s f as ks)
  | .compound _ form _ => form.isPlain = true
  | _ => True

/-- A tree without refused forms and interpolated strings, in which every call is fit. -/
abbrev Expr.Plain (fit : Expr → Prop) (e : Expr) : Prop := e.All (Expr.Fits fit)

theorem Expr.Plain.parts {fit : Expr → Prop} {form : Form} {ps : List Expr}
    (h : (Expr.compound s form ps).Plain fit) : ∀ p ∈ ps, p.Plain fit :=
  (all_compound.1 h).2

theorem not_plain {fit : Expr → Prop} {form : Form} {ps : List Expr} (h : form.isPlain = false) :
    ¬ (Expr.compound s form ps).Plain fit := by
  intro hplain
  have hform : form.isPlain = true := hplain.self
  rw [h] at hform
  exact nomatch hform

end Covenant.Tree

namespace Covenant.Grammar

open Covenant.Tree

variable {fit : Expr → Prop} {access : Access}

mutual

/-- A tree used as a target is plain only if it was plain before. -/
theorem plain_of_asTarget : (e : Expr) → {starAllowed : Bool} → {target : Expr} →
    Expr.asTarget access starAllowed e = some target → target.Plain fit → e.Plain fit
  | .name s id a, _, _, _, _ => all_name.2 trivial
  | .constant .., _, _, h, _ => nomatch h
  | .field s v n a, _, _, h, hplain => by
      obtain rfl := Option.some.inj h
      exact all_field.2 ⟨trivial, (all_field.1 hplain).2⟩
  | .call .., _, _, h, _ => nomatch h
  | .lambda .., _, _, h, _ => nomatch h
  | .comprehension .., _, _, h, _ => nomatch h
  | .compound s form ps, starAllowed, target, h, hplain => by
      rw [Expr.asTarget.eq_def] at h
      split at h
      case h_1 heq => exact nomatch heq
      case h_2 heq => exact nomatch heq
      case h_3 s' a ps' heq =>
        obtain ⟨rfl, rfl, rfl⟩ := Expr.compound.inj heq
        obtain rfl := Option.some.inj h
        exact all_compound.2 ⟨rfl, hplain.parts⟩
      case h_4 s' a e heq =>
        obtain ⟨rfl, rfl, rfl⟩ := Expr.compound.inj heq
        split at h
        · split at h
          · exact nomatch h
          · obtain ⟨e', he, rfl⟩ := Option.map_eq_some_iff.mp h
            have hpart : e.Plain fit :=
              plain_of_asTarget e he (hplain.parts e' (List.mem_singleton.mpr rfl))
            refine all_compound.2 ⟨rfl, fun p hp => ?_⟩
            rw [List.mem_singleton.mp hp]
            exact hpart
        · exact nomatch h
      case h_5 s' a ps' heq =>
        obtain ⟨rfl, rfl, rfl⟩ := Expr.compound.inj heq
        obtain ⟨ps', hps, rfl⟩ := Option.map_eq_some_iff.mp h
        exact all_compound.2 ⟨rfl, plain_of_targets ps hps hplain.parts⟩
      case h_6 s' a ps' heq =>
        obtain ⟨rfl, rfl, rfl⟩ := Expr.compound.inj heq
        obtain ⟨ps', hps, rfl⟩ := Option.map_eq_some_iff.mp h
        exact all_compound.2 ⟨rfl, plain_of_targets ps hps hplain.parts⟩
      case h_7 => exact nomatch h

theorem plain_of_targets : (es : List Expr) → {targets : List Expr} →
    Expr.asTarget.targets access es = some targets → (∀ t ∈ targets, t.Plain fit) →
    ∀ e ∈ es, e.Plain fit
  | [], _, _, _ => nofun
  | e :: es, _, h, hplain => by
      rw [Expr.asTarget.targets] at h
      obtain ⟨t, ht, h⟩ := Option.bind_eq_some_iff.mp h
      obtain ⟨ts, hts, h⟩ := Option.bind_eq_some_iff.mp h
      obtain rfl := Option.some.inj h
      rw [List.forall_mem_cons] at hplain ⊢
      exact ⟨plain_of_asTarget e ht hplain.1, plain_of_targets es hts hplain.2⟩

end

end Covenant.Grammar
