import Covenant.Proofs.Tree.Paths
import Covenant.Proofs.Tree.Places
import Mathlib.Data.List.Perm.Basic

/-! # Nesting — the spans of a tree

    The span of a node encloses what stands in it, and two parts of one node are
    apart.  Only the nodes made for a literal are different: a constant, an
    interpolated string and a value in one have the span of the whole literal.

    * A tree is nested if this holds at every node (`Expr.Nested`).
    * Trees are laid in a stretch of text if they are nested, lie in the stretch
      and beside each other (`LaidIn`).  Stretches of text are put together from
      the left to the right (`LaidIn.append`), and a node takes a stretch as its
      span (`LaidIn.node`). -/

namespace Covenant.Tree

/-! ## Spans -/

/-- A span goes no further than another one, at both ends. -/
def Span.Inside (a b : Span) : Prop := b.start ≤ a.start ∧ a.stop ≤ b.stop

theorem Span.Inside.refl (a : Span) : a.Inside a := ⟨le_refl _, le_refl _⟩

theorem Span.Inside.trans {a b d : Span} (h : a.Inside b) (h' : b.Inside d) : a.Inside d :=
  ⟨h'.1.trans h.1, h.2.trans h'.2⟩

/-- What lies inside of spans that are apart is apart. -/
theorem Span.Apart.inside {a b a' b' : Span} (h : a.Apart b) (ha : a'.Inside a) (hb : b'.Inside b) :
    a'.Apart b' := by
  rcases h with h | h
  · exact .inl ((ha.2.trans h).trans hb.1)
  · exact .inr ((hb.2.trans h).trans ha.1)

/-! ## Trees -/

/-- Whether a node may have the span of a literal that it is a piece of. -/
def Expr.isLiteral : Expr → Bool
  | .constant .. | .compound _ .joinedStr _ | .compound _ (.formattedValue _) _ => true
  | _ => false

/-- The nodes of a tree lie in a span, pieces of literals aside. -/
def Expr.Within (r : Span) (e : Expr) : Prop :=
  ∀ n ∈ e.nodes, n.isLiteral = false → n.span.Inside r

/-- The nodes of two trees are apart, pieces of literals aside. -/
def Expr.Beside (e e' : Expr) : Prop :=
  ∀ n ∈ e.nodes, ∀ n' ∈ e'.nodes, n.isLiteral = false → n'.isLiteral = false →
    n.span.Apart n'.span

/-- At every node of a tree the parts lie beside each other, and in the span of the node unless
    that is the span of a literal. -/
structure Expr.Nested (e : Expr) : Prop where
  beside : ∀ n ∈ e.nodes, n.parts.Pairwise Expr.Beside
  within : ∀ n ∈ e.nodes, n.isLiteral = false → ∀ p ∈ n.parts, p.Within n.span

section Trees

variable {r r' : Span} {e e' p : Expr}

theorem Expr.Within.mono (h : e.Within r) (hr : r.Inside r') : e.Within r' :=
  fun n hn hown => (h n hn hown).trans hr

theorem Expr.Within.part (h : e.Within r) (hp : p ∈ e.parts) : p.Within r :=
  fun n hn => h n (mem_nodes_of_mem_parts hp hn)

theorem Expr.Beside.symm (h : e.Beside e') : e'.Beside e :=
  fun n hn n' hn' hown hown' => (h n' hn' n hn hown' hown).symm

/-- Trees in stretches that are apart lie beside each other. -/
theorem Expr.Within.beside (h : e.Within r) (h' : e'.Within r') (hapart : r.Apart r') :
    e.Beside e' :=
  fun n hn n' hn' hown hown' => hapart.inside (h n hn hown) (h' n' hn' hown')

theorem Expr.Nested.part (h : e.Nested) (hp : p ∈ e.parts) : p.Nested :=
  ⟨fun n hn => h.beside n (mem_nodes_of_mem_parts hp hn),
    fun n hn => h.within n (mem_nodes_of_mem_parts hp hn)⟩

/-- A tree is nested if its parts are, and if it is well at its root. -/
theorem nested_of_parts (hparts : ∀ p ∈ e.parts, p.Nested) (hbeside : e.parts.Pairwise Expr.Beside)
    (hwithin : e.isLiteral = false → ∀ p ∈ e.parts, p.Within e.span) : e.Nested := by
  constructor
  · intro n hn
    rcases mem_nodes_iff.mp hn with rfl | ⟨p, hp, hn⟩
    · exact hbeside
    · exact (hparts p hp).beside n hn
  · intro n hn hown
    rcases mem_nodes_iff.mp hn with rfl | ⟨p, hp, hn⟩
    · exact hwithin hown
    · exact (hparts p hp).within n hn hown

/-- **NODES ARE APART** in a nested tree if none stands inside another. -/
theorem Expr.Nested.apart (h : e.Nested) {p q : Path} {x y : Expr} (hx : e.at? p = some x)
    (hy : e.at? q = some y) (hpq : ¬ p <+: q) (hqp : ¬ q <+: p) (hxown : x.isLiteral = false)
    (hyown : y.isLiteral = false) : x.span.Apart y.span := by
  induction p generalizing e q with
  | nil => exact absurd (List.nil_prefix) hpq
  | cons i p ih =>
      cases q with
      | nil => exact absurd (List.nil_prefix) hqp
      | cons j q =>
          obtain ⟨a, ha, hx⟩ := Option.bind_eq_some_iff.mp hx
          obtain ⟨b, hb, hy⟩ := Option.bind_eq_some_iff.mp hy
          rw [List.cons_prefix_cons, not_and] at hpq hqp
          by_cases hij : i = j
          · subst hij
            obtain rfl : a = b := Option.some.inj (ha.symm.trans hb)
            exact ih (h.part (List.mem_of_getElem? ha)) hx hy (hpq rfl) (hqp rfl)
          -- the paths part here, and lead into parts that lie beside each other
          have hbeside : a.Beside b := by
            obtain ⟨hi, rfl⟩ := List.getElem?_eq_some_iff.mp ha
            obtain ⟨hj, rfl⟩ := List.getElem?_eq_some_iff.mp hb
            have hall := List.pairwise_iff_getElem.mp (h.beside e (self_mem_nodes e))
            rcases Nat.lt_or_gt_of_ne hij with hlt | hlt
            · exact hall i j hi hj hlt
            · exact (hall j i hj hi hlt).symm
          exact hbeside x (mem_nodes_of_at? hx) y (mem_nodes_of_at? hy) hxown hyown

end Trees

/-! ## Stretches of text -/

/-- Nested trees in a stretch of text, each beside the others. -/
structure LaidIn (r : Span) (es : List Expr) : Prop where
  nested : ∀ e ∈ es, e.Nested
  within : ∀ e ∈ es, e.Within r
  beside : es.Pairwise Expr.Beside

section Stretches

variable {r r' : Span} {e : Expr} {es es' : List Expr}

theorem LaidIn.nil : LaidIn r [] := ⟨nofun, nofun, .nil⟩

theorem LaidIn.mono (h : LaidIn r es) (hr : r.Inside r') : LaidIn r' es :=
  ⟨h.nested, fun e he => (h.within e he).mono hr, h.beside⟩

theorem LaidIn.perm (h : LaidIn r es) (hperm : es.Perm es') : LaidIn r es' :=
  ⟨fun e he => h.nested e (hperm.mem_iff.mpr he), fun e he => h.within e (hperm.mem_iff.mpr he),
    h.beside.perm hperm Expr.Beside.symm⟩

/-- Trees in two stretches that are apart are trees in a stretch that has both. -/
theorem LaidIn.append {q : Span} (h : LaidIn r es) (h' : LaidIn r' es') (hapart : r.Apart r')
    (hr : r.Inside q) (hr' : r'.Inside q) : LaidIn q (es ++ es') := by
  refine ⟨?_, ?_, List.pairwise_append.mpr ⟨h.beside, h'.beside, ?_⟩⟩
  · intro e he
    exact (List.mem_append.mp he).elim (h.nested e) (h'.nested e)
  · intro e he
    rcases List.mem_append.mp he with he | he
    · exact (h.within e he).mono hr
    · exact (h'.within e he).mono hr'
  · intro e he e' he'
    exact (h.within e he).beside (h'.within e' he') hapart

/-- A node whose parts lie in its span, or a literal. -/
theorem LaidIn.node (h : LaidIn r e.parts) (hspan : e.isLiteral = false → e.span = r) :
    LaidIn r [e] := by
  refine ⟨?_, ?_, List.pairwise_singleton _ _⟩
  · intro e' he
    obtain rfl := List.mem_singleton.mp he
    exact nested_of_parts h.nested h.beside fun hown => hspan hown ▸ h.within
  · intro e' he n hn hown
    obtain rfl := List.mem_singleton.mp he
    rcases mem_nodes_iff.mp hn with rfl | ⟨p, hp, hn⟩
    · exact hspan hown ▸ .refl _
    · exact h.within p hp n hn hown

/-- A constant may stand anywhere, as it has no place of its own. -/
theorem LaidIn.constant {s : Span} {v : Constant} (h : LaidIn r (es ++ es')) :
    LaidIn r (es ++ .constant s v :: es') := by
  have hnone {n : Expr} (hn : n ∈ (Expr.constant s v).nodes) : n.isLiteral ≠ false := by
    rw [mem_nodes_constant.mp hn]
    exact nofun
  have hfirst : LaidIn r (.constant s v :: (es ++ es')) := by
    refine ⟨?_, ?_, List.pairwise_cons.mpr ⟨?_, h.beside⟩⟩
    · exact List.forall_mem_cons.mpr ⟨nested_of_parts nofun .nil nofun, h.nested⟩
    · exact List.forall_mem_cons.mpr ⟨fun n hn hown => absurd hown (hnone hn), h.within⟩
    · exact fun e _ n hn n' _ hown => absurd hown (hnone hn)
  exact hfirst.perm List.perm_middle.symm

/-- A tree without parts. -/
theorem laidIn_leaf (hparts : e.parts = []) (hspan : e.isLiteral = false → e.span = r) :
    LaidIn r [e] :=
  .node (hparts ▸ .nil) hspan

end Stretches

/-! ## Trees with the same spans -/

/-- A tree has no spans but those of another, and is nested as far as that is. -/
structure Expr.Follows (e' e : Expr) : Prop where
  nested : e.Nested → e'.Nested
  spans : ∀ n' ∈ e'.nodes, n'.isLiteral = false →
    ∃ n ∈ e.nodes, n.isLiteral = false ∧ n.span = n'.span

section Follows

variable {r : Span} {e e' : Expr}

theorem Expr.Follows.refl (e : Expr) : e.Follows e :=
  ⟨id, fun n hn hown => ⟨n, hn, hown, rfl⟩⟩

theorem Expr.Follows.within (h : e'.Follows e) (he : e.Within r) : e'.Within r := by
  intro n' hn' hown'
  obtain ⟨n, hn, hown, hspan⟩ := h.spans n' hn' hown'
  exact hspan ▸ he n hn hown

/-- Of two lists in step, what stands in the first has a partner in the second. -/
theorem exists_partner {α β : Type} {R : α → β → Prop} {as : List α} {bs : List β} {a : α}
    (h : List.Forall₂ R as bs) (ha : a ∈ as) : ∃ b ∈ bs, R a b := by
  induction h with
  | nil => cases ha
  | @cons _ b _ bs hhead _ ih =>
      rcases List.mem_cons.mp ha with rfl | ha
      · exact ⟨b, List.mem_cons_self, hhead⟩
      · obtain ⟨d, hd, hr⟩ := ih ha
        exact ⟨d, List.mem_cons_of_mem b hd, hr⟩

/-- Trees with the same spans, one by one, lie beside each other alike. -/
theorem beside_of_follows {es es' : List Expr} (h : List.Forall₂ Expr.Follows es' es)
    (hall : es.Pairwise Expr.Beside) : es'.Pairwise Expr.Beside := by
  induction h with
  | nil => exact .nil
  | cons hhead htail ih =>
      obtain ⟨hfirst, hrest⟩ := List.pairwise_cons.mp hall
      refine List.pairwise_cons.mpr ⟨?_, ih hrest⟩
      intro d' hd' n' hn' m' hm' hown hown'
      obtain ⟨d, hd, hfollows⟩ := exists_partner htail hd'
      obtain ⟨n, hn, hn₁, hnspan⟩ := hhead.spans n' hn' hown
      obtain ⟨m, hm, hm₁, hmspan⟩ := hfollows.spans m' hm' hown'
      exact hnspan ▸ hmspan ▸ hfirst d hd n hn m hm hn₁ hm₁

/-- Trees may be put in the place of trees with the same spans. -/
theorem LaidIn.follow {es es' : List Expr} (h : LaidIn r es)
    (hfollows : List.Forall₂ Expr.Follows es' es) : LaidIn r es' := by
  refine ⟨?_, ?_, beside_of_follows hfollows h.beside⟩
  · intro e' he'
    obtain ⟨e, he, hfollows⟩ := exists_partner hfollows he'
    exact hfollows.nested (h.nested e he)
  · intro e' he'
    obtain ⟨e, he, hfollows⟩ := exists_partner hfollows he'
    exact hfollows.within (h.within e he)

/-- A tree has the spans of another if its parts have those of the other's parts. -/
theorem follows_of_parts (hliteral : e'.isLiteral = e.isLiteral) (hspan : e'.span = e.span)
    (hparts : List.Forall₂ Expr.Follows e'.parts e.parts) : e'.Follows e := by
  constructor
  · intro hnested
    refine nested_of_parts ?_ (beside_of_follows hparts (hnested.beside e (self_mem_nodes e))) ?_
    · intro p' hp'
      obtain ⟨p, hp, hfollows⟩ := exists_partner hparts hp'
      exact hfollows.nested (hnested.part hp)
    · intro hown p' hp'
      obtain ⟨p, hp, hfollows⟩ := exists_partner hparts hp'
      rw [hspan]
      exact hfollows.within (hnested.within e (self_mem_nodes e) (hliteral ▸ hown) p hp)
  · intro n' hn' hown
    rcases mem_nodes_iff.mp hn' with rfl | ⟨p', hp', hn'⟩
    · exact ⟨e, self_mem_nodes e, hliteral ▸ hown, hspan.symm⟩
    · obtain ⟨p, hp, hfollows⟩ := exists_partner hparts hp'
      obtain ⟨n, hn, hn₁, hnspan⟩ := hfollows.spans n' hn' hown
      exact ⟨n, mem_nodes_of_mem_parts hp hn, hn₁, hnspan⟩

end Follows

end Covenant.Tree
