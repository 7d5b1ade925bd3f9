import Covenant.Proofs.Grammar.Soundness.Members

/-! # Soundness of brackets

    Groups, displays, comprehensions, mappings and the other atoms: what is
    read between two brackets is derived between them. -/

namespace Covenant.Grammar

open Covenant.Tree Reader

variable {fit : Expr → Prop} {l : Level} {c c' : Cursor} {e : Expr}

/-! ## Brackets -/

/-- An item without a star is an expression. -/
theorem Derives.expression_of_item {ts : List Token} (h : Derives fit ts (.one .item e))
    (hstar : isStarred e = false) : Derives fit ts (.one (.rule .expression) e) := by
  cases h with
  | plain h => exact h
  | starred => exact nomatch hstar

theorem seesFor_eq_some {b : Bool} (h : seesFor c = some (b, c')) : c = c' := by
  obtain ⟨seen, d, hsees, h⟩ := bind_eq_some.mp h
  obtain ⟨rfl, -⟩ := sees_eq_some.mp hsees
  cases seen with
  | true => exact (pure_eq_some.mp h).2
  | false => exact (ahead_eq_some.mp h).1

/-- What follows the first item, up to the closing bracket. -/
theorem sound_itemsRest (hl : l.Sound fit) {closer : String} {es : List Expr}
    (h : itemsRest l closer c = some (es, c')) (hplain : ∀ e ∈ es, e.Plain fit) :
    ∃ us vs u, c.tokens = us ++ (vs ++ u :: c'.tokens) ∧
      Derives fit us (.more .comma .item es) ∧ Trail vs ∧ isOp closer u = true := by
  obtain ⟨items, d, hmany, h⟩ := bind_eq_some.mp h
  obtain ⟨b, d', htakes, h⟩ := bind_eq_some.mp h
  obtain ⟨_, d'', hop, h⟩ := bind_eq_some.mp h
  obtain ⟨rfl, rfl⟩ := pure_eq_some.mp h
  obtain ⟨us, hmore, hus⟩ := derives_more
    (fun _ _ _ => comma_member (sound_starNamedExpression hl)) (many_eq_some hmany) hplain
  obtain ⟨vs, htrail, hvs, -⟩ := trail_of_takesOp htakes
  obtain ⟨u, hu, hcloser, -⟩ := op_eq_some hop
  exact ⟨us, vs, u, by rw [hmore, htrail, hu], hus, hvs, hcloser⟩

section Bracketed

variable {d : Display} {t : Token} {start : Pos} {e' : Expr} {c₁ c₂ : Cursor}

/-- A comprehension in brackets, from its opening bracket on. -/
theorem sound_comprehension (hl : l.Sound fit) (ht : c.tokens = t :: c₁.tokens)
    (hopen : isOp d.opener t = true) (hread : starNamedExpression l c₁ = some (e', c₂))
    (h : (do
      require (!isStarred e')
      comprehensionRest l start d.comprehension [e'] d.closer : Reader Expr) c₂ = some (e, c'))
    (hplain : e.Plain fit) :
    ∃ ts, c.tokens = ts ++ c'.tokens ∧ Derives fit ts (.one (.rule .atom) e) := by
  obtain ⟨_, _, hrequire, h⟩ := bind_eq_some.mp h
  obtain ⟨hstar, rfl⟩ := require_eq_some.mp hrequire
  obtain ⟨us, u, span, gs, hus, hparts, hne, hcloser, -, rfl⟩ :=
    sound_comprehensionRest hl h hplain
  obtain ⟨ts, hts, hderives⟩ := sound_starNamedExpression hl hread
    ((all_comprehension.mp hplain).2.1 e' (List.mem_singleton.mpr rfl))
  refine ⟨t :: (ts ++ (us ++ [u])), by rw [ht, hts, hus]; simp, ?_⟩
  exact .comprehension d span hopen (hderives.expression_of_item (by simpa using hstar)) hparts hne
    hcloser

/-- A display, from its opening bracket on. -/
theorem sound_display (hl : l.Sound fit) (ht : c.tokens = t :: c₁.tokens)
    (hopen : isOp d.opener t = true) (hread : starNamedExpression l c₁ = some (e', c₂))
    (hcomma : d = .tuple → c₂.tokens.head?.any (isOp ",") = true)
    (h : (do
      let es ← itemsRest l d.closer
      pure (.compound (← spanFrom start) d.form (e' :: es)) : Reader Expr) c₂ = some (e, c'))
    (hplain : e.Plain fit) :
    ∃ ts, c.tokens = ts ++ c'.tokens ∧ Derives fit ts (.one (.rule .atom) e) := by
  obtain ⟨es, c₃, hrest, h⟩ := bind_eq_some.mp h
  obtain ⟨span, _, hspan, h⟩ := bind_eq_some.mp h
  obtain ⟨rfl, -⟩ := spanFrom_eq_some.mp hspan
  obtain ⟨rfl, rfl⟩ := pure_eq_some.mp h
  obtain ⟨hplainFirst, hplainRest⟩ := List.forall_mem_cons.mp hplain.parts
  obtain ⟨us, vs, u, hus, hmore, hvs, hcloser⟩ := sound_itemsRest hl hrest hplainRest
  obtain ⟨ts, hts, hderives⟩ := sound_starNamedExpression hl hread hplainFirst
  refine ⟨t :: (ts ++ (us ++ (vs ++ [u]))), by rw [ht, hts, hus]; simp, ?_⟩
  refine .display d span hopen hderives hmore hvs (fun hd => ?_) hcloser
  -- the comma that was seen belongs to the rest or stands last
  by_cases hes : es = []
  · subst hes hd
    cases hmore
    refine .inr fun hnil => ?_
    subst hnil
    have hseen : isOp "," u = true := by
      have hany := hcomma rfl
      rw [hus] at hany
      exact hany
    rw [isOp_of_ne (show isOp ")" u = true from hcloser) (by decide)] at hseen
    exact nomatch hseen
  · exact .inl hes

end Bracketed

theorem sound_round (hl : l.Sound fit) : Sound fit (round l) (.rule .atom) := by
  intro c e c' h hplain
  obtain ⟨start, _, hhere, h⟩ := bind_eq_some.mp h
  obtain ⟨rfl, -⟩ := here_eq_some.mp hhere
  obtain ⟨_, c₁, hop, h⟩ := bind_eq_some.mp h
  obtain ⟨t, ht, hopen, -⟩ := op_eq_some hop
  obtain ⟨b, c₂, hclose, h⟩ := bind_eq_some.mp h
  rcases takesOp_eq_some hclose with ⟨rfl, u, hu, hcloser, -⟩ | ⟨rfl, rfl⟩
  · obtain ⟨span, _, hspan, h⟩ := bind_eq_some.mp h
    obtain ⟨rfl, -⟩ := spanFrom_eq_some.mp hspan
    obtain ⟨rfl, rfl⟩ := pure_eq_some.mp h
    exact ⟨[t, u], by rw [ht, hu]; rfl, .empty .tuple span nofun hopen hcloser⟩
  obtain ⟨seen, _, hsees, h⟩ := bind_eq_some.mp h
  obtain ⟨rfl, -⟩ := sees_eq_some.mp hsees
  cases seen with
  | true =>
      obtain ⟨e', c₂, hread, h⟩ := bind_eq_some.mp h
      obtain ⟨_, c₃, -, h⟩ := bind_eq_some.mp h
      obtain ⟨rfl, -⟩ := pure_eq_some.mp h
      exact (not_plain_of_yieldExpression hread hplain).elim
  | false =>
      obtain ⟨e', c₂, hread, h⟩ := bind_eq_some.mp h
      obtain ⟨b, c₃, hclose, h⟩ := bind_eq_some.mp h
      rcases takesOp_eq_some hclose with ⟨rfl, u, hu, hcloser, -⟩ | ⟨rfl, rfl⟩
      · -- a group
        obtain ⟨_, _, hrequire, h⟩ := bind_eq_some.mp h
        obtain ⟨hstar, rfl⟩ := require_eq_some.mp hrequire
        obtain ⟨rfl, rfl⟩ := pure_eq_some.mp h
        obtain ⟨ts, hts, hderives⟩ := sound_starNamedExpression hl hread hplain
        refine ⟨t :: (ts ++ [u]), by rw [ht, hts, hu]; simp, ?_⟩
        exact .group hopen (hderives.expression_of_item (by simpa using hstar)) hcloser
      obtain ⟨isFor, _, hsees, h⟩ := bind_eq_some.mp h
      obtain rfl := seesFor_eq_some hsees
      cases isFor with
      | true => exact sound_comprehension (d := .tuple) hl ht hopen hread h hplain
      | false =>
          obtain ⟨comma, _, hsees, h⟩ := bind_eq_some.mp h
          obtain ⟨rfl, hcomma⟩ := sees_eq_some.mp hsees
          obtain ⟨_, _, hrequire, h⟩ := bind_eq_some.mp h
          obtain ⟨rfl, rfl⟩ := require_eq_some.mp hrequire
          exact sound_display (d := .tuple) hl ht hopen hread (fun _ => hcomma.symm) h hplain

theorem sound_square (hl : l.Sound fit) : Sound fit (square l) (.rule .atom) := by
  intro c e c' h hplain
  obtain ⟨start, _, hhere, h⟩ := bind_eq_some.mp h
  obtain ⟨rfl, -⟩ := here_eq_some.mp hhere
  obtain ⟨_, c₁, hop, h⟩ := bind_eq_some.mp h
  obtain ⟨t, ht, hopen, -⟩ := op_eq_some hop
  obtain ⟨b, c₂, hclose, h⟩ := bind_eq_some.mp h
  rcases takesOp_eq_some hclose with ⟨rfl, u, hu, hcloser, -⟩ | ⟨rfl, rfl⟩
  · obtain ⟨span, _, hspan, h⟩ := bind_eq_some.mp h
    obtain ⟨rfl, -⟩ := spanFrom_eq_some.mp hspan
    obtain ⟨rfl, rfl⟩ := pure_eq_some.mp h
    exact ⟨[t, u], by rw [ht, hu]; rfl, .empty .list span nofun hopen hcloser⟩
  obtain ⟨e', c₂, hread, h⟩ := bind_eq_some.mp h
  obtain ⟨isFor, _, hsees, h⟩ := bind_eq_some.mp h
  obtain rfl := seesFor_eq_some hsees
  cases isFor with
  | true => exact sound_comprehension (d := .list) hl ht hopen hread h hplain
  | false => exact sound_display (d := .list) hl ht hopen hread nofun h hplain

/-! ## Mappings -/

/-- The parts of an item of a mapping are plain. -/
def PlainPair (fit : Expr → Prop) (p : Option Expr × Expr) : Prop :=
  (∀ k ∈ p.1, k.Plain fit) ∧ p.2.Plain fit

theorem plainPairs_of_mappingOf {span : Span} {ps : List (Option Expr × Expr)}
    (h : (mappingOf span ps).Plain fit) : ∀ p ∈ ps, PlainPair fit p := by
  intro p hp
  constructor
  · intro k hk
    exact h.parts k (List.mem_append_left _ (List.mem_filterMap.mpr ⟨p, hp, hk⟩))
  · exact h.parts p.2 (List.mem_append_right _ (List.mem_map.mpr ⟨p, hp, rfl⟩))

theorem sound_mappingItem (hl : l.Sound fit) {p : Option Expr × Expr}
    (h : mappingItem l c = some (p, c')) (hplain : PlainPair fit p) :
    ∃ ts, c.tokens = ts ++ c'.tokens ∧ Derives fit ts (.pair p) := by
  obtain ⟨b, c₁, htakes, h⟩ := bind_eq_some.mp h
  rcases takesOp_eq_some htakes with ⟨rfl, t, ht, hstars, -⟩ | ⟨rfl, rfl⟩
  · obtain ⟨v, c₂, hread, h⟩ := bind_eq_some.mp h
    obtain ⟨rfl, rfl⟩ := pure_eq_some.mp h
    obtain ⟨ts, hts, hderives⟩ := hl.bitwiseOr hread hplain.2
    exact ⟨t :: ts, by rw [ht, hts]; rfl, .unpackedPair hstars hderives⟩
  · obtain ⟨k, c₂, hkey, h⟩ := bind_eq_some.mp h
    obtain ⟨_, c₃, hop, h⟩ := bind_eq_some.mp h
    obtain ⟨v, c₄, hvalue, h⟩ := bind_eq_some.mp h
    obtain ⟨rfl, rfl⟩ := pure_eq_some.mp h
    obtain ⟨ts, hts, hk⟩ := hl.expression hkey (hplain.1 k rfl)
    obtain ⟨t, ht, hcolon, -⟩ := op_eq_some hop
    obtain ⟨us, hus, hv⟩ := hl.expression hvalue hplain.2
    exact ⟨ts ++ t :: us, by rw [hts, ht, hus]; simp, .pair hk hcolon hv⟩

theorem derives_pairs (hl : l.Sound fit) {ps : List (Option Expr × Expr)}
    (h : Reads (do op ","; mappingItem l) c ps c') (hplain : ∀ p ∈ ps, PlainPair fit p) :
    ∃ ts, c.tokens = ts ++ c'.tokens ∧ Derives fit ts (.pairs ps) := by
  induction h with
  | nil => exact ⟨[], rfl, .noPairs⟩
  | cons hread _ ih =>
      rw [List.forall_mem_cons] at hplain
      obtain ⟨_, d, hop, hread⟩ := bind_eq_some.mp hread
      obtain ⟨t, ht, hcomma, -⟩ := op_eq_some hop
      obtain ⟨ts, hts, hpair⟩ := sound_mappingItem hl hread hplain.1
      obtain ⟨us, hus, hpairs⟩ := ih hplain.2
      exact ⟨t :: (ts ++ us), by rw [ht, hts, hus]; simp, .pairs hcomma hpair hpairs⟩

theorem sound_mappingRest (hl : l.Sound fit) {start : Pos} {first : Option Expr × Expr}
    (h : mappingRest l start first c = some (e, c')) (hplain : e.Plain fit) :
    ∃ us vs u span ps, c.tokens = us ++ (vs ++ u :: c'.tokens) ∧ Derives fit us (.pairs ps) ∧
      Trail vs ∧ isOp "\x7d" u = true ∧ e = mappingOf span (first :: ps) := by
  obtain ⟨items, c₁, hmany, h⟩ := bind_eq_some.mp h
  obtain ⟨b, c₂, htakes, h⟩ := bind_eq_some.mp h
  obtain ⟨_, c₃, hop, h⟩ := bind_eq_some.mp h
  obtain ⟨span, _, hspan, h⟩ := bind_eq_some.mp h
  obtain ⟨rfl, -⟩ := spanFrom_eq_some.mp hspan
  obtain ⟨rfl, rfl⟩ := pure_eq_some.mp h
  obtain ⟨us, hus, hpairs⟩ := derives_pairs hl (many_eq_some hmany)
    (List.forall_mem_cons.mp (plainPairs_of_mappingOf hplain)).2
  obtain ⟨vs, hvs, htrail, -⟩ := trail_of_takesOp htakes
  obtain ⟨u, hu, hcloser, -⟩ := op_eq_some hop
  exact ⟨us, vs, u, span, items, by rw [hus, hvs, hu], hpairs, htrail, hcloser, rfl⟩

theorem sound_curly (hl : l.Sound fit) : Sound fit (curly l) (.rule .atom) := by
  intro c e c' h hplain
  obtain ⟨start, _, hhere, h⟩ := bind_eq_some.mp h
  obtain ⟨rfl, -⟩ := here_eq_some.mp hhere
  obtain ⟨_, c₁, hop, h⟩ := bind_eq_some.mp h
  obtain ⟨t, ht, hopen, -⟩ := op_eq_some hop
  obtain ⟨b, c₂, hclose, h⟩ := bind_eq_some.mp h
  rcases takesOp_eq_some hclose with ⟨rfl, u, hu, hcloser, -⟩ | ⟨rfl, rfl⟩
  · obtain ⟨span, _, hspan, h⟩ := bind_eq_some.mp h
    obtain ⟨rfl, -⟩ := spanFrom_eq_some.mp hspan
    obtain ⟨rfl, rfl⟩ := pure_eq_some.mp h
    exact ⟨[t, u], by rw [ht, hu]; rfl, .emptyMapping span hopen hcloser⟩
  obtain ⟨stars, _, hsees, h⟩ := bind_eq_some.mp h
  obtain ⟨rfl, -⟩ := sees_eq_some.mp hsees
  cases stars with
  | true =>
      obtain ⟨first, c₂, hfirst, h⟩ := bind_eq_some.mp h
      obtain ⟨us, vs, u, span, ps, hus, hpairs, hvs, hcloser, rfl⟩ := sound_mappingRest hl h hplain
      obtain ⟨ts, hts, hpair⟩ := sound_mappingItem hl hfirst
        (plainPairs_of_mappingOf hplain first List.mem_cons_self)
      refine ⟨t :: (ts ++ (us ++ (vs ++ [u]))), by rw [ht, hts, hus]; simp, ?_⟩
      exact .mapping span hopen hpair hpairs hvs hcloser
  | false =>
      obtain ⟨naming, _, hnaming, h⟩ := bind_eq_some.mp h
      obtain ⟨rfl, -⟩ := ahead_eq_some.mp hnaming
      obtain ⟨e', c₂, hread, h⟩ := bind_eq_some.mp h
      have hitem := sound_starNamedExpression hl hread
      obtain ⟨colon, _, hsees, h⟩ := bind_eq_some.mp h
      obtain ⟨rfl, -⟩ := sees_eq_some.mp hsees
      cases colon with
      | true =>
          obtain ⟨_, _, hrequire, h⟩ := bind_eq_some.mp h
          obtain ⟨hstar, rfl⟩ := require_eq_some.mp hrequire
          obtain ⟨hstar, -⟩ := Bool.and_eq_true_iff.mp hstar
          obtain ⟨_, c₃, hop, h⟩ := bind_eq_some.mp h
          obtain ⟨m, hm, hcolon, -⟩ := op_eq_some hop
          obtain ⟨v, c₄, hvalue, h⟩ := bind_eq_some.mp h
          have hpair (hk : e'.Plain fit) (hv : v.Plain fit) :
              ∃ ts, c₁.tokens = ts ++ c₄.tokens ∧ Derives fit ts (.pair (some e', v)) := by
            obtain ⟨ts, hts, hkey⟩ := hitem hk
            obtain ⟨us, hus, hval⟩ := hl.expression hvalue hv
            exact ⟨ts ++ m :: us, by rw [hts, hm, hus]; simp,
              .pair (hkey.expression_of_item (by simpa using hstar)) hcolon hval⟩
          obtain ⟨isFor, _, hsees, h⟩ := bind_eq_some.mp h
          obtain rfl := seesFor_eq_some hsees
          cases isFor with
          | true =>
              obtain ⟨us, u, span, gs, hus, hparts, hne, hcloser, -, rfl⟩ :=
                sound_comprehensionRest hl h hplain
              have hboth := (all_comprehension.mp hplain).2.1
              obtain ⟨ts, hts, hpair⟩ := hpair (hboth e' (by simp)) (hboth v (by simp))
              refine ⟨t :: (ts ++ (us ++ [u])), by rw [ht, hts, hus]; simp, ?_⟩
              exact .mappingComprehension span hopen hpair hparts hne hcloser
          | false =>
              obtain ⟨us, vs, u, span, ps, hus, hpairs, hvs, hcloser, rfl⟩ :=
                sound_mappingRest hl h hplain
              have hfirst := plainPairs_of_mappingOf hplain (some e', v) List.mem_cons_self
              obtain ⟨ts, hts, hpair⟩ := hpair (hfirst.1 e' rfl) hfirst.2
              refine ⟨t :: (ts ++ (us ++ (vs ++ [u]))), by rw [ht, hts, hus]; simp, ?_⟩
              exact .mapping span hopen hpair hpairs hvs hcloser
      | false =>
          obtain ⟨isFor, _, hsees, h⟩ := bind_eq_some.mp h
          obtain rfl := seesFor_eq_some hsees
          cases isFor with
          | true => exact sound_comprehension (d := .set) hl ht hopen hread h hplain
          | false => exact sound_display (d := .set) hl ht hopen hread nofun h hplain

/-! ## Atoms -/

/-- Tokens read one after the other by a test. -/
theorem tokens_of_reads {test : Token → Bool} {ts : List Token}
    (h : Reads (nextIf test) c ts c') :
    c.tokens = ts ++ c'.tokens ∧ ∀ t ∈ ts, test t = true := by
  induction h with
  | nil => exact ⟨rfl, nofun⟩
  | cons hread _ ih =>
      obtain ⟨htokens, htest, -⟩ := nextIf_eq_some hread
      exact ⟨by rw [htokens, ih.1]; rfl, List.forall_mem_cons.mpr ⟨htest, ih.2⟩⟩

theorem sound_string {read : EmbeddedReader} {ts : List Token}
    (h : many1 (nextIf (·.kind = .string)) c = some (ts, c'))
    (hread : concatenated read ts = some e) (hplain : e.Plain fit) :
    c.tokens = ts ++ c'.tokens ∧ Derives fit ts (.one (.rule .atom) e) := by
  obtain ⟨t, d, hfirst, h⟩ := bind_eq_some.mp h
  obtain ⟨ts', d', hmany, h⟩ := bind_eq_some.mp h
  obtain ⟨rfl, rfl⟩ := pure_eq_some.mp h
  obtain ⟨htokens, htests⟩ := tokens_of_reads (.cons hfirst (many_eq_some hmany))
  rcases constant_of_concatenated hread with ⟨place, ps, rfl⟩ | ⟨place, constant, rfl, hconstant⟩
  · exact (not_plain rfl hplain).elim
  · exact ⟨htokens, .string place (List.cons_ne_nil t ts')
      (fun t ht => of_decide_eq_true (htests t ht)) hconstant⟩

theorem sound_atom (hl : l.Sound fit) : Sound fit (atom l) (.rule .atom) := by
  intro c e c' h hplain
  obtain ⟨t, _, hpeek, h⟩ := bind_eq_some.mp h
  obtain ⟨rfl, ts, hts⟩ := peek_eq_some.mp hpeek
  -- the token that was seen is the one that is taken
  have hnext {t' : Token} (h : c.tokens = t' :: c'.tokens) : c.tokens = [t] ++ c'.tokens := by
    rw [hts] at h ⊢
    obtain ⟨rfl, rfl⟩ := List.cons.inj h
    rfl
  cases hkind : t.kind with
  | name =>
      rw [hkind] at h
      cases hword : wordConstant t.text with
      | some constant =>
          rw [hword] at h
          obtain ⟨t', d, hnext', h⟩ := bind_eq_some.mp h
          obtain ⟨rfl, rfl⟩ := pure_eq_some.mp h
          exact ⟨[t], hnext (next_eq_some hnext').1, .word t.span hkind hword⟩
      | none =>
          rw [hword] at h
          obtain ⟨t', d, hname, h⟩ := bind_eq_some.mp h
          obtain ⟨rfl, rfl⟩ := pure_eq_some.mp h
          obtain ⟨htokens, hname⟩ := identifier_eq_some hname
          have hsame : t = t' := (List.cons.inj (hts.symm.trans htokens)).1
          exact ⟨[t], hnext htokens, .name (hsame ▸ hname)⟩
  | number =>
      rw [hkind] at h
      obtain ⟨t', d, hnext', h⟩ := bind_eq_some.mp h
      cases hnumber : numberConstant t.text.toList with
      | none =>
          rw [hnumber] at h
          exact (failure_eq_some.mp h).elim
      | some constant =>
          rw [hnumber] at h
          obtain ⟨rfl, rfl⟩ := pure_eq_some.mp h
          exact ⟨[t], hnext (next_eq_some hnext').1, .number t.span hkind hnumber⟩
  | string =>
      rw [hkind] at h
      obtain ⟨ts, d, hmany, h⟩ := bind_eq_some.mp h
      cases hread : concatenated (starExpressions l) ts with
      | none =>
          rw [hread] at h
          exact (failure_eq_some.mp h).elim
      | some e' =>
          rw [hread] at h
          obtain ⟨rfl, rfl⟩ := pure_eq_some.mp h
          exact ⟨ts, sound_string hmany hread hplain⟩
  | op =>
      rw [hkind] at h
      by_cases hround : t.text = "("
      · rw [hround] at h
        exact sound_round hl h hplain
      by_cases hsquare : t.text = "["
      · rw [hsquare] at h
        exact sound_square hl h hplain
      by_cases hcurly : t.text = "\x7b"
      · rw [hcurly] at h
        exact sound_curly hl h hplain
      by_cases hdots : t.text = "..."
      · rw [hdots] at h
        obtain ⟨t', d, hnext', h⟩ := bind_eq_some.mp h
        obtain ⟨rfl, rfl⟩ := pure_eq_some.mp h
        exact ⟨[t], hnext (next_eq_some hnext').1, .ellipsis t.span (isOp_eq_true.mpr ⟨hkind, hdots⟩)⟩
      simp only at h
      exact (failure_eq_some.mp h).elim
  | newline | indent | dedent | stop =>
      rw [hkind] at h
      exact (failure_eq_some.mp h).elim

end Covenant.Grammar
