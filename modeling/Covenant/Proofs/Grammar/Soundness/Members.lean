import Covenant.Proofs.Grammar.Heads
import Covenant.Proofs.Grammar.Literals
import Covenant.Proofs.Grammar.Plain
import Covenant.Proofs.Grammar.Reading

/-! # Soundness of lists

    Every reader takes tokens from the front of what is left; if the tree it
    gives is plain, the grammar derives the tree from the tokens taken
    (`Sound`).  Here are the readers of lists, of expressions that may be named
    or starred, and of the parts of comprehensions. -/

namespace Covenant.Grammar

open Covenant.Tree Reader

variable {fit : Expr → Prop} {l : Level} {c c' : Cursor} {e : Expr}

/-- What a reader gives is derived from the tokens it takes, where it is plain. -/
def Sound (fit : Expr → Prop) (p : Reader Expr) (k : Kind) : Prop :=
  ∀ ⦃c e c'⦄, p c = some (e, c') → e.Plain fit →
    ∃ ts, c.tokens = ts ++ c'.tokens ∧ Derives fit ts (.one k e)

/-- The readers of a level are sound. -/
structure Level.Sound (fit : Expr → Prop) (l : Level) : Prop where
  expression : Grammar.Sound fit l.expression (.rule .expression)
  disjunction : Grammar.Sound fit l.disjunction (.rule .disjunction)
  inversion : Grammar.Sound fit l.inversion (.rule .inversion)
  bitwiseOr : Grammar.Sound fit l.bitwiseOr (.rule .bitOr)
  factor : Grammar.Sound fit l.factor (.rule .factor)

theorem Sound.outer {p : Reader Expr} {r : Rule} (h : Sound fit p (.rule r)) {c c' : Cursor}
    {e : Expr} (hread : p c = some (e, c')) (hplain : e.Plain fit) :
    ∃ ts, c.tokens = ts ++ c'.tokens ∧ Derives fit ts (.one (.rule r.outer) e) := by
  obtain ⟨ts, htokens, hts⟩ := h hread hplain
  exact ⟨ts, htokens, .outer hts⟩

/-! ## Lists -/

/-- A reader of separators and members gives members behind separators. -/
theorem derives_more {p : Reader Expr} {sep : Separator} {k : Kind} {es : List Expr}
    (hp : ∀ ⦃c e c'⦄, p c = some (e, c') → e.Plain fit → ∃ t ts,
      c.tokens = t :: (ts ++ c'.tokens) ∧ sep.test t = true ∧ Derives fit ts (.one k e))
    (h : Reads p c es c') (hplain : ∀ e ∈ es, e.Plain fit) :
    ∃ ts, c.tokens = ts ++ c'.tokens ∧ Derives fit ts (.more sep k es) := by
  induction h with
  | nil => exact ⟨[], rfl, .noMore⟩
  | cons hread _ ih =>
      rw [List.forall_mem_cons] at hplain
      obtain ⟨t, ts, htokens, hsep, hts⟩ := hp hread hplain.1
      obtain ⟨us, hmore, hus⟩ := ih hplain.2
      refine ⟨t :: (ts ++ us), ?_, .more hsep hts hus⟩
      rw [htokens, hmore, List.cons_append, List.append_assoc]

/-- A comma in front of a member. -/
theorem comma_member {p : Reader Expr} {k : Kind} (hp : Sound fit p k)
    (h : (do op ","; p : Reader Expr) c = some (e, c')) (hplain : e.Plain fit) : ∃ t ts,
      c.tokens = t :: (ts ++ c'.tokens) ∧ Separator.comma.test t = true ∧
        Derives fit ts (.one k e) := by
  obtain ⟨_, d, hop, h⟩ := bind_eq_some.mp h
  obtain ⟨t, htokens, hcomma, -⟩ := op_eq_some hop
  obtain ⟨ts, hrest, hts⟩ := hp h hplain
  exact ⟨t, ts, by rw [htokens, hrest], hcomma, hts⟩

/-- A word in front of a member. -/
theorem word_member {p : Reader Expr} {k : Kind} {w : String} (hp : Sound fit p k)
    (h : (do word w; p : Reader Expr) c = some (e, c')) (hplain : e.Plain fit) : ∃ t ts,
      c.tokens = t :: (ts ++ c'.tokens) ∧ (Separator.word w).test t = true ∧
        Derives fit ts (.one k e) := by
  obtain ⟨_, d, hword, h⟩ := bind_eq_some.mp h
  obtain ⟨t, htokens, hw⟩ := word_eq_some hword
  obtain ⟨ts, hrest, hts⟩ := hp h hplain
  exact ⟨t, ts, by rw [htokens, hrest], hw, hts⟩

/-- A comma that may be taken is a trail. -/
theorem trail_of_takesOp {b : Bool} (h : takesOp "," c = some (b, c')) :
    ∃ ts, c.tokens = ts ++ c'.tokens ∧ Trail ts ∧ (b = true ↔ ts ≠ []) := by
  rcases takesOp_eq_some h with ⟨rfl, t, htokens, hcomma, -⟩ | ⟨rfl, rfl⟩
  · exact ⟨[t], htokens, .comma hcomma, by simp⟩
  · exact ⟨[], rfl, .none, by simp⟩

/-- Items between commas, and whether a comma comes last. -/
theorem derives_commaList {p : Reader Expr} {k : Kind} {es : List Expr} {b : Bool}
    (hp : Sound fit p k) (h : commaList p c = some ((es, b), c'))
    (hplain : ∀ e ∈ es, e.Plain fit) :
    ∃ e es' ts us vs, es = e :: es' ∧ c.tokens = ts ++ (us ++ (vs ++ c'.tokens)) ∧
      Derives fit ts (.one k e) ∧ Derives fit us (.more .comma k es') ∧ Trail vs ∧
        (b = true ↔ vs ≠ []) := by
  obtain ⟨items, d, hseparated, h⟩ := bind_eq_some.mp h
  obtain ⟨e, d₁, hfirst, hseparated⟩ := bind_eq_some.mp hseparated
  obtain ⟨es', d₂, hmany, hseparated⟩ := bind_eq_some.mp hseparated
  obtain ⟨rfl, rfl⟩ := pure_eq_some.mp hseparated
  obtain ⟨b', d₃, htakes, h⟩ := bind_eq_some.mp h
  obtain ⟨hpair, rfl⟩ := pure_eq_some.mp h
  obtain ⟨rfl, rfl⟩ := Prod.mk.inj hpair
  rw [List.forall_mem_cons] at hplain
  obtain ⟨ts, htokens, hts⟩ := hp hfirst hplain.1
  obtain ⟨us, hmore, hus⟩ :=
    derives_more (fun _ _ _ => comma_member hp) (many_eq_some hmany) hplain.2
  obtain ⟨vs, htrail, hvs, hb⟩ := trail_of_takesOp htakes
  exact ⟨e, es', ts, us, vs, rfl, by rw [htokens, hmore, htrail], hts, hus, hvs, hb⟩

theorem tupleUnlessSingle_eq_some {start : Pos} {es : List Expr} {b : Bool}
    (h : tupleUnlessSingle start (es, b) c = some (e, c')) :
    c = c' ∧ (es = [e] ∧ b = false ∨
      ∃ span, e = .compound span (.tuple .load) es ∧ (b = true ∨ es.length ≠ 1)) := by
  have htuple {es : List Expr}
      (h : (spanFrom start >>= fun span => pure (.compound span (.tuple .load) es)) c
        = some (e, c')) : c = c' ∧ ∃ span, e = .compound span (.tuple .load) es := by
    obtain ⟨span, d, hspan, h⟩ := bind_eq_some.mp h
    obtain ⟨rfl, -⟩ := spanFrom_eq_some.mp hspan
    obtain ⟨rfl, rfl⟩ := pure_eq_some.mp h
    exact ⟨rfl, span, rfl⟩
  match es, b, h with
  | [e'], false, h =>
      obtain ⟨rfl, rfl⟩ := pure_eq_some.mp h
      exact ⟨rfl, .inl ⟨rfl, rfl⟩⟩
  | [_], true, h =>
      obtain ⟨hc, span, he⟩ := htuple h
      exact ⟨hc, .inr ⟨span, he, .inl rfl⟩⟩
  | [], _, h =>
      obtain ⟨hc, span, he⟩ := htuple h
      exact ⟨hc, .inr ⟨span, he, .inr (by simp)⟩⟩
  | _ :: _ :: _, _, h =>
      obtain ⟨hc, span, he⟩ := htuple h
      exact ⟨hc, .inr ⟨span, he, .inr (by simp)⟩⟩

/-- A tree, or a tuple of several. -/
theorem derives_several {p : Reader Expr} {k : Kind} {start : Pos}
    (hp : Sound fit p k) (hk : k ≠ .index)
    (h : (do tupleUnlessSingle start (← commaList p) : Reader Expr) c = some (e, c'))
    (hplain : e.Plain fit) :
    ∃ ts, c.tokens = ts ++ c'.tokens ∧ Derives fit ts (.several k e) := by
  obtain ⟨⟨es, b⟩, d, hlist, h⟩ := bind_eq_some.mp h
  obtain ⟨rfl, ⟨rfl, rfl⟩ | ⟨span, rfl, htuple⟩⟩ := tupleUnlessSingle_eq_some h
  · obtain ⟨f, es', ts, us, vs, hes, htokens, hts, hus, hvs, hb⟩ :=
      derives_commaList hp hlist (by simpa using hplain)
    obtain ⟨rfl, rfl⟩ := List.cons.inj hes
    cases hus
    have hnil : vs = [] := by simpa using hb
    subst hnil
    exact ⟨ts, htokens, .single hts (fun h => (hk h).elim)⟩
  · obtain ⟨f, es', ts, us, vs, rfl, htokens, hts, hus, hvs, hb⟩ :=
      derives_commaList hp hlist hplain.parts
    refine ⟨ts ++ (us ++ vs), by rw [htokens, List.append_assoc, List.append_assoc],
      .several span hts hus hvs ?_⟩
    rcases htuple with htuple | htuple
    · exact .inr (.inl (hb.mp htuple))
    · exact .inl fun hnil => htuple (by rw [hnil]; rfl)

/-! ## Expressions that may be named or starred -/

theorem sound_namedExpression (hl : l.Sound fit) :
    Sound fit (namedExpression l) (.rule .expression) := by
  intro c e c' h hplain
  obtain ⟨start, d, hhere, h⟩ := bind_eq_some.mp h
  obtain ⟨rfl, -⟩ := here_eq_some.mp hhere
  obtain ⟨e', d, hread, h⟩ := bind_eq_some.mp h
  -- a name with a value would not be plain
  have hsame : e' = e ∧ d = c' := by
    split at h
    · obtain ⟨seen, d', hsees, h⟩ := bind_eq_some.mp h
      obtain ⟨rfl, -⟩ := sees_eq_some.mp hsees
      split at h
      · obtain ⟨_, _, -, h⟩ := bind_eq_some.mp h
        obtain ⟨_, _, -, h⟩ := bind_eq_some.mp h
        obtain ⟨_, _, -, h⟩ := bind_eq_some.mp h
        obtain ⟨rfl, -⟩ := pure_eq_some.mp h
        exact (not_plain rfl hplain).elim
      · exact pure_eq_some.mp h
    · exact pure_eq_some.mp h
  obtain ⟨rfl, rfl⟩ := hsame
  exact hl.expression hread hplain

theorem sound_starred {p : Reader Expr} {r : Rule} {k : Kind} (hp : Sound fit p (.rule r))
    (hk : k.starred = some r) : Sound fit (starred p) k := by
  intro c e c' h hplain
  obtain ⟨start, d, hhere, h⟩ := bind_eq_some.mp h
  obtain ⟨rfl, -⟩ := here_eq_some.mp hhere
  obtain ⟨_, d, hop, h⟩ := bind_eq_some.mp h
  obtain ⟨t, htokens, hstar, -⟩ := op_eq_some hop
  obtain ⟨e', d', hread, h⟩ := bind_eq_some.mp h
  obtain ⟨span, d', hspan, h⟩ := bind_eq_some.mp h
  obtain ⟨rfl, -⟩ := spanFrom_eq_some.mp hspan
  obtain ⟨rfl, rfl⟩ := pure_eq_some.mp h
  obtain ⟨ts, hrest, hts⟩ := hp hread (hplain.parts e' (List.mem_singleton.mpr rfl))
  exact ⟨t :: ts, by rw [htokens, hrest, List.cons_append], .starred span hk hstar hts⟩

/-- A member is read with its star, or as it stands. -/
theorem sound_member {p q : Reader Expr} {r : Rule} {k : Kind} (hp : Sound fit p (.rule r))
    (hk : k.starred = some r) (hq : Sound fit q (.rule k.base)) :
    Sound fit (do if ← seesOp "*" then starred p else q) k := by
  intro c e c' h hplain
  obtain ⟨seen, d, hsees, h⟩ := bind_eq_some.mp h
  obtain ⟨rfl, -⟩ := sees_eq_some.mp hsees
  split at h
  · exact sound_starred hp hk h hplain
  · obtain ⟨ts, htokens, hts⟩ := hq h hplain
    exact ⟨ts, htokens, .plain hts⟩

theorem sound_starNamedExpression (hl : l.Sound fit) : Sound fit (starNamedExpression l) .item :=
  sound_member hl.bitwiseOr rfl (sound_namedExpression hl)

theorem sound_expressions (hl : l.Sound fit) (h : expressions l c = some (e, c'))
    (hplain : e.Plain fit) :
    ∃ ts, c.tokens = ts ++ c'.tokens ∧ Derives fit ts (.several (.rule .expression) e) := by
  obtain ⟨start, d, hhere, h⟩ := bind_eq_some.mp h
  obtain ⟨rfl, -⟩ := here_eq_some.mp hhere
  exact derives_several hl.expression nofun h hplain

/-- What a `yield` gives is not plain. -/
theorem not_plain_of_yieldExpression (h : yieldExpression l c = some (e, c')) :
    ¬ e.Plain fit := by
  obtain ⟨start, _, -, h⟩ := bind_eq_some.mp h
  obtain ⟨_, _, -, h⟩ := bind_eq_some.mp h
  obtain ⟨isFrom, _, -, h⟩ := bind_eq_some.mp h
  split at h
  · obtain ⟨_, _, -, h⟩ := bind_eq_some.mp h
    obtain ⟨_, _, -, h⟩ := bind_eq_some.mp h
    obtain ⟨rfl, -⟩ := pure_eq_some.mp h
    exact not_plain rfl
  · obtain ⟨o, _, -, h⟩ := bind_eq_some.mp h
    cases o with
    | none =>
        obtain ⟨_, _, -, h⟩ := bind_eq_some.mp h
        obtain ⟨rfl, -⟩ := pure_eq_some.mp h
        exact not_plain rfl
    | some =>
        obtain ⟨_, _, -, h⟩ := bind_eq_some.mp h
        obtain ⟨rfl, -⟩ := pure_eq_some.mp h
        exact not_plain rfl

/-! ## Comprehensions -/

theorem useAs_eq_some {access : Access} {starAllowed : Bool} {target : Expr}
    (h : useAs access starAllowed e c = some (target, c')) :
    Expr.asTarget access starAllowed e = some target ∧ c = c' := by
  rw [useAs] at h
  cases htarget : Expr.asTarget access starAllowed e with
  | none =>
      rw [htarget] at h
      exact (failure_eq_some.mp h).elim
  | some e' =>
      rw [htarget] at h
      obtain ⟨rfl, rfl⟩ := pure_eq_some.mp h
      exact ⟨rfl, rfl⟩

theorem sound_starTargets (hl : l.Sound fit) (h : starTargets l c = some (e, c'))
    (hplain : e.Plain fit) :
    ∃ ts e', c.tokens = ts ++ c'.tokens ∧ Derives fit ts (.several .target e') ∧
      Expr.asTarget .store true e' = some e := by
  obtain ⟨start, d, hhere, h⟩ := bind_eq_some.mp h
  obtain ⟨rfl, -⟩ := here_eq_some.mp hhere
  obtain ⟨items, d, hlist, h⟩ := bind_eq_some.mp h
  obtain ⟨e', d', htuple, h⟩ := bind_eq_some.mp h
  obtain ⟨htarget, rfl⟩ := useAs_eq_some h
  have hmember : Sound fit (do if ← seesOp "*" then starred l.bitwiseOr else l.bitwiseOr) .target :=
    sound_member hl.bitwiseOr rfl hl.bitwiseOr
  obtain ⟨ts, htokens, hts⟩ := derives_several hmember nofun
    (bind_eq_some.mpr ⟨items, d, hlist, htuple⟩) (plain_of_asTarget e' htarget hplain)
  exact ⟨ts, e', htokens, hts, htarget⟩

theorem sound_forPart (hl : l.Sound fit) {g : Generator} (h : forPart l c = some (g, c'))
    (hplain : g.All (Expr.Fits fit)) : ∃ ts, c.tokens = ts ++ c'.tokens ∧
      ∀ us gs, Derives fit us (.parts gs) → Derives fit (ts ++ us) (.parts (g :: gs)) := by
  obtain ⟨isAsync, c₁, hasync, h⟩ := bind_eq_some.mp h
  obtain ⟨_, c₂, hfor, h⟩ := bind_eq_some.mp h
  obtain ⟨target, c₃, htarget, h⟩ := bind_eq_some.mp h
  obtain ⟨_, c₄, hin, h⟩ := bind_eq_some.mp h
  obtain ⟨iter, c₅, hiter, h⟩ := bind_eq_some.mp h
  obtain ⟨filters, c₆, hfilters, h⟩ := bind_eq_some.mp h
  obtain ⟨rfl, rfl⟩ := pure_eq_some.mp h
  obtain ⟨hplainTarget, hplainIter, hplainFilters⟩ := hplain
  have hlead : ∃ as, c.tokens = as ++ c₁.tokens ∧ Leads as isAsync := by
    rcases takesWord_eq_some hasync with ⟨rfl, a, htokens, ha⟩ | ⟨rfl, rfl⟩
    · exact ⟨[a], htokens, .async ha⟩
    · exact ⟨[], rfl, .none⟩
  obtain ⟨as, has, hlead⟩ := hlead
  obtain ⟨t, ht, hforTest⟩ := word_eq_some hfor
  obtain ⟨ts, e', hts, hderives, hasTarget⟩ := sound_starTargets hl htarget hplainTarget
  obtain ⟨u, hu, hinTest⟩ := word_eq_some hin
  obtain ⟨us, hus, hiterDerives⟩ := hl.disjunction hiter hplainIter
  obtain ⟨vs, hvs, hmore⟩ := derives_more (k := .rule .disjunction)
    (fun _ _ _ => word_member hl.disjunction) (many_eq_some hfilters) hplainFilters
  refine ⟨as ++ t :: (ts ++ u :: (us ++ vs)), ?_, fun ws gs hws => ?_⟩
  · rw [has, ht, hts, hu, hus, hvs]
    simp only [List.append_assoc, List.cons_append]
  · have hpart := Derives.part hlead hforTest hderives hasTarget hinTest hiterDerives hmore hws
    simpa only [List.append_assoc, List.cons_append] using hpart

theorem derives_parts (hl : l.Sound fit) {gs : List Generator} (h : Reads (forPart l) c gs c')
    (hplain : ∀ g ∈ gs, g.All (Expr.Fits fit)) :
    ∃ ts, c.tokens = ts ++ c'.tokens ∧ Derives fit ts (.parts gs) := by
  induction h with
  | nil => exact ⟨[], rfl, .noParts⟩
  | cons hread _ ih =>
      rw [List.forall_mem_cons] at hplain
      obtain ⟨ts, htokens, hpart⟩ := sound_forPart hl hread hplain.1
      obtain ⟨us, hmore, hus⟩ := ih hplain.2
      exact ⟨ts ++ us, by rw [htokens, hmore, List.append_assoc], hpart us _ hus⟩

theorem sound_forParts (hl : l.Sound fit) {gs : List Generator}
    (h : forParts l c = some (gs, c')) (hplain : ∀ g ∈ gs, g.All (Expr.Fits fit)) :
    ∃ ts, c.tokens = ts ++ c'.tokens ∧ Derives fit ts (.parts gs) ∧ gs ≠ [] := by
  obtain ⟨g, d, hfirst, h⟩ := bind_eq_some.mp h
  obtain ⟨gs', d', hmany, h⟩ := bind_eq_some.mp h
  obtain ⟨rfl, rfl⟩ := pure_eq_some.mp h
  obtain ⟨ts, htokens, hts⟩ := derives_parts hl (.cons hfirst (many_eq_some hmany)) hplain
  exact ⟨ts, htokens, hts, List.cons_ne_nil g gs'⟩

theorem sound_comprehensionRest (hl : l.Sound fit) {start : Pos} {k : ComprehensionKind}
    {es : List Expr} {closer : String}
    (h : comprehensionRest l start k es closer c = some (e, c')) (hplain : e.Plain fit) :
    ∃ ts u span gs, c.tokens = ts ++ u :: c'.tokens ∧ Derives fit ts (.parts gs) ∧ gs ≠ [] ∧
      isOp closer u = true ∧ c'.lastStop = u.span.stop ∧ e = .comprehension span k es gs := by
  obtain ⟨gs, d, hparts, h⟩ := bind_eq_some.mp h
  obtain ⟨_, d', hop, h⟩ := bind_eq_some.mp h
  obtain ⟨span, d'', hspan, h⟩ := bind_eq_some.mp h
  obtain ⟨rfl, -⟩ := spanFrom_eq_some.mp hspan
  obtain ⟨rfl, rfl⟩ := pure_eq_some.mp h
  obtain ⟨ts, htokens, hts, hne⟩ := sound_forParts hl hparts (all_comprehension.mp hplain).2.2
  obtain ⟨u, hu, hcloser, hstop⟩ := op_eq_some hop
  exact ⟨ts, u, span, gs, by rw [htokens, hu], hts, hne, hcloser, hstop, rfl⟩

end Covenant.Grammar
