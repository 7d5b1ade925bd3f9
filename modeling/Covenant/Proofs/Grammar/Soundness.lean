import Covenant.Proofs.Grammar.Soundness.Operators

/-! # Soundness — what is read is derived

    If a reader gives a plain tree, the grammar derives the tree from the
    tokens taken.

    * There is one law for each reader, for a level whose own readers are sound
      (`Level.Sound`); here are the laws of `lambda`s and of expressions.
    * All levels are sound, by induction on the number of nestings
      (`sound_level`). -/

namespace Covenant.Grammar

open Covenant.Tree Reader

variable {fit : Expr → Prop} {l : Level} {c c' : Cursor} {e : Expr}

/-! ## Parameters -/

/-- The defaults of an entry are plain. -/
def PlainEntry (fit : Expr → Prop) : Entry → Prop
  | .plain _ (some d) => d.Plain fit
  | _ => True

theorem sound_binder {b : Binder} (h : binder c = some (b, c')) :
    ∃ t, c.tokens = t :: c'.tokens ∧ isIdentifier t = true ∧ b = ⟨t.span, t.text⟩ := by
  obtain ⟨t, d, hname, h⟩ := bind_eq_some.mp h
  obtain ⟨rfl, rfl⟩ := pure_eq_some.mp h
  obtain ⟨ht, hname⟩ := identifier_eq_some hname
  exact ⟨t, ht, hname, rfl⟩

/-- The end of a plain entry, which is entered if it may stand there. -/
def plainEnd (ps : ParameterList Binder) (b : Binder) (d : Option Expr) :
    Reader (ParameterList Binder) :=
  if ps.starred then pure { ps with named := ps.named ++ [(b, d)], needsNamed := false }
  else do
    require (d.isSome || ps.defaults.isEmpty)
    pure { ps with positional := ps.positional ++ [b], defaults := ps.defaults ++ d.toList }

/-- One more entry of the parameters of a `lambda`. -/
theorem sound_parameterEntry (hl : l.Sound fit) {ps ps' : ParameterList Binder}
    (h : parameterEntry binder binder l.expression ps c = some (ps', c')) :
    ∃ p, ps.enter p = some ps' ∧ (PlainEntry fit p →
      ∃ ts, c.tokens = ts ++ c'.tokens ∧ Derives fit ts (.entry p)) := by
  obtain ⟨_, _, hrequire, h⟩ := bind_eq_some.mp h
  obtain ⟨hlast, rfl⟩ := require_eq_some.mp hrequire
  obtain ⟨b, c₁, htakes, h⟩ := bind_eq_some.mp h
  rcases takesOp_eq_some htakes with ⟨rfl, t, ht, hslash, -⟩ | ⟨rfl, rfl⟩
  · obtain ⟨_, _, hrequire, h⟩ := bind_eq_some.mp h
    obtain ⟨hmay, rfl⟩ := require_eq_some.mp hrequire
    obtain ⟨rfl, rfl⟩ := pure_eq_some.mp h
    refine ⟨.slash, ?_, fun _ => ⟨[t], ht, .slash hslash⟩⟩
    simp only [Bool.and_eq_true, and_assoc] at hmay
    exact if_pos ⟨hlast, hmay⟩
  obtain ⟨b, c₁, htakes, h⟩ := bind_eq_some.mp h
  rcases takesOp_eq_some htakes with ⟨rfl, t, ht, hstars, -⟩ | ⟨rfl, rfl⟩
  · obtain ⟨_, _, hrequire, h⟩ := bind_eq_some.mp h
    obtain ⟨hmay, rfl⟩ := require_eq_some.mp hrequire
    obtain ⟨b, c₂, hbinder, h⟩ := bind_eq_some.mp h
    obtain ⟨rfl, rfl⟩ := pure_eq_some.mp h
    obtain ⟨u, hu, hname, rfl⟩ := sound_binder hbinder
    exact ⟨.doubleStar ⟨u.span, u.text⟩, if_pos ⟨hlast, hmay⟩,
      fun _ => ⟨[t, u], by rw [ht, hu]; rfl, .doubleStar hstars hname⟩⟩
  obtain ⟨b, c₁, htakes, h⟩ := bind_eq_some.mp h
  rcases takesOp_eq_some htakes with ⟨rfl, t, ht, hstar, -⟩ | ⟨rfl, rfl⟩
  · obtain ⟨_, _, hrequire, h⟩ := bind_eq_some.mp h
    obtain ⟨hmay, rfl⟩ := require_eq_some.mp hrequire
    obtain ⟨lone, _, hsees, h⟩ := bind_eq_some.mp h
    obtain ⟨rfl, -⟩ := sees_eq_some.mp hsees
    cases lone with
    | true =>
        obtain ⟨rfl, rfl⟩ := pure_eq_some.mp h
        exact ⟨.loneStar, if_pos ⟨hlast, hmay⟩, fun _ => ⟨[t], ht, .loneStar hstar⟩⟩
    | false =>
        obtain ⟨b, c₂, hbinder, h⟩ := bind_eq_some.mp h
        obtain ⟨rfl, rfl⟩ := pure_eq_some.mp h
        obtain ⟨u, hu, hname, rfl⟩ := sound_binder hbinder
        exact ⟨.star ⟨u.span, u.text⟩, if_pos ⟨hlast, hmay⟩,
          fun _ => ⟨[t, u], by rw [ht, hu]; rfl, .star hstar hname⟩⟩
  obtain ⟨b, c₁, hbinder, h⟩ := bind_eq_some.mp h
  obtain ⟨t, ht, hname, rfl⟩ := sound_binder hbinder
  obtain ⟨hasDefault, c₂, htakes, h⟩ := bind_eq_some.mp h
  have hdefault : ∃ d c₃, (PlainEntry fit (.plain ⟨t.span, t.text⟩ d) →
      ∃ ts, c.tokens = ts ++ c₃.tokens ∧ Derives fit ts (.entry (.plain ⟨t.span, t.text⟩ d))) ∧
      plainEnd ps ⟨t.span, t.text⟩ d c₃ = some (ps', c') := by
    rcases takesOp_eq_some htakes with ⟨rfl, u, hu, hequals, -⟩ | ⟨rfl, rfl⟩
    · obtain ⟨d, c₃, hread, h⟩ := bind_eq_some.mp h
      obtain ⟨o, _, ho, h⟩ := bind_eq_some.mp h
      obtain ⟨rfl, rfl⟩ := pure_eq_some.mp ho
      refine ⟨some d, c₃, fun hplain => ?_, h⟩
      obtain ⟨ts, hts, hderives⟩ := hl.expression hread hplain
      exact ⟨t :: u :: ts, by rw [ht, hu, hts]; rfl, .parameterDefault hname hequals hderives⟩
    · obtain ⟨o, _, ho, h⟩ := bind_eq_some.mp h
      obtain ⟨rfl, rfl⟩ := pure_eq_some.mp ho
      exact ⟨none, c₁, fun _ => ⟨[t], ht, .parameter hname⟩, h⟩
  obtain ⟨d, c₃, hderives, h⟩ := hdefault
  have hnone : ¬ ps.variadicNamed.isSome = true := by simpa using hlast
  by_cases hstarred : ps.starred = true
  · rw [plainEnd, if_pos hstarred] at h
    obtain ⟨rfl, rfl⟩ := pure_eq_some.mp h
    refine ⟨.plain ⟨t.span, t.text⟩ d, ?_, hderives⟩
    rw [ParameterList.enter, if_neg hnone, if_pos hstarred]
  · rw [plainEnd, if_neg hstarred] at h
    obtain ⟨_, _, hrequire, h⟩ := bind_eq_some.mp h
    obtain ⟨hmay, rfl⟩ := require_eq_some.mp hrequire
    obtain ⟨rfl, rfl⟩ := pure_eq_some.mp h
    refine ⟨.plain ⟨t.span, t.text⟩ d, ?_, hderives⟩
    rw [ParameterList.enter, if_neg hnone, if_neg hstarred,
      if_pos ((Bool.or_eq_true _ _).mp hmay)]

/-- The step that reads one more entry behind a comma. -/
def nextEntry (l : Level) (ps : ParameterList Binder) :
    Reader (Option (ParameterList Binder)) := maybe do
  op ","
  parameterEntry binder binder l.expression ps

theorem derives_entries (hl : l.Sound fit) {n : Nat} {ps ps' : ParameterList Binder}
    (h : Steps (nextEntry l) n ps c ps' c') :
    ∃ more, ps.enterAll more = some ps' ∧ ((∀ p ∈ more, PlainEntry fit p) →
      ∃ ts, c.tokens = ts ++ c'.tokens ∧ Derives fit ts (.entries more)) := by
  induction h with
  | none => exact ⟨[], rfl, fun _ => ⟨[], rfl, .noEntries⟩⟩
  | step hone _ ih =>
      rcases maybe_eq_some hone with ⟨ps₁, heq, hread⟩ | ⟨heq, -⟩
      · obtain rfl := Option.some.inj heq
        obtain ⟨_, d, hop, hread⟩ := bind_eq_some.mp hread
        obtain ⟨t, ht, hcomma, -⟩ := op_eq_some hop
        obtain ⟨p, henter, hderives⟩ := sound_parameterEntry hl hread
        obtain ⟨more, hall, hmore⟩ := ih
        refine ⟨p :: more, ?_, fun hplain => ?_⟩
        · rw [ParameterList.enterAll, henter]
          exact hall
        · rw [List.forall_mem_cons] at hplain
          obtain ⟨ts, hts, hentry⟩ := hderives hplain.1
          obtain ⟨us, hus, hentries⟩ := hmore hplain.2
          exact ⟨t :: (ts ++ us), by rw [ht, hts, hus]; simp, .entries hcomma hentry hentries⟩
      · exact nomatch heq

theorem sound_parameterList (hl : l.Sound fit) {list : ParameterList Binder}
    (h : parameterList ":" binder binder l.expression c = some (list, c')) :
    ∃ ps, ParameterList.enterAll {} ps = some list ∧ list.needsNamed = false ∧
      ((∀ p ∈ ps, PlainEntry fit p) →
        ∃ ts, c.tokens = ts ++ c'.tokens ∧ Derives fit ts (.parameters ps)) := by
  obtain ⟨closed, _, hsees, h⟩ := bind_eq_some.mp h
  obtain ⟨rfl, -⟩ := sees_eq_some.mp hsees
  cases closed with
  | true =>
      obtain ⟨rfl, rfl⟩ := pure_eq_some.mp h
      exact ⟨[], rfl, rfl, fun _ => ⟨[], rfl, .noParameters⟩⟩
  | false =>
      obtain ⟨ps₁, c₁, hfirst, h⟩ := bind_eq_some.mp h
      obtain ⟨ps₂, c₂, hwhile, h⟩ := bind_eq_some.mp h
      obtain ⟨comma, c₃, htakes, h⟩ := bind_eq_some.mp h
      obtain ⟨closed, _, hsees, h⟩ := bind_eq_some.mp h
      obtain ⟨rfl, -⟩ := sees_eq_some.mp hsees
      obtain ⟨_, _, hrequire, h⟩ := bind_eq_some.mp h
      obtain ⟨hdone, rfl⟩ := require_eq_some.mp hrequire
      obtain ⟨rfl, rfl⟩ := pure_eq_some.mp h
      obtain ⟨p, henter, hentry⟩ := sound_parameterEntry hl hfirst
      obtain ⟨n, d, hsteps, hlast⟩ := whileSome_eq_some hwhile
      have hd : d = c₂ := by
        rcases hlast with rfl | hlast
        · rfl
        · rcases maybe_eq_some hlast with ⟨_, heq, -⟩ | ⟨-, rfl⟩
          · exact nomatch heq
          · rfl
      subst hd
      obtain ⟨more, hall, hmore⟩ := derives_entries hl hsteps
      refine ⟨p :: more, ?_, by simpa using (Bool.and_eq_true_iff.mp hdone).1, fun hplain => ?_⟩
      · rw [ParameterList.enterAll, henter]
        exact hall
      · rw [List.forall_mem_cons] at hplain
        obtain ⟨ts, hts, hderives⟩ := hentry hplain.1
        obtain ⟨us, hus, hentries⟩ := hmore hplain.2
        obtain ⟨vs, hvs, htrail, -⟩ := trail_of_takesOp htakes
        exact ⟨ts ++ (us ++ vs), by rw [hts, hus, hvs]; simp,
          .parameters hderives hentries htrail⟩

/-- The defaults of a parameter list. -/
def ParameterList.allDefaults (ps : ParameterList Binder) : List Expr :=
  ps.named.filterMap (·.2) ++ ps.defaults

/-- Every default that is entered stays. -/
theorem enter_defaults {ps ps' : ParameterList Binder} {p : Entry} (h : ps.enter p = some ps')
    (hplain : ∀ d ∈ ps'.allDefaults, d.Plain fit) :
    PlainEntry fit p ∧ ∀ d ∈ ps.allDefaults, d.Plain fit := by
  cases p with
  | slash | loneStar | star b | doubleStar b =>
      obtain ⟨-, h⟩ := Option.ite_none_right_eq_some.mp h
      obtain rfl := Option.some.inj h
      exact ⟨trivial, hplain⟩
  | plain b d =>
      obtain ⟨-, h⟩ := Option.ite_none_left_eq_some.mp h
      by_cases hstarred : ps.starred = true
      · rw [if_pos hstarred] at h
        obtain rfl := Option.some.inj h
        simp only [ParameterList.allDefaults, List.filterMap_append, List.mem_append, or_imp,
          forall_and] at hplain ⊢
        refine ⟨?_, hplain.1.1, hplain.2⟩
        cases d with
        | none => trivial
        | some d => exact hplain.1.2 d (by simp)
      · rw [if_neg hstarred] at h
        obtain ⟨-, h⟩ := Option.ite_none_right_eq_some.mp h
        obtain rfl := Option.some.inj h
        simp only [ParameterList.allDefaults, List.mem_append, or_imp, forall_and] at hplain ⊢
        refine ⟨?_, hplain.1, hplain.2.1⟩
        cases d with
        | none => trivial
        | some d => exact hplain.2.2 d (by simp)

theorem plainEntries_of_enterAll {ps : List Entry} {list list' : ParameterList Binder}
    (h : list.enterAll ps = some list') (hplain : ∀ d ∈ list'.allDefaults, d.Plain fit) :
    (∀ p ∈ ps, PlainEntry fit p) ∧ ∀ d ∈ list.allDefaults, d.Plain fit := by
  induction ps generalizing list with
  | nil =>
      obtain rfl := Option.some.inj h
      exact ⟨nofun, hplain⟩
  | cons p ps ih =>
      obtain ⟨list₁, henter, h⟩ := Option.bind_eq_some_iff.mp h
      obtain ⟨hrest, hdefaults⟩ := ih h
      obtain ⟨hp, hdefaults⟩ := enter_defaults henter hdefaults
      exact ⟨List.forall_mem_cons.mpr ⟨hp, hrest⟩, hdefaults⟩

theorem sound_lambdaExpression (hl : l.Sound fit) :
    Sound fit (lambdaExpression l) (.rule .expression) := by
  intro c e c' h hplain
  obtain ⟨start, _, hhere, h⟩ := bind_eq_some.mp h
  obtain ⟨rfl, -⟩ := here_eq_some.mp hhere
  obtain ⟨_, c₁, hword, h⟩ := bind_eq_some.mp h
  obtain ⟨t, ht, hlambda⟩ := word_eq_some hword
  obtain ⟨list, c₂, hlist, h⟩ := bind_eq_some.mp h
  obtain ⟨_, c₃, hop, h⟩ := bind_eq_some.mp h
  obtain ⟨u, hu, hcolon, -⟩ := op_eq_some hop
  obtain ⟨body, c₄, hbody, h⟩ := bind_eq_some.mp h
  obtain ⟨span, _, hspan, h⟩ := bind_eq_some.mp h
  obtain ⟨rfl, -⟩ := spanFrom_eq_some.mp hspan
  obtain ⟨rfl, rfl⟩ := pure_eq_some.mp h
  obtain ⟨-, hnamed, hdefaults, hplainBody⟩ := all_lambda.mp hplain
  obtain ⟨ps, hall, hdone, hderives⟩ := sound_parameterList hl hlist
  have hentries := plainEntries_of_enterAll hall (by
    intro d hd
    rcases List.mem_append.mp hd with hd | hd
    · exact hnamed d hd
    · exact hdefaults d hd)
  obtain ⟨ts, hts, hparameters⟩ := hderives hentries.1
  obtain ⟨us, hus, hbodyDerives⟩ := hl.expression hbody hplainBody
  exact ⟨t :: (ts ++ u :: us), by rw [ht, hts, hu, hus]; simp,
    .lambda span hlambda hparameters hall hdone hcolon hbodyDerives⟩

/-! ## Levels -/

theorem sound_expression (hl : l.Sound fit) : Sound fit (expression l) (.rule .expression) := by
  intro c e c' h hplain
  obtain ⟨start, _, hhere, h⟩ := bind_eq_some.mp h
  obtain ⟨rfl, -⟩ := here_eq_some.mp hhere
  obtain ⟨seen, _, hsees, h⟩ := bind_eq_some.mp h
  obtain ⟨rfl, -⟩ := sees_eq_some.mp hsees
  cases seen with
  | true => exact sound_lambdaExpression hl h hplain
  | false =>
      obtain ⟨a, c₁, hfirst, h⟩ := bind_eq_some.mp h
      obtain ⟨b, c₂, htakes, h⟩ := bind_eq_some.mp h
      rcases takesWord_eq_some htakes with ⟨rfl, t, ht, hif⟩ | ⟨rfl, rfl⟩
      · obtain ⟨test, c₃, htest, h⟩ := bind_eq_some.mp h
        obtain ⟨_, c₄, hword, h⟩ := bind_eq_some.mp h
        obtain ⟨u, hu, helse⟩ := word_eq_some hword
        obtain ⟨other, c₅, hother, h⟩ := bind_eq_some.mp h
        obtain ⟨span, _, hspan, h⟩ := bind_eq_some.mp h
        obtain ⟨rfl, -⟩ := spanFrom_eq_some.mp hspan
        obtain ⟨rfl, rfl⟩ := pure_eq_some.mp h
        have hparts := hplain.parts
        obtain ⟨ts, hts, ha⟩ := sound_disjunction hl hfirst (hparts a (by simp))
        obtain ⟨us, hus, hb⟩ := sound_disjunction hl htest (hparts test (by simp))
        obtain ⟨vs, hvs, hc⟩ := hl.expression hother (hparts other (by simp))
        exact ⟨ts ++ t :: (us ++ u :: vs), by rw [hts, ht, hus, hu, hvs]; simp,
          .conditional span ha hif hb helse hc⟩
      · obtain ⟨rfl, rfl⟩ := pure_eq_some.mp h
        exact (sound_disjunction hl).outer hfirst hplain

theorem Level.Sound.outer (hl : l.Sound fit) : l.outer.Sound fit where
  expression := sound_expression hl
  disjunction := sound_disjunction hl
  inversion := sound_inversion hl
  bitwiseOr := sound_bitwiseOr hl
  factor := sound_factor hl

/-- **EVERY LEVEL IS SOUND**: what its readers give is derived from what they take. -/
theorem sound_level (n : Nat) : (level n).Sound fit := by
  induction n with
  | zero => exact ⟨nofun, nofun, nofun, nofun, nofun⟩
  | succ n ih => exact ih.outer

end Covenant.Grammar
