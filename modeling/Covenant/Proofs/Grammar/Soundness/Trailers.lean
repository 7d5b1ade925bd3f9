import Covenant.Proofs.Grammar.Soundness.Brackets

/-! # Soundness of fields, calls and indices

    What follows a primary makes a longer primary of it (`Extends`).  The
    arguments of a call are taken apart by kind as they are read, and `Holds`
    says in which order they stood. -/

namespace Covenant.Grammar

open Covenant.Tree Reader

variable {fit : Expr → Prop} {l : Level} {c c' : Cursor} {e : Expr}

/-! ## Calls, items and fields -/

/-- The arguments that were read are these, taken apart by kind. -/
structure Holds (given : List Argument) (as : Arguments) : Prop where
  args : as.args = given.filterMap Argument.positional?
  keywords : as.keywords = given.filterMap Argument.keyword?
  unpacked : as.unpacked = given.any Argument.isUnpacked

section Holds

variable {given : List Argument} {as : Arguments} {span : Span}

theorem Holds.positional (h : Holds given as) (e : Expr) :
    Holds (given ++ [.positional e]) { as with args := as.args ++ [e] } := by
  constructor
  · simp [h.args, Argument.positional?]
  · simp [h.keywords, Argument.keyword?]
  · simp [h.unpacked, Argument.isUnpacked]

theorem Holds.star (h : Holds given as) (e : Expr) :
    Holds (given ++ [.star span e])
      { as with args := as.args ++ [.compound span (.starred .load) [e]] } := by
  constructor
  · simp [h.args, Argument.positional?]
  · simp [h.keywords, Argument.keyword?]
  · simp [h.unpacked, Argument.isUnpacked]

theorem Holds.named (h : Holds given as) (name : String) (e : Expr) :
    Holds (given ++ [.named span name e])
      { as with keywords := as.keywords ++ [.mk span (some name) e] } := by
  constructor
  · simp [h.args, Argument.positional?]
  · simp [h.keywords, Argument.keyword?]
  · simp [h.unpacked, Argument.isUnpacked]

theorem Holds.unpack (h : Holds given as) (e : Expr) :
    Holds (given ++ [.unpacked span e])
      { as with keywords := as.keywords ++ [.mk span none e], unpacked := true } := by
  constructor
  · simp [h.args, Argument.positional?]
  · simp [h.keywords, Argument.keyword?]
  · simp [Argument.isUnpacked]

/-- What may follow, told from what was read. -/
theorem Holds.mayFollow_positional (h : Holds given as) (e : Expr) :
    (Argument.positional e).mayFollow given = as.keywords.isEmpty := by
  rw [h.keywords, Bool.eq_iff_iff, List.isEmpty_iff, List.filterMap_eq_nil_iff]
  simp [Argument.mayFollow]

theorem Holds.mayFollow_star (h : Holds given as) (e : Expr) :
    (Argument.star span e).mayFollow given = !as.unpacked := by
  rw [h.unpacked, Bool.eq_iff_iff]
  simp [Argument.mayFollow]

end Holds

/-- The argument of every kind is plain. -/
def PlainArgument (fit : Expr → Prop) (a : Argument) : Prop :=
  (∀ e ∈ a.positional?, e.Plain fit) ∧ ∀ k ∈ a.keyword?, k.value.Plain fit

theorem plain_star {span : Span} (h : (Expr.compound span (.starred .load) [e]).Plain fit) :
    e.Plain fit :=
  h.parts e (List.mem_singleton.mpr rfl)

/-- One more argument. -/
theorem sound_argument (hl : l.Sound fit) {given : List Argument} {as as' : Arguments}
    (h : argument l as c = some (as', c')) (hgiven : Holds given as) :
    ∃ a, Holds (given ++ [a]) as' ∧ a.mayFollow given = true ∧
      (PlainArgument fit a → ∃ ts, c.tokens = ts ++ c'.tokens ∧ Derives fit ts (.argument a)) := by
  obtain ⟨start, _, hhere, h⟩ := bind_eq_some.mp h
  obtain ⟨rfl, -⟩ := here_eq_some.mp hhere
  obtain ⟨b, c₁, htakes, h⟩ := bind_eq_some.mp h
  rcases takesOp_eq_some htakes with ⟨rfl, t, ht, hstars, -⟩ | ⟨rfl, rfl⟩
  · obtain ⟨e, c₂, hread, h⟩ := bind_eq_some.mp h
    obtain ⟨span, _, hspan, h⟩ := bind_eq_some.mp h
    obtain ⟨rfl, -⟩ := spanFrom_eq_some.mp hspan
    obtain ⟨rfl, rfl⟩ := pure_eq_some.mp h
    refine ⟨.unpacked span e, hgiven.unpack e, rfl, fun hplain => ?_⟩
    obtain ⟨ts, hts, hderives⟩ := hl.expression hread (hplain.2 _ rfl)
    exact ⟨t :: ts, by rw [ht, hts]; rfl, .unpackedArgument span hstars hderives⟩
  obtain ⟨b, c₁, htakes, h⟩ := bind_eq_some.mp h
  rcases takesOp_eq_some htakes with ⟨rfl, t, ht, hstar, -⟩ | ⟨rfl, rfl⟩
  · obtain ⟨_, _, hrequire, h⟩ := bind_eq_some.mp h
    obtain ⟨hunpacked, rfl⟩ := require_eq_some.mp hrequire
    obtain ⟨e, c₂, hread, h⟩ := bind_eq_some.mp h
    obtain ⟨span, _, hspan, h⟩ := bind_eq_some.mp h
    obtain ⟨rfl, -⟩ := spanFrom_eq_some.mp hspan
    obtain ⟨rfl, rfl⟩ := pure_eq_some.mp h
    refine ⟨.star span e, hgiven.star e, ?_, fun hplain => ?_⟩
    · rw [hgiven.mayFollow_star, hunpacked]
    · obtain ⟨ts, hts, hderives⟩ := hl.expression hread (plain_star (hplain.1 _ rfl))
      exact ⟨t :: ts, by rw [ht, hts]; rfl, .starArgument span hstar hderives⟩
  obtain ⟨isNamed, _, hahead, h⟩ := bind_eq_some.mp h
  obtain ⟨rfl, -⟩ := ahead_eq_some.mp hahead
  cases isNamed with
  | true =>
      obtain ⟨t, c₁, hname, h⟩ := bind_eq_some.mp h
      obtain ⟨_, c₂, hop, h⟩ := bind_eq_some.mp h
      obtain ⟨e, c₃, hread, h⟩ := bind_eq_some.mp h
      obtain ⟨span, _, hspan, h⟩ := bind_eq_some.mp h
      obtain ⟨rfl, -⟩ := spanFrom_eq_some.mp hspan
      obtain ⟨rfl, rfl⟩ := pure_eq_some.mp h
      obtain ⟨ht, hname⟩ := identifier_eq_some hname
      obtain ⟨u, hu, hequals, -⟩ := op_eq_some hop
      refine ⟨.named span t.text e, hgiven.named t.text e, rfl, fun hplain => ?_⟩
      obtain ⟨ts, hts, hderives⟩ := hl.expression hread (hplain.2 _ rfl)
      exact ⟨t :: u :: ts, by rw [ht, hu, hts]; rfl, .namedArgument span hname hequals hderives⟩
  | false =>
      obtain ⟨_, _, hrequire, h⟩ := bind_eq_some.mp h
      obtain ⟨hkeywords, rfl⟩ := require_eq_some.mp hrequire
      obtain ⟨e, c₁, hread, h⟩ := bind_eq_some.mp h
      obtain ⟨_, _, hsees, h⟩ := bind_eq_some.mp h
      obtain ⟨rfl, -⟩ := sees_eq_some.mp hsees
      obtain ⟨_, _, hsees, h⟩ := bind_eq_some.mp h
      obtain ⟨rfl, -⟩ := sees_eq_some.mp hsees
      obtain ⟨_, _, hrequire, h⟩ := bind_eq_some.mp h
      obtain ⟨-, rfl⟩ := require_eq_some.mp hrequire
      obtain ⟨rfl, rfl⟩ := pure_eq_some.mp h
      refine ⟨.positional e, hgiven.positional e, ?_, fun hplain => ?_⟩
      · rw [hgiven.mayFollow_positional, hkeywords]
      · obtain ⟨ts, hts, hderives⟩ := sound_namedExpression hl hread (hplain.1 _ rfl)
        exact ⟨ts, hts, .argument hderives⟩

/-- The step that reads one more argument behind a comma. -/
def nextArgument (l : Level) (as : Arguments) : Reader (Option Arguments) := maybe do
  op ","
  argument l as

theorem derives_arguments (hl : l.Sound fit) {n : Nat} {as as' : Arguments}
    (h : Steps (nextArgument l) n as c as' c') {given : List Argument} (hgiven : Holds given as) :
    ∃ more, Holds (given ++ more) as' ∧ Argument.inOrder given more = true ∧
      ((∀ a ∈ more, PlainArgument fit a) →
        ∃ ts, c.tokens = ts ++ c'.tokens ∧ Derives fit ts (.arguments more)) := by
  induction h generalizing given with
  | none => exact ⟨[], by rwa [List.append_nil], rfl, fun _ => ⟨[], rfl, .noArguments⟩⟩
  | step hone _ ih =>
      rcases maybe_eq_some hone with ⟨as₁, heq, hread⟩ | ⟨heq, -⟩
      · obtain rfl := Option.some.inj heq
        obtain ⟨_, d, hop, hread⟩ := bind_eq_some.mp hread
        obtain ⟨t, ht, hcomma, -⟩ := op_eq_some hop
        obtain ⟨a, hadded, hmay, hderives⟩ := sound_argument hl hread hgiven
        obtain ⟨more, hall, horder, hmore⟩ := ih hadded
        refine ⟨a :: more, by simpa using hall, ?_, fun hplain => ?_⟩
        · rw [Argument.inOrder, hmay, horder]
          rfl
        · rw [List.forall_mem_cons] at hplain
          obtain ⟨ts, hts, hargument⟩ := hderives hplain.1
          obtain ⟨us, hus, harguments⟩ := hmore hplain.2
          exact ⟨t :: (ts ++ us), by rw [ht, hts, hus]; simp,
            .arguments hcomma hargument harguments⟩
      · exact nomatch heq

/-- The arguments up to the closing bracket. -/
theorem sound_arguments (hl : l.Sound fit) {as : Arguments}
    (h : arguments l c = some (as, c')) : as = {} ∧ c = c' ∨
      ∃ a more, Holds (a :: more) as ∧ Argument.inOrder [] (a :: more) = true ∧
        ((∀ x ∈ a :: more, PlainArgument fit x) → ∃ ts us vs,
          c.tokens = ts ++ (us ++ (vs ++ c'.tokens)) ∧ Derives fit ts (.argument a) ∧
            Derives fit us (.arguments more) ∧ Trail vs ∧ (as.comma = true ↔ vs ≠ [])) := by
  obtain ⟨closed, _, hsees, h⟩ := bind_eq_some.mp h
  obtain ⟨rfl, -⟩ := sees_eq_some.mp hsees
  cases closed with
  | true =>
      obtain ⟨rfl, rfl⟩ := pure_eq_some.mp h
      exact .inl ⟨rfl, rfl⟩
  | false =>
      obtain ⟨as₁, c₁, hfirst, h⟩ := bind_eq_some.mp h
      obtain ⟨as₂, c₂, hwhile, h⟩ := bind_eq_some.mp h
      obtain ⟨comma, c₃, htakes, h⟩ := bind_eq_some.mp h
      obtain ⟨rfl, rfl⟩ := pure_eq_some.mp h
      have hempty : Holds [] {} := ⟨rfl, rfl, rfl⟩
      obtain ⟨a, hone, hmay, hargument⟩ := sound_argument hl hfirst hempty
      obtain ⟨n, d, hsteps, hlast⟩ := whileSome_eq_some hwhile
      have hd : d = c₂ := by
        rcases hlast with rfl | hlast
        · rfl
        · rcases maybe_eq_some hlast with ⟨_, heq, -⟩ | ⟨-, rfl⟩
          · exact nomatch heq
          · rfl
      subst hd
      obtain ⟨more, hall, horder, hmore⟩ := derives_arguments hl hsteps hone
      refine .inr ⟨a, more, ⟨hall.args, hall.keywords, hall.unpacked⟩, ?_, fun hplain => ?_⟩
      · rw [Argument.inOrder, hmay]
        exact horder
      · rw [List.forall_mem_cons] at hplain
        obtain ⟨ts, hts, hderives⟩ := hargument hplain.1
        obtain ⟨us, hus, hmore⟩ := hmore hplain.2
        obtain ⟨vs, hvs, htrail, hcomma⟩ := trail_of_takesOp htakes
        exact ⟨ts, us, vs, by rw [hts, hus, hvs], hderives, hmore, htrail, hcomma⟩

/-- Arguments without keywords, of which one stands for itself. -/
theorem eq_of_holds {given : List Argument} {as : Arguments} (h : Holds given as)
    (hargs : as.args = [e]) (hkeywords : as.keywords = []) (hstar : isStarred e = false) :
    given = [.positional e] := by
  have hnone : ∀ a ∈ given, a.keyword? = none :=
    List.filterMap_eq_nil_iff.mp (h.keywords.symm.trans hkeywords)
  have hone : given.filterMap Argument.positional? = [e] := h.args.symm.trans hargs
  cases given with
  | nil => exact nomatch hone
  | cons a more =>
      rw [List.forall_mem_cons] at hnone
      have hmore : more.filterMap Argument.positional? = [] ∧ a.positional? = some e := by
        cases a with
        | positional e' | star span e' =>
            obtain ⟨rfl, hrest⟩ := List.cons.inj hone
            exact ⟨hrest, rfl⟩
        | named | unpacked => exact (Option.some_ne_none _ hnone.1).elim
      have hnil : more = [] := by
        rw [List.eq_nil_iff_forall_not_mem]
        intro x hx
        have hx' := List.filterMap_eq_nil_iff.mp hmore.1 x hx
        have hx'' := hnone.2 x hx
        cases x with
        | positional | star => exact Option.some_ne_none _ hx'
        | named | unpacked => exact Option.some_ne_none _ hx''
      subst hnil
      cases a with
      | positional e' => rw [Option.some.inj hmore.2]
      | star span e' =>
          obtain rfl := Option.some.inj hmore.2
          exact nomatch hstar
      | named | unpacked => exact (Option.some_ne_none _ hnone.1).elim

/-- Plain arguments, taken apart. -/
theorem plainArguments {given : List Argument} {as : Arguments} (h : Holds given as)
    (hargs : ∀ e ∈ as.args, e.Plain fit) (hkeywords : ∀ k ∈ as.keywords, k.value.Plain fit) :
    ∀ a ∈ given, PlainArgument fit a := by
  rw [h.args] at hargs
  rw [h.keywords] at hkeywords
  intro a ha
  exact ⟨fun e he => hargs e (List.mem_filterMap.mpr ⟨a, ha, he⟩),
    fun k hk => hkeywords k (List.mem_filterMap.mpr ⟨a, ha, hk⟩)⟩

/-- The brackets of a call, with what they make of the tokens in front. -/
def Extends (fit : Expr → Prop) (start : Pos) (f : Expr) (c : Cursor) (e : Expr) (c' : Cursor) :
    Prop :=
  f.Plain fit ∧ ∃ us, c.tokens = us ++ c'.tokens ∧ ∀ ts, startOf ts = start →
    Derives fit ts (.one (.rule .primary) f) → Derives fit (ts ++ us) (.one (.rule .primary) e)

theorem sound_callRest (hl : l.Sound fit) {start : Pos} {f : Expr}
    (h : callRest l start f c = some (e, c')) (hplain : e.Plain fit) :
    Extends fit start f c e c' := by
  obtain ⟨opened, _, hhere, h⟩ := bind_eq_some.mp h
  obtain ⟨rfl, -⟩ := here_eq_some.mp hhere
  obtain ⟨_, c₁, hop, h⟩ := bind_eq_some.mp h
  obtain ⟨t, ht, hopen, -⟩ := op_eq_some hop
  obtain ⟨as, c₂, has, h⟩ := bind_eq_some.mp h
  have hgiven := sound_arguments hl has
  -- a call whose arguments are what was read
  have hcall (h : (do
      op ")"
      pure (.call (← spanFrom start) f as.args as.keywords) : Reader Expr) c₂ = some (e, c')) :
      Extends fit start f c e c' := by
    obtain ⟨_, c₃, hop, h⟩ := bind_eq_some.mp h
    obtain ⟨span, _, hspan, h⟩ := bind_eq_some.mp h
    obtain ⟨rfl, hplace⟩ := spanFrom_eq_some.mp hspan
    obtain ⟨rfl, rfl⟩ := pure_eq_some.mp h
    obtain ⟨u, hu, hclose, hstop⟩ := op_eq_some hop
    obtain ⟨hfit, hf, hargs, hkeywords⟩ := all_call.mp hplain
    rcases hgiven with ⟨rfl, rfl⟩ | ⟨a, more, hholds, horder, hderives⟩
    · refine ⟨hf, t :: [u], by rw [ht, hu]; rfl, fun ts hts hfunc => ?_⟩
      have hspan : span = ⟨startOf ts, u.span.stop⟩ := by rw [hplace, hts, hstop]
      exact .call hfunc hopen .nothingGiven hclose (by rw [hspan]; rfl) hfit
    · obtain ⟨us, vs, ws, htokens, hfirst, hmore, htrail, -⟩ :=
        hderives (plainArguments hholds hargs hkeywords)
      refine ⟨hf, t :: ((us ++ (vs ++ ws)) ++ [u]), by rw [ht, htokens, hu]; simp,
        fun ts hts hfunc => ?_⟩
      have hspan : span = ⟨startOf ts, u.span.stop⟩ := by rw [hplace, hts, hstop]
      refine .call hfunc hopen (.given hfirst hmore htrail horder) hclose ?_ hfit
      rw [hspan, hholds.args, hholds.keywords]
  by_cases hone : ∃ e', as.args = [e'] ∧ as.keywords = []
  · obtain ⟨e', hargs, hkeywords⟩ := hone
    simp only [hargs, hkeywords] at h hcall
    obtain ⟨isFor, _, hsees, h⟩ := bind_eq_some.mp h
    obtain rfl := seesFor_eq_some hsees
    cases isFor with
    | true =>
        obtain ⟨_, _, hrequire, h⟩ := bind_eq_some.mp h
        obtain ⟨hboth, rfl⟩ := require_eq_some.mp hrequire
        obtain ⟨hstar, hcomma⟩ := Bool.and_eq_true_iff.mp hboth
        obtain ⟨g, c₃, hrest, h⟩ := bind_eq_some.mp h
        obtain ⟨span, _, hspan, h⟩ := bind_eq_some.mp h
        obtain ⟨rfl, hplace⟩ := spanFrom_eq_some.mp hspan
        obtain ⟨rfl, rfl⟩ := pure_eq_some.mp h
        obtain ⟨hfit, hf, hargsPlain, -⟩ := all_call.mp hplain
        have hg := hargsPlain g (List.mem_singleton.mpr rfl)
        obtain ⟨vs, u, gspan, gs, hvs, hparts, hne, hclose, hstop, rfl⟩ :=
          sound_comprehensionRest hl hrest hg
        rcases hgiven with ⟨rfl, -⟩ | ⟨a, more, hholds, -, hderives⟩
        · exact nomatch hargs
        · have hsame := eq_of_holds hholds hargs hkeywords (by simpa using hstar)
          obtain ⟨rfl, rfl⟩ := List.cons.inj hsame
          have helement := (all_comprehension.mp hg).2.1 e' (List.mem_singleton.mpr rfl)
          obtain ⟨us, us', ws, htokens, hfirst, hmore, htrail, hws⟩ := hderives (by
            intro x hx
            rw [List.mem_singleton.mp hx]
            exact ⟨fun y hy => Option.some.inj hy ▸ helement, nofun⟩)
          cases hmore
          have hnil : ws = [] := by simpa using (not_congr hws).mp (by simpa using hcomma)
          subst hnil
          cases hfirst with
          | argument hfirst =>
              refine ⟨hf, t :: (us ++ (vs ++ [u])), by rw [ht, htokens, hvs]; simp,
                fun ts hts hfunc => ?_⟩
              have hspan : span = ⟨startOf ts, u.span.stop⟩ := by rw [hplace, hts, hstop]
              exact .callComprehension gspan hfunc hopen hfirst hparts hne hclose
                (by rw [hspan]) hfit
    | false => exact hcall h
  · refine hcall ?_
    rw [← h]
    match hargs : as.args, hkeywords : as.keywords with
    | [e'], [] => exact (hone ⟨e', hargs, hkeywords⟩).elim
    | [], _ => rfl
    | [_], _ :: _ => rfl
    | _ :: _ :: _, _ => rfl

theorem sound_maybe {p : Reader Expr} {o : Option Expr} (hp : Sound fit p (.rule .expression))
    (h : maybe p c = some (o, c')) (hplain : ∀ e ∈ o, e.Plain fit) :
    ∃ ts, c.tokens = ts ++ c'.tokens ∧ Derives fit ts (.optional o) := by
  rcases maybe_eq_some h with ⟨e, rfl, hread⟩ | ⟨rfl, rfl⟩
  · obtain ⟨ts, hts, hderives⟩ := hp hread (hplain e rfl)
    exact ⟨ts, hts, .present hderives⟩
  · exact ⟨[], rfl, .absent⟩

/-- The colons of a slice and what follows them. -/
def sliceEnd (l : Level) (start : Pos) (lower : Option Expr) : Reader Expr := do
  op ":"
  let upper ← maybe l.expression
  let step ← if ← takesOp ":" then maybe l.expression else pure none
  pure (.compound (← spanFrom start) (.slice lower.isSome upper.isSome step.isSome)
    (lower.toList ++ upper.toList ++ step.toList))

theorem sound_slice (hl : l.Sound fit) {start : Pos} {lower : Option Expr} {c₀ : Cursor}
    (hlower : (∀ e ∈ lower, e.Plain fit) →
      ∃ ts, c₀.tokens = ts ++ c.tokens ∧ Derives fit ts (.optional lower))
    (h : sliceEnd l start lower c = some (e, c')) (hplain : e.Plain fit) :
    ∃ ts, c₀.tokens = ts ++ c'.tokens ∧ Derives fit ts (.one .index e) := by
  obtain ⟨_, c₁, hop, h⟩ := bind_eq_some.mp h
  obtain ⟨t, ht, hcolon, -⟩ := op_eq_some hop
  obtain ⟨upper, c₂, hupper, h⟩ := bind_eq_some.mp h
  obtain ⟨b, c₃, htakes, h⟩ := bind_eq_some.mp h
  have hstep : ∃ step c₄, ((∀ e ∈ step, e.Plain fit) →
      ∃ ts, c₂.tokens = ts ++ c₄.tokens ∧ Derives fit ts (.step step)) ∧
      (do
        pure (.compound (← spanFrom start) (.slice lower.isSome upper.isSome step.isSome)
          (lower.toList ++ upper.toList ++ step.toList)) : Reader Expr) c₄ = some (e, c') := by
    rcases takesOp_eq_some htakes with ⟨rfl, u, hu, hcolon', -⟩ | ⟨rfl, rfl⟩
    · obtain ⟨step, c₄, hstep, h⟩ := bind_eq_some.mp h
      refine ⟨step, c₄, fun hplain => ?_, h⟩
      obtain ⟨ts, hts, hderives⟩ := sound_maybe hl.expression hstep hplain
      exact ⟨u :: ts, by rw [hu, hts]; rfl, .step hcolon' hderives⟩
    · obtain ⟨step, c₄, hstep, h⟩ := bind_eq_some.mp h
      obtain ⟨rfl, rfl⟩ := pure_eq_some.mp hstep
      exact ⟨none, c₂, fun _ => ⟨[], rfl, .noStep⟩, h⟩
  obtain ⟨step, c₄, hstep, h⟩ := hstep
  obtain ⟨span, _, hspan, h⟩ := bind_eq_some.mp h
  obtain ⟨rfl, -⟩ := spanFrom_eq_some.mp hspan
  obtain ⟨rfl, rfl⟩ := pure_eq_some.mp h
  have hparts := hplain.parts
  simp only [List.forall_mem_append, Option.mem_toList] at hparts
  obtain ⟨ts, hts, hlower⟩ := hlower hparts.1.1
  obtain ⟨us, hus, hupper⟩ := sound_maybe hl.expression hupper hparts.1.2
  obtain ⟨vs, hvs, hstep⟩ := hstep hparts.2
  exact ⟨ts ++ t :: (us ++ vs), by rw [hts, ht, hus, hvs]; simp,
    .slice span hlower hcolon hupper hstep⟩

theorem sound_index (hl : l.Sound fit) : Sound fit (index l) .index := by
  intro c e c' h hplain
  obtain ⟨start, _, hhere, h⟩ := bind_eq_some.mp h
  obtain ⟨rfl, -⟩ := here_eq_some.mp hhere
  obtain ⟨star, _, hsees, h⟩ := bind_eq_some.mp h
  obtain ⟨rfl, -⟩ := sees_eq_some.mp hsees
  cases star with
  | true => exact sound_starred hl.expression rfl h hplain
  | false =>
      obtain ⟨naming, _, hnaming, h⟩ := bind_eq_some.mp h
      obtain ⟨rfl, -⟩ := ahead_eq_some.mp hnaming
      obtain ⟨colon, _, hsees, h⟩ := bind_eq_some.mp h
      obtain ⟨rfl, -⟩ := sees_eq_some.mp hsees
      cases colon with
      | true =>
          obtain ⟨lower, _, hlower, h⟩ := bind_eq_some.mp h
          obtain ⟨rfl, rfl⟩ := pure_eq_some.mp hlower
          obtain ⟨again, _, hsees, h⟩ := bind_eq_some.mp h
          obtain ⟨rfl, -⟩ := sees_eq_some.mp hsees
          obtain ⟨_, _, hrequire, h⟩ := bind_eq_some.mp h
          obtain ⟨-, rfl⟩ := require_eq_some.mp hrequire
          exact sound_slice hl (fun _ => ⟨[], rfl, .absent⟩) h hplain
      | false =>
          obtain ⟨e', c₁, hread, h⟩ := bind_eq_some.mp h
          obtain ⟨lower, _, hlower, h⟩ := bind_eq_some.mp h
          obtain ⟨rfl, rfl⟩ := pure_eq_some.mp hlower
          obtain ⟨colon, _, hsees, h⟩ := bind_eq_some.mp h
          obtain ⟨rfl, -⟩ := sees_eq_some.mp hsees
          cases colon with
          | true =>
              obtain ⟨_, _, hrequire, h⟩ := bind_eq_some.mp h
              obtain ⟨-, rfl⟩ := require_eq_some.mp hrequire
              refine sound_slice hl (fun hplain => ?_) h hplain
              obtain ⟨ts, hts, hderives⟩ := sound_namedExpression hl hread (hplain e' rfl)
              exact ⟨ts, hts, .present hderives⟩
          | false =>
              obtain ⟨rfl, rfl⟩ := pure_eq_some.mp h
              obtain ⟨ts, hts, hderives⟩ := sound_namedExpression hl hread hplain
              exact ⟨ts, hts, .plain hderives⟩

/-- The tree of what stands between index brackets: one index that is not starred stands for
    itself, several are a tuple. -/
def IndexOf (es : List Expr) (comma : Bool) (i : Expr) : Prop :=
  es = [i] ∧ comma = false ∧ isStarred i = false ∨
    (∃ span, i = .compound span (.tuple .load) es) ∧
      (comma = true ∨ es.length ≠ 1 ∨ ∃ e, es = [e] ∧ isStarred e = true)

theorem sound_indices (hl : l.Sound fit) {es : List Expr} {b : Bool}
    (hlist : commaList (index l) c = some ((es, b), c')) (h : IndexOf es b e)
    (hplain : e.Plain fit) :
    ∃ ts, c.tokens = ts ++ c'.tokens ∧ Derives fit ts (.several .index e) := by
  rcases h with ⟨rfl, rfl, hstar⟩ | ⟨⟨span, rfl⟩, htuple⟩
  · obtain ⟨f, es', ts, us, vs, hes, htokens, hts, hus, hvs, hb⟩ :=
      derives_commaList (sound_index hl) hlist (by simpa using hplain)
    obtain ⟨rfl, rfl⟩ := List.cons.inj hes
    cases hus
    have hnil : vs = [] := by simpa using hb
    subst hnil
    exact ⟨ts, htokens, .single hts (fun _ => hstar)⟩
  · obtain ⟨f, es', ts, us, vs, rfl, htokens, hts, hus, hvs, hb⟩ :=
      derives_commaList (sound_index hl) hlist hplain.parts
    refine ⟨ts ++ (us ++ vs), by rw [htokens, List.append_assoc, List.append_assoc],
      .several span hts hus hvs ?_⟩
    rcases htuple with htuple | htuple | ⟨e, heq, hstar⟩
    · exact .inr (.inl (hb.mp htuple))
    · exact .inl fun hnil => htuple (by rw [hnil]; rfl)
    · obtain ⟨rfl, -⟩ := List.cons.inj heq
      exact .inr (.inr ⟨rfl, hstar⟩)

/-- The end of a subscript. -/
def subscriptEnd (start : Pos) (f i : Expr) : Reader Expr := do
  op "]"
  pure (.compound (← spanFrom start) (.subscript .load) [f, i])

theorem sound_subscriptRest (hl : l.Sound fit) {start : Pos} {f : Expr}
    (h : subscriptRest l start f c = some (e, c')) (hplain : e.Plain fit) :
    Extends fit start f c e c' := by
  obtain ⟨_, c₁, hop, h⟩ := bind_eq_some.mp h
  obtain ⟨t, ht, hopen, -⟩ := op_eq_some hop
  obtain ⟨inner, _, hhere, h⟩ := bind_eq_some.mp h
  obtain ⟨rfl, -⟩ := here_eq_some.mp hhere
  obtain ⟨⟨es, b⟩, c₂, hlist, h⟩ := bind_eq_some.mp h
  have htuple {es : List Expr} {b : Bool}
      (h : (do
        let i ← do pure (.compound (← spanFrom inner) (.tuple .load) es)
        subscriptEnd start f i : Reader Expr) c₂ = some (e, c'))
      (hcase : b = true ∨ es.length ≠ 1 ∨ ∃ e, es = [e] ∧ isStarred e = true) :
      ∃ i, IndexOf es b i ∧ subscriptEnd start f i c₂ = some (e, c') := by
    obtain ⟨span, _, hspan, h⟩ := bind_eq_some.mp h
    obtain ⟨rfl, -⟩ := spanFrom_eq_some.mp hspan
    obtain ⟨i, _, hi, h⟩ := bind_eq_some.mp h
    obtain ⟨rfl, rfl⟩ := pure_eq_some.mp hi
    exact ⟨_, .inr ⟨⟨span, rfl⟩, hcase⟩, h⟩
  have hindex : ∃ i, IndexOf es b i ∧ subscriptEnd start f i c₂ = some (e, c') := by
    match es, b, h with
    | [i], false, h =>
        simp only at h
        cases hstar : isStarred i with
        | true =>
            rw [if_pos hstar] at h
            exact htuple h (.inr (.inr ⟨i, rfl, hstar⟩))
        | false =>
            rw [if_neg (Bool.eq_false_iff.mp hstar)] at h
            obtain ⟨i', _, hi, h⟩ := bind_eq_some.mp h
            obtain ⟨rfl, rfl⟩ := pure_eq_some.mp hi
            exact ⟨i, .inl ⟨rfl, rfl, hstar⟩, h⟩
    | [_], true, h => exact htuple h (.inl rfl)
    | [], _, h => exact htuple h (.inr (.inl (by simp)))
    | _ :: _ :: _, _, h => exact htuple h (.inr (.inl (by simp)))
  obtain ⟨i, hi, h⟩ := hindex
  obtain ⟨_, c₃, hop, h⟩ := bind_eq_some.mp h
  obtain ⟨u, hu, hclose, -⟩ := op_eq_some hop
  obtain ⟨span, _, hspan, h⟩ := bind_eq_some.mp h
  obtain ⟨rfl, -⟩ := spanFrom_eq_some.mp hspan
  obtain ⟨rfl, rfl⟩ := pure_eq_some.mp h
  have hparts := hplain.parts
  obtain ⟨us, hus, hderives⟩ := sound_indices hl hlist hi (hparts i (by simp))
  refine ⟨hparts f (by simp), t :: (us ++ [u]), by rw [ht, hus, hu]; simp, fun ts _ hf => ?_⟩
  exact .subscript span hf hopen hderives hclose

/-- What follows a primary, if something does. -/
def trailer (l : Level) (start : Pos) (e : Expr) : Reader (Option Expr) := do
  let t ← peek
  if t.kind = .op then
    match t.text with
    | "." =>
      op "."
      let n ← identifier
      pure (some (.field (← spanFrom start) e n.text .load))
    | "(" => pure (some (← callRest l start e))
    | "[" => pure (some (← subscriptRest l start e))
    | _ => pure none
  else pure none

theorem sound_trailer (hl : l.Sound fit) {start : Pos} {f : Expr} {o : Option Expr}
    (h : trailer l start f c = some (o, c')) :
    o = none ∧ c = c' ∨ ∃ e, o = some e ∧ (e.Plain fit → Extends fit start f c e c') := by
  obtain ⟨t, _, hpeek, h⟩ := bind_eq_some.mp h
  obtain ⟨rfl, ts, hts⟩ := peek_eq_some.mp hpeek
  by_cases hkind : t.kind = .op
  · rw [if_pos hkind] at h
    by_cases hdot : t.text = "."
    · rw [hdot] at h
      obtain ⟨_, c₁, hop, h⟩ := bind_eq_some.mp h
      obtain ⟨n, c₂, hname, h⟩ := bind_eq_some.mp h
      obtain ⟨span, _, hspan, h⟩ := bind_eq_some.mp h
      obtain ⟨rfl, -⟩ := spanFrom_eq_some.mp hspan
      obtain ⟨rfl, rfl⟩ := pure_eq_some.mp h
      obtain ⟨u, hu, hdot, -⟩ := op_eq_some hop
      obtain ⟨hn, hname⟩ := identifier_eq_some hname
      refine .inr ⟨_, rfl, fun hplain => ⟨(all_field.mp hplain).2, [u, n], ?_, fun ts _ hf => ?_⟩⟩
      · rw [hu, hn]
        rfl
      · exact .field span hf hdot hname
    by_cases hround : t.text = "("
    · rw [hround] at h
      obtain ⟨e, _, hrest, h⟩ := bind_eq_some.mp h
      obtain ⟨rfl, rfl⟩ := pure_eq_some.mp h
      exact .inr ⟨e, rfl, sound_callRest hl hrest⟩
    by_cases hsquare : t.text = "["
    · rw [hsquare] at h
      obtain ⟨e, _, hrest, h⟩ := bind_eq_some.mp h
      obtain ⟨rfl, rfl⟩ := pure_eq_some.mp h
      exact .inr ⟨e, rfl, sound_subscriptRest hl hrest⟩
    simp only at h
    obtain ⟨rfl, rfl⟩ := pure_eq_some.mp h
    exact .inl ⟨rfl, rfl⟩
  · rw [if_neg hkind] at h
    obtain ⟨rfl, rfl⟩ := pure_eq_some.mp h
    exact .inl ⟨rfl, rfl⟩

theorem startOf_append {ts us : List Token} (hne : ts ≠ []) : startOf (ts ++ us) = startOf ts := by
  cases ts with
  | nil => exact (hne rfl).elim
  | cons t ts => rfl

theorem Derives.ne_nil {ts : List Token} {k : Kind} (h : Derives fit ts (.one k e)) : ts ≠ [] := by
  obtain ⟨t, us, rfl, -⟩ := h.exists_cons rfl
  exact List.cons_ne_nil t us

/-- The place where a tree starts is the place of the reader. -/
theorem startOf_eq {ts us : List Token} {start : Pos} {k : Kind}
    (h : Derives fit ts (.one k e)) (hhere : here c = some (start, c'))
    (hts : c.tokens = ts ++ us) : startOf ts = start := by
  obtain ⟨-, t, ts', htokens, rfl⟩ := here_eq_some.mp hhere
  obtain ⟨u, us', rfl, -⟩ := h.exists_cons rfl
  rw [hts] at htokens
  obtain ⟨rfl, -⟩ := List.cons.inj htokens
  rfl

theorem sound_primary (hl : l.Sound fit) : Sound fit (primary l) (.rule .primary) := by
  intro c e c' h hplain
  obtain ⟨start, _, hhere, h⟩ := bind_eq_some.mp h
  obtain ⟨rfl, -⟩ := here_eq_some.mp hhere
  obtain ⟨a, c₁, hatom, h⟩ := bind_eq_some.mp h
  obtain ⟨n, d, hsteps, hlast⟩ := whileSome_eq_some h
  have hd : d = c' := by
    rcases hlast with rfl | hlast
    · rfl
    · rcases sound_trailer hl hlast with ⟨-, rfl⟩ | ⟨_, heq, -⟩
      · rfl
      · cases heq
  subst hd
  -- what has been read so far is derived from the tokens taken so far
  have hinvariant : e.Plain fit → ∃ ts, c.tokens = ts ++ d.tokens ∧ startOf ts = start ∧
      Derives fit ts (.one (.rule .primary) e) := by
    refine hsteps.invariant (P := fun e d => e.Plain fit → ∃ ts, c.tokens = ts ++ d.tokens ∧
      startOf ts = start ∧ Derives fit ts (.one (.rule .primary) e)) (fun hone ih => ?_) ?_
    · intro hplain
      rcases sound_trailer hl hone with ⟨heq, -⟩ | ⟨e', heq, hextends⟩
      · cases heq
      · obtain rfl := Option.some.inj heq
        obtain ⟨hf, us, hus, hextends⟩ := hextends hplain
        obtain ⟨ts, hts, hstart, hderives⟩ := ih hf
        exact ⟨ts ++ us, by rw [hts, hus, List.append_assoc],
          by rw [startOf_append hderives.ne_nil, hstart], hextends ts hstart hderives⟩
    · intro hplain
      obtain ⟨ts, hts, hderives⟩ := sound_atom hl hatom hplain
      exact ⟨ts, hts, startOf_eq hderives hhere hts, .outer hderives⟩
  obtain ⟨ts, hts, -, hderives⟩ := hinvariant hplain
  exact ⟨ts, hts, hderives⟩

end Covenant.Grammar
