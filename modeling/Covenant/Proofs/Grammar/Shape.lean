import Covenant.Proofs.Grammar.Derivation

/-! # Shape — phrases up to positions

    Two phrases have the same shape if their trees are equal up to positions.
    What the grammar makes of parts keeps their shapes: mappings, calls,
    parameter lists and targets. -/

namespace Covenant.Tree

variable {s s' : Span}

-- its equations are made here, once for all the proofs that rewrite with them
attribute [local simp] Expr.unplaced

theorem map_cons_congr {α β : Type} {f : α → β} {a b : α} {as bs : List α} (h : f a = f b)
    (hs : as.map f = bs.map f) : (a :: as).map f = (b :: bs).map f := by
  rw [List.map_cons, List.map_cons, h, hs]

/-- A keyword argument without its places. -/
def Keyword.unplaced : Keyword → Keyword
  | .mk _ n v => .mk nowhere n v.unplaced

/-- A `for` part without its places. -/
def Generator.unplaced : Generator → Generator
  | .mk t i fs a => .mk t.unplaced i.unplaced (fs.map Expr.unplaced) a

theorem unplacedKeywords_eq_map (ks : List Keyword) :
    unplacedKeywords ks = ks.map Keyword.unplaced := by
  induction ks with
  | nil => rfl
  | cons k ks ih =>
      obtain ⟨s, n, v⟩ := k
      rw [unplacedKeywords, List.map_cons, ih]
      rfl

theorem unplacedGenerators_eq_map (gs : List Generator) :
    unplacedGenerators gs = gs.map Generator.unplaced := by
  induction gs with
  | nil => rfl
  | cons g gs ih =>
      obtain ⟨t, i, fs, a⟩ := g
      rw [unplacedGenerators, List.map_cons, ih, unplacedAll_eq_map]
      rfl

theorem unplaced_compound (f : Form) (ps : List Expr) :
    (Expr.compound s f ps).unplaced = .compound nowhere f (ps.map Expr.unplaced) := by
  rw [Expr.unplaced, unplacedAll_eq_map]

theorem unplaced_call (f : Expr) (as : List Expr) (ks : List Keyword) :
    (Expr.call s f as ks).unplaced =
      .call nowhere f.unplaced (as.map Expr.unplaced) (ks.map Keyword.unplaced) := by
  rw [Expr.unplaced, unplacedAll_eq_map, unplacedKeywords_eq_map]

theorem unplaced_comprehension (k : ComprehensionKind) (es : List Expr) (gs : List Generator) :
    (Expr.comprehension s k es gs).unplaced =
      .comprehension nowhere k (es.map Expr.unplaced) (gs.map Generator.unplaced) := by
  rw [Expr.unplaced, unplacedAll_eq_map, unplacedGenerators_eq_map]

theorem unplaced_lambda (b : Binders) (kd ds : List Expr) (e : Expr) :
    (Expr.lambda s b kd ds e).unplaced =
      .lambda nowhere b.unplaced (kd.map Expr.unplaced) (ds.map Expr.unplaced) e.unplaced := by
  rw [Expr.unplaced, unplacedAll_eq_map, unplacedAll_eq_map]

theorem sameShape_compound {f : Form} {ps qs : List Expr}
    (h : ps.map Expr.unplaced = qs.map Expr.unplaced) :
    (Expr.compound s f ps).SameShape (.compound s' f qs) := by
  show Expr.unplaced _ = Expr.unplaced _
  rw [unplaced_compound, unplaced_compound, h]

theorem sameShape_call {f g : Expr} {as bs : List Expr} {ks ms : List Keyword}
    (hf : f.SameShape g) (hargs : as.map Expr.unplaced = bs.map Expr.unplaced)
    (hkeywords : ks.map Keyword.unplaced = ms.map Keyword.unplaced) :
    (Expr.call s f as ks).SameShape (.call s' g bs ms) := by
  show Expr.unplaced _ = Expr.unplaced _
  rw [unplaced_call, unplaced_call, hf, hargs, hkeywords]

theorem sameShape_comprehension {k : ComprehensionKind} {es fs : List Expr}
    {gs hs : List Generator} (he : es.map Expr.unplaced = fs.map Expr.unplaced)
    (hg : gs.map Generator.unplaced = hs.map Generator.unplaced) :
    (Expr.comprehension s k es gs).SameShape (.comprehension s' k fs hs) := by
  show Expr.unplaced _ = Expr.unplaced _
  rw [unplaced_comprehension, unplaced_comprehension, he, hg]

theorem sameShape_field {e f : Expr} {n : String} {a : Access} (h : e.SameShape f) :
    (Expr.field s e n a).SameShape (.field s' f n a) := by
  show Expr.field _ _ _ _ = Expr.field _ _ _ _
  rw [show e.unplaced = f.unplaced from h]

/-- The trees with a compound shape are compound. -/
theorem unplaced_eq_compound {e : Expr} {f : Form} {ps : List Expr}
    (h : e.unplaced = .compound nowhere f (ps.map Expr.unplaced)) :
    ∃ s qs, e = .compound s f qs ∧ qs.map Expr.unplaced = ps.map Expr.unplaced := by
  cases e with
  | compound s f' qs =>
      rw [unplaced_compound] at h
      obtain ⟨-, rfl, hparts⟩ := Expr.compound.inj h
      exact ⟨s, qs, rfl, hparts⟩
  | _ => exact nomatch h

/-- The trees with the shape of a call are calls. -/
theorem exists_call_of_sameShape {e f : Expr} {as : List Expr} {ks : List Keyword}
    (h : e.SameShape (.call s f as ks)) :
    ∃ s' f' as' ks', e = .call s' f' as' ks' ∧ f'.SameShape f ∧
      as'.map Expr.unplaced = as.map Expr.unplaced ∧
      ks'.map Keyword.unplaced = ks.map Keyword.unplaced := by
  have h : e.unplaced = (Expr.call s f as ks).unplaced := h
  rw [unplaced_call] at h
  cases e with
  | call s' f' as' ks' =>
      rw [unplaced_call] at h
      obtain ⟨-, hf, has, hks⟩ := Expr.call.inj h
      exact ⟨s', f', as', ks', rfl, hf, has, hks⟩
  | _ => exact nomatch h

/-- The trees with the shape of a name are names. -/
theorem exists_name_of_sameShape {e : Expr} {id : String} {a : Access}
    (h : e.SameShape (.name s id a)) : ∃ s', e = .name s' id a := by
  have h : e.unplaced = .name nowhere id a := h
  cases e with
  | name s' id' a' =>
      obtain ⟨-, rfl, rfl⟩ := Expr.name.inj h
      exact ⟨s', rfl⟩
  | _ => exact nomatch h

end Covenant.Tree

namespace Covenant.Grammar

open Covenant.Tree Reader

variable {s s' : Span}

theorem isStarred_unplaced (e : Expr) : isStarred e.unplaced = isStarred e := by
  cases e with
  | compound s f ps => cases f <;> rfl
  | _ => rfl

theorem isStarred_congr {e e' : Expr} (h : e.SameShape e') : isStarred e = isStarred e' := by
  rw [← isStarred_unplaced e, ← isStarred_unplaced e', show e.unplaced = e'.unplaced from h]

/-! ## Targets -/

section Targets

variable {access : Access}

/-- A starred target is a target of its own without another star. -/
theorem asTarget_starred (a : Access) (e : Expr) :
    Expr.asTarget access true (.compound s (.starred a) [e]) =
      if isStarred e then none
      else (Expr.asTarget access false e).map fun e => .compound s (.starred access) [e] := by
  rw [Expr.asTarget.eq_def]
  cases e with
  | compound s' f ps => cases f <;> rfl
  | _ => rfl

mutual

/-- Using a tree as a target does not look at its places. -/
theorem asTarget_unplaced : (e : Expr) → (starAllowed : Bool) →
    Expr.asTarget access starAllowed e.unplaced
      = (Expr.asTarget access starAllowed e).map Expr.unplaced
  | .name .., _ | .constant .., _ | .field .., _ | .call .., _ | .lambda .., _
  | .comprehension .., _ => rfl
  | .compound s (.starred a) [e], true => by
      have ih := asTarget_unplaced e false
      show Expr.asTarget access true (.compound nowhere (.starred a) [e.unplaced]) = _
      rw [asTarget_starred, asTarget_starred, isStarred_unplaced, ih]
      cases isStarred e with
      | true => rfl
      | false => cases Expr.asTarget access false e <;> rfl
  | .compound s (.starred a) [], _ | .compound s (.starred a) [_], false
  | .compound s (.starred a) (_ :: _ :: _), _ => rfl
  | .compound s (.tuple a) ps, _ => by
      show (Expr.asTarget.targets access (unplacedAll ps)).map _ = _
      rw [targets_unplaced ps]
      show _ = ((Expr.asTarget.targets access ps).map _).map _
      rw [Option.map_map, Option.map_map]
      rfl
  | .compound s (.list a) ps, _ => by
      show (Expr.asTarget.targets access (unplacedAll ps)).map _ = _
      rw [targets_unplaced ps]
      show _ = ((Expr.asTarget.targets access ps).map _).map _
      rw [Option.map_map, Option.map_map]
      rfl
  | .compound s (.subscript a) ps, _ => rfl
  | .compound s (.boolOp o) ps, _ | .compound s .namedExpr ps, _ | .compound s (.binOp o) ps, _
  | .compound s (.unaryOp o) ps, _ | .compound s .ifExp ps, _ | .compound s (.dict k) ps, _
  | .compound s .set ps, _ | .compound s .await ps, _ | .compound s .yield ps, _
  | .compound s .yieldFrom ps, _ | .compound s (.compare o) ps, _
  | .compound s (.formattedValue c) ps, _ | .compound s .joinedStr ps, _
  | .compound s (.slice l u t) ps, _ => rfl

theorem targets_unplaced : (es : List Expr) →
    Expr.asTarget.targets access (unplacedAll es)
      = (Expr.asTarget.targets access es).map unplacedAll
  | [] => rfl
  | e :: es => by
      have ih := asTarget_unplaced e (access != .delete)
      have ihs := targets_unplaced es
      rw [unplacedAll, Expr.asTarget.targets, Expr.asTarget.targets, ih, ihs]
      cases Expr.asTarget access (access != .delete) e with
      | none => rfl
      | some t => cases Expr.asTarget.targets access es <;> rfl

end

/-- Trees of one shape give targets of one shape. -/
theorem asTarget_congr {e e₂ target : Expr} {starAllowed : Bool}
    (h : Expr.asTarget access starAllowed e = some target) (he : e₂.SameShape e) :
    ∃ target₂, Expr.asTarget access starAllowed e₂ = some target₂ ∧
      target₂.SameShape target := by
  have hmap : Expr.asTarget access starAllowed e₂.unplaced
      = (Expr.asTarget access starAllowed e₂).map Expr.unplaced :=
    asTarget_unplaced e₂ starAllowed
  rw [show e₂.unplaced = e.unplaced from he, asTarget_unplaced, h] at hmap
  obtain ⟨target₂, htarget, heq⟩ := Option.map_eq_some_iff.mp hmap.symm
  exact ⟨target₂, htarget, heq⟩

end Targets

/-! ## Mappings -/

/-- An item of a mapping without its places. -/
def unplacedPair (p : Option Expr × Expr) : Option Expr × Expr :=
  (p.1.map Expr.unplaced, p.2.unplaced)

theorem sameShape_mappingOf {ps qs : List (Option Expr × Expr)}
    (h : ps.map unplacedPair = qs.map unplacedPair) :
    (mappingOf s ps).SameShape (mappingOf s' qs) := by
  have hkeyed (ps : List (Option Expr × Expr)) :
      ps.map (·.1.isSome) = (ps.map unplacedPair).map (·.1.isSome) := by
    rw [List.map_map]
    exact List.map_congr_left fun p _ => (Option.isSome_map ..).symm
  have hkeys (ps : List (Option Expr × Expr)) :
      (ps.filterMap (·.1)).map Expr.unplaced = (ps.map unplacedPair).filterMap (·.1) := by
    rw [List.map_filterMap, List.filterMap_map]
    rfl
  have hvalues (ps : List (Option Expr × Expr)) :
      (ps.map (·.2)).map Expr.unplaced = (ps.map unplacedPair).map (·.2) := by
    rw [List.map_map, List.map_map]
    rfl
  show Expr.unplaced (.compound _ _ _) = Expr.unplaced (.compound _ _ _)
  rw [unplaced_compound, unplaced_compound, hkeyed ps, hkeyed qs, List.map_append, List.map_append,
    hkeys, hkeys, hvalues, hvalues, h]

/-! ## Slices -/

theorem isSome_of_map {α β : Type} {f : α → β} {o o' : Option α} (h : o'.map f = o.map f) :
    o'.isSome = o.isSome := by
  rw [← Option.isSome_map (f := f), h, Option.isSome_map]

theorem toList_of_map {α β : Type} {f : α → β} {o o' : Option α} (h : o'.map f = o.map f) :
    o'.toList.map f = o.toList.map f := by
  rw [← Option.toList_map, h, Option.toList_map]

theorem sameShape_slice {a b c a' b' c' : Option Expr}
    (ha : a'.map Expr.unplaced = a.map Expr.unplaced)
    (hb : b'.map Expr.unplaced = b.map Expr.unplaced)
    (hc : c'.map Expr.unplaced = c.map Expr.unplaced) :
    (Expr.compound s (.slice a'.isSome b'.isSome c'.isSome)
        (a'.toList ++ b'.toList ++ c'.toList)).SameShape
      (.compound s' (.slice a.isSome b.isSome c.isSome) (a.toList ++ b.toList ++ c.toList)) := by
  rw [isSome_of_map ha, isSome_of_map hb, isSome_of_map hc]
  refine sameShape_compound ?_
  simp only [List.map_append, toList_of_map ha, toList_of_map hb, toList_of_map hc]

/-! ## Arguments -/

/-- An argument without its places. -/
def Argument.unplaced : Argument → Argument
  | .positional e => .positional e.unplaced
  | .star _ e => .star nowhere e.unplaced
  | .named _ n e => .named nowhere n e.unplaced
  | .unpacked _ e => .unpacked nowhere e.unplaced

theorem Argument.positional?_unplaced (a : Argument) :
    a.unplaced.positional? = a.positional?.map Expr.unplaced := by
  cases a <;> rfl

theorem Argument.keyword?_unplaced (a : Argument) :
    a.unplaced.keyword? = a.keyword?.map Keyword.unplaced := by
  cases a <;> rfl

theorem Argument.isUnpacked_unplaced (a : Argument) : a.unplaced.isUnpacked = a.isUnpacked := by
  cases a <;> rfl

theorem positional?_congr {as bs : List Argument}
    (h : as.map Argument.unplaced = bs.map Argument.unplaced) :
    (as.filterMap Argument.positional?).map Expr.unplaced
      = (bs.filterMap Argument.positional?).map Expr.unplaced := by
  have hmap (as : List Argument) : (as.filterMap Argument.positional?).map Expr.unplaced
      = (as.map Argument.unplaced).filterMap Argument.positional? := by
    rw [List.map_filterMap, List.filterMap_map]
    exact congrArg (List.filterMap · as) (funext fun a => (a.positional?_unplaced).symm)
  rw [hmap, hmap, h]

theorem keyword?_congr {as bs : List Argument}
    (h : as.map Argument.unplaced = bs.map Argument.unplaced) :
    (as.filterMap Argument.keyword?).map Keyword.unplaced
      = (bs.filterMap Argument.keyword?).map Keyword.unplaced := by
  have hmap (as : List Argument) : (as.filterMap Argument.keyword?).map Keyword.unplaced
      = (as.map Argument.unplaced).filterMap Argument.keyword? := by
    rw [List.map_filterMap, List.filterMap_map]
    exact congrArg (List.filterMap · as) (funext fun a => (a.keyword?_unplaced).symm)
  rw [hmap, hmap, h]

theorem Argument.mayFollow_unplaced (before : List Argument) (a : Argument) :
    a.unplaced.mayFollow (before.map Argument.unplaced) = a.mayFollow before := by
  cases a with
  | positional e =>
      show (before.map Argument.unplaced).all _ = before.all _
      rw [List.all_map]
      exact congrArg before.all (funext fun b => by
        show b.unplaced.keyword?.isNone = _
        rw [b.keyword?_unplaced, Option.isNone_map])
  | star s e =>
      show (before.map Argument.unplaced).all _ = before.all _
      rw [List.all_map]
      exact congrArg before.all (funext fun b => by
        show (!b.unplaced.isUnpacked) = _
        rw [b.isUnpacked_unplaced])
  | named | unpacked => rfl

theorem Argument.inOrder_unplaced (before as : List Argument) :
    Argument.inOrder (before.map Argument.unplaced) (as.map Argument.unplaced)
      = Argument.inOrder before as := by
  induction as generalizing before with
  | nil => rfl
  | cons a as ih =>
      rw [List.map_cons, Argument.inOrder, Argument.inOrder, a.mayFollow_unplaced, ← ih (before ++ [a]),
        List.map_append]
      rfl

/-- Arguments of the same shapes may stand in the same order. -/
theorem inOrder_congr {as bs : List Argument}
    (h : bs.map Argument.unplaced = as.map Argument.unplaced)
    (has : Argument.inOrder [] as = true) : Argument.inOrder [] bs = true := by
  rw [← Argument.inOrder_unplaced [] as, ← h] at has
  rwa [← Argument.inOrder_unplaced [] bs]

/-! ## Parameters -/

/-- A parameter list with its names and its defaults changed. -/
def ParameterList.map (f : Binder → Binder) (g : Expr → Expr) (ps : ParameterList Binder) :
    ParameterList Binder where
  positionalOnly := ps.positionalOnly.map f
  positional := ps.positional.map f
  defaults := ps.defaults.map g
  variadic := ps.variadic.map f
  named := ps.named.map fun p => (f p.1, p.2.map g)
  variadicNamed := ps.variadicNamed.map f
  needsNamed := ps.needsNamed
  starred := ps.starred
  slashed := ps.slashed

/-- An entry with its name and its default changed. -/
def Entry.map (f : Binder → Binder) (g : Expr → Expr) : Entry → Entry
  | .slash => .slash
  | .loneStar => .loneStar
  | .star b => .star (f b)
  | .doubleStar b => .doubleStar (f b)
  | .plain b d => .plain (f b) (d.map g)

section Maps

variable (f : Binder → Binder) (g : Expr → Expr)

/-- Entering an entry looks neither at names nor at defaults. -/
theorem enter_map (list : ParameterList Binder) (p : Entry) :
    (list.map f g).enter (p.map f g) = (list.enter p).map (ParameterList.map f g) := by
  cases p with
  | slash | loneStar | star b | doubleStar b =>
      simp only [ParameterList.enter, Entry.map, ParameterList.map, Option.isNone_map,
        List.isEmpty_map]
      split <;> simp [ParameterList.map]
  | plain b d =>
      simp only [ParameterList.enter, Entry.map, ParameterList.map, Option.isSome_map,
        List.isEmpty_map]
      split
      · rfl
      · split
        · simp [ParameterList.map]
        · split
          · cases d <;> simp [ParameterList.map]
          · rfl

theorem enterAll_map (list : ParameterList Binder) (ps : List Entry) :
    (list.map f g).enterAll (ps.map (Entry.map f g))
      = (list.enterAll ps).map (ParameterList.map f g) := by
  induction ps generalizing list with
  | nil => rfl
  | cons p ps ih =>
      rw [List.map_cons, ParameterList.enterAll, enter_map, ParameterList.enterAll]
      cases list.enter p with
      | none => rfl
      | some list' => exact ih list'

end Maps

/-- A parameter list without its places. -/
abbrev ParameterList.unplaced (ps : ParameterList Binder) : ParameterList Binder :=
  ps.map Binder.unplaced Expr.unplaced

/-- An entry without its places. -/
abbrev Entry.unplaced (p : Entry) : Entry := p.map Binder.unplaced Expr.unplaced

/-- Entries of the same shapes are entered alike. -/
theorem enterAll_congr {list list₂ list' : ParameterList Binder} {ps ps₂ : List Entry}
    (h : list.enterAll ps = some list') (hlist : list₂.unplaced = list.unplaced)
    (hps : ps₂.map Entry.unplaced = ps.map Entry.unplaced) :
    ∃ list₂', list₂.enterAll ps₂ = some list₂' ∧ list₂'.unplaced = list'.unplaced := by
  have hmap := enterAll_map Binder.unplaced Expr.unplaced list ps
  have hmap₂ := enterAll_map Binder.unplaced Expr.unplaced list₂ ps₂
  rw [h] at hmap
  rw [show list₂.map Binder.unplaced Expr.unplaced = _ from hlist,
    show ps₂.map (Entry.map Binder.unplaced Expr.unplaced) = _ from hps, hmap] at hmap₂
  obtain ⟨list₂', h₂, heq⟩ := Option.map_eq_some_iff.mp hmap₂.symm
  exact ⟨list₂', h₂, heq⟩

theorem unplaced_binders (list : ParameterList Binder) :
    list.binders.unplaced = list.unplaced.binders := by
  simp [ParameterList.binders, Binders.unplaced, ParameterList.map]

/-- The `lambda`s of parameter lists and bodies of the same shape. -/
theorem sameShape_lambda {list list₂ : ParameterList Binder} {e e₂ : Expr}
    (hlist : list₂.unplaced = list.unplaced) (he : e₂.SameShape e) :
    (Expr.lambda s list₂.binders (list₂.named.filterMap (·.2)) list₂.defaults e₂).SameShape
      (.lambda s' list.binders (list.named.filterMap (·.2)) list.defaults e) := by
  have hnamed (list : ParameterList Binder) : (list.named.filterMap (·.2)).map Expr.unplaced
      = list.unplaced.named.filterMap (·.2) := by
    rw [List.map_filterMap]
    show _ = (list.named.map _).filterMap _
    rw [List.filterMap_map]
    rfl
  have hdefaults (list : ParameterList Binder) :
      list.defaults.map Expr.unplaced = list.unplaced.defaults := rfl
  show Expr.unplaced _ = Expr.unplaced _
  rw [unplaced_lambda, unplaced_lambda, unplaced_binders, unplaced_binders, hnamed, hnamed,
    hdefaults, hdefaults, hlist, show e₂.unplaced = e.unplaced from he]

end Covenant.Grammar
