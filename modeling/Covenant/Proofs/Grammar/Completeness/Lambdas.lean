import Covenant.Proofs.Grammar.Completeness.Operators

/-! # Lambdas are read

    Entries of a parameter list are read one after the other, each where it may
    stand (`ParameterList.enter`); a lone star is read as such because a comma
    follows it. -/

namespace Covenant.Grammar

open Covenant.Tree Reader

variable {fit : Expr → Prop} {t u : Token} {ts us vs rest : List Token} {e : Expr} {n : Nat}
  {stop : Pos} {l : Level} {span : Span} {list list' : ParameterList Binder}

/-! ## Entering -/

theorem variadicNamed_of_enter {p : Entry} (h : list.enter p = some list') :
    list.variadicNamed.isNone = true := by
  cases p with
  | slash | loneStar | star | doubleStar =>
      exact (Option.ite_none_right_eq_some.mp h).1.1
  | plain b d =>
      rw [ParameterList.enter] at h
      cases hnamed : list.variadicNamed with
      | none => rfl
      | some b' =>
          rw [hnamed] at h
          simp at h

/-- A lone star needs a named parameter behind it. -/
theorem needsNamed_of_enter (h : list.enter .loneStar = some list') : list'.needsNamed = true := by
  obtain ⟨-, h⟩ := Option.ite_none_right_eq_some.mp h
  exact Option.some.inj h ▸ rfl

theorem plainEnd_of_enter {b : Binder} {d : Option Expr} {c : Cursor}
    (h : list.enter (.plain b d) = some list') : plainEnd list b d c = some (list', c) := by
  have hnone : ¬ list.variadicNamed.isSome = true := by
    simpa using variadicNamed_of_enter h
  rw [ParameterList.enter, if_neg hnone] at h
  by_cases hstarred : list.starred = true
  · rw [if_pos hstarred] at h
    rw [plainEnd, if_pos hstarred, ← Option.some.inj h]
    rfl
  · rw [if_neg hstarred] at h
    obtain ⟨hmay, h⟩ := Option.ite_none_right_eq_some.mp h
    rw [plainEnd, if_neg hstarred, (Bool.or_eq_true _ _).mpr hmay, ← Option.some.inj h]
    rfl

/-! ## Entries -/

/-- Whether a token ends an entry of a parameter list. -/
def endsEntry (t : Token) : Prop := isOp "," t = true ∨ isOp ":" t = true

theorem isOp_of_endsEntry {o : String} (h : endsEntry t) (ho : (o == "," || o == ":") = false) :
    isOp o t = false := by
  simp only [Bool.or_eq_false_iff, beq_eq_false_iff_ne] at ho
  rcases h with h | h
  · exact isOp_of_ne h (Ne.symm ho.1)
  · exact isOp_of_ne h (Ne.symm ho.2)

theorem stops_of_endsEntry (h : endsEntry t) : Rule.expression.stops t = true := by
  rcases h with h | h <;> exact stops_of_isOp h rfl

/-- An entry is read where it may stand. -/
def CompleteEntry (ts : List Token) (p : Entry) : Prop :=
  ∀ {n}, ts.length ≤ n → ∀ {rest}, Next endsEntry rest → ∀ stop, ∃ p' stop',
    p'.unplaced = p.unplaced ∧ ∀ list list', list.enter p' = some list' →
      (p = .loneStar → Next (fun t => isOp "," t = true) rest) →
        parameterEntry binder binder (level (n + 1)).expression list ⟨ts ++ rest, stop⟩
          = some (list', ⟨rest, stop'⟩)

theorem binder_cons (h : isIdentifier t = true) :
    binder ⟨t :: ts, stop⟩ = some (⟨t.span, t.text⟩, ⟨ts, t.span.stop⟩) :=
  bind_of_eq (identifier_cons h)

theorem complete_slash (ht : isOp "/" t = true) : CompleteEntry [t] .slash := by
  intro n _ rest _ stop
  refine ⟨.slash, t.span.stop, rfl, fun list list' henter _ => ?_⟩
  obtain ⟨⟨hnone, hmay⟩, h⟩ := Option.ite_none_right_eq_some.mp henter
  rw [List.cons_append, List.nil_append, parameterEntry, hnone, bind_of_eq require_true,
    bind_of_eq (takesOp_cons ht), if_pos rfl]
  have hmay : (!list.slashed && !list.starred && !list.positional.isEmpty) = true := by
    simpa only [Bool.and_eq_true, and_assoc] using hmay
  rw [hmay, bind_of_eq require_true, ← Option.some.inj h]
  rfl

theorem complete_loneStar (ht : isOp "*" t = true) : CompleteEntry [t] .loneStar := by
  intro n _ rest _ stop
  refine ⟨.loneStar, t.span.stop, rfl, fun list list' henter hcomma => ?_⟩
  obtain ⟨⟨hnone, hmay⟩, h⟩ := Option.ite_none_right_eq_some.mp henter
  rw [List.cons_append, List.nil_append, parameterEntry, hnone, bind_of_eq require_true]
  refine (bind_of_eq (takesOp_of_false (isOp_of_ne ht (by decide)))).trans ?_
  refine (bind_of_eq (takesOp_of_false (isOp_of_ne ht (by decide)))).trans ?_
  refine (bind_of_eq (takesOp_cons ht)).trans ?_
  rw [hmay, if_pos rfl, bind_of_eq require_true, bind_of_eq (seesOp_of_next (hcomma rfl)),
    ← Option.some.inj h]
  rfl

theorem complete_starEntry (ht : isOp "*" t = true) (hu : isIdentifier u = true) :
    CompleteEntry [t, u] (.star ⟨u.span, u.text⟩) := by
  intro n _ rest _ stop
  refine ⟨.star ⟨u.span, u.text⟩, u.span.stop, rfl, fun list list' henter _ => ?_⟩
  obtain ⟨⟨hnone, hmay⟩, h⟩ := Option.ite_none_right_eq_some.mp henter
  rw [List.cons_append, List.cons_append, List.nil_append, parameterEntry, hnone,
    bind_of_eq require_true]
  refine (bind_of_eq (takesOp_of_false (isOp_of_ne ht (by decide)))).trans ?_
  refine (bind_of_eq (takesOp_of_false (isOp_of_ne ht (by decide)))).trans ?_
  refine (bind_of_eq (takesOp_cons ht)).trans ?_
  rw [hmay, if_pos rfl, bind_of_eq require_true,
    bind_of_eq (seesOp_of_eq (isOp_of_isIdentifier hu))]
  refine (bind_of_eq (binder_cons hu)).trans ?_
  rw [← Option.some.inj h]
  rfl

theorem complete_doubleStar (ht : isOp "**" t = true) (hu : isIdentifier u = true) :
    CompleteEntry [t, u] (.doubleStar ⟨u.span, u.text⟩) := by
  intro n _ rest _ stop
  refine ⟨.doubleStar ⟨u.span, u.text⟩, u.span.stop, rfl, fun list list' henter _ => ?_⟩
  obtain ⟨⟨hnone, hmay⟩, h⟩ := Option.ite_none_right_eq_some.mp henter
  rw [List.cons_append, List.cons_append, List.nil_append, parameterEntry, hnone,
    bind_of_eq require_true]
  refine (bind_of_eq (takesOp_of_false (isOp_of_ne ht (by decide)))).trans ?_
  refine (bind_of_eq (takesOp_cons ht)).trans ?_
  rw [hmay, if_pos rfl, bind_of_eq require_true, bind_of_eq (binder_cons hu),
    ← Option.some.inj h]
  rfl

/-- The name of a plain entry, up to its default. -/
theorem parameterEntry_of_name {p : Reader Expr} {d : Option Expr} {c : Cursor}
    (ht : isIdentifier t = true) (henter : list.enter (.plain ⟨t.span, t.text⟩ d) = some list')
    (hdefault : (do
      let d ← if ← takesOp "=" then do pure (some (← p)) else pure none
      plainEnd list ⟨t.span, t.text⟩ d : Reader (ParameterList Binder)) ⟨rest, t.span.stop⟩
        = plainEnd list ⟨t.span, t.text⟩ d c) :
    parameterEntry binder binder p list ⟨t :: rest, stop⟩ = some (list', c) := by
  rw [parameterEntry, variadicNamed_of_enter henter, bind_of_eq require_true]
  refine (bind_of_eq (takesOp_of_false (isOp_of_isIdentifier ht))).trans ?_
  refine (bind_of_eq (takesOp_of_false (isOp_of_isIdentifier ht))).trans ?_
  refine (bind_of_eq (takesOp_of_false (isOp_of_isIdentifier ht))).trans ?_
  refine (bind_of_eq (binder_cons ht)).trans ?_
  exact hdefault.trans (plainEnd_of_enter henter)

theorem complete_parameter (ht : isIdentifier t = true) :
    CompleteEntry [t] (.plain ⟨t.span, t.text⟩ none) := by
  intro n _ rest hrest stop
  refine ⟨.plain ⟨t.span, t.text⟩ none, t.span.stop, rfl, fun list list' henter _ => ?_⟩
  refine parameterEntry_of_name ht henter ?_
  refine (bind_of_eq (takesOp_of_next (hrest.mono fun _ h => isOp_of_endsEntry h rfl))).trans ?_
  rfl

theorem complete_parameterDefault (ht : isIdentifier t = true) (hu : isOp "=" u = true)
    (h : CompleteOne ts (.rule .expression) e) :
    CompleteEntry (t :: u :: ts) (.plain ⟨t.span, t.text⟩ (some e)) := by
  intro n hn rest hrest stop
  rw [List.length_cons, List.length_cons] at hn
  obtain ⟨e', stop', hread, hshape⟩ := h.yields (n := n) (by omega)
    (hrest.mono fun _ h => stops_of_endsEntry h) u.span.stop
  refine ⟨.plain ⟨t.span, t.text⟩ (some e'), stop', ?_, fun list list' henter _ => ?_⟩
  · show Entry.plain _ (some e'.unplaced) = Entry.plain _ (some e.unplaced)
    rw [show e'.unplaced = e.unplaced from hshape]
  · refine parameterEntry_of_name ht henter ?_
    refine (bind_of_eq (takesOp_cons hu)).trans ?_
    refine (bind_of_eq hread).trans ?_
    rfl

/-- Entries behind commas are read one after the other. -/
structure CompleteEntries (ts : List Token) (ps : List Entry) : Prop where
  steps : ∀ {n}, ts.length ≤ n → ∀ {rest}, Next endsEntry rest → ∀ stop, ∃ ps' stop',
    ps'.map Entry.unplaced = ps.map Entry.unplaced ∧
      ∀ list list', list.enterAll ps' = some list' → list'.needsNamed = false →
        Steps (nextEntry (level (n + 1))) ps.length list ⟨ts ++ rest, stop⟩ list' ⟨rest, stop'⟩
  length : ps.length ≤ ts.length

theorem completeEntries_nil : CompleteEntries [] [] where
  steps _ _ _ stop := ⟨[], stop, rfl, fun list list' henter _ => by
    obtain rfl := Option.some.inj henter
    exact .none⟩
  length := Nat.le_refl 0

/-- Behind a lone star that a named parameter follows there is a comma. -/
theorem comma_of_loneStar {p p' : Entry} {ps ps' : List Entry} (hus : Derives fit us (.entries ps))
    (hp : p'.unplaced = p.unplaced) (hps : ps'.map Entry.unplaced = ps.map Entry.unplaced)
    (henter : list.enterAll (p' :: ps') = some list') (hneeds : list'.needsNamed = false)
    (hlone : p = .loneStar) : Next (fun t => isOp "," t = true) (us ++ rest) := by
  cases hus with
  | entries hcomma => exact .cons hcomma
  | noEntries =>
      obtain rfl : ps' = [] := List.map_eq_nil_iff.mp hps
      subst hlone
      obtain rfl : p' = .loneStar := by
        cases p' with
        | loneStar => rfl
        | slash | star | doubleStar | plain => exact nomatch hp
      obtain ⟨list₁, hfirst, hlist⟩ := Option.bind_eq_some_iff.mp henter
      obtain rfl := Option.some.inj hlist
      rw [needsNamed_of_enter hfirst] at hneeds
      exact nomatch hneeds

theorem completeEntries_cons {p : Entry} {ps : List Entry} (ht : isOp "," t = true)
    (hus : Derives fit us (.entries ps)) (h : CompleteEntry ts p) (hmore : CompleteEntries us ps) :
    CompleteEntries (t :: (ts ++ us)) (p :: ps) where
  steps {n} hn rest hrest stop := by
    rw [List.length_cons, List.length_append] at hn
    obtain ⟨p', stop₁, hp, hread⟩ := h (n := n) (by omega)
      (.append (fun t ht => .inl (hus.of_mem_head t ht)) hrest) t.span.stop
    obtain ⟨ps', stop₂, hps, hsteps⟩ := hmore.steps (n := n) (by omega) hrest stop₁
    refine ⟨p' :: ps', stop₂, map_cons_congr hp hps, fun list list' henter hneeds => ?_⟩
    have hcomma : p = .loneStar → Next (fun t => isOp "," t = true) (us ++ rest) :=
      comma_of_loneStar hus hp hps henter hneeds
    obtain ⟨list₁, hfirst, hrest⟩ := Option.bind_eq_some_iff.mp henter
    refine .step ?_ (hsteps list₁ list' hrest hneeds)
    refine maybe_of_some ?_
    rw [List.cons_append, List.append_assoc, bind_of_eq (op_cons ht)]
    exact hread list list₁ hfirst hcomma
  length := by
    have hlength := hmore.length
    simp only [List.length_cons, List.length_append]
    omega

/-! ## Parameter lists and lambdas -/

/-- A parameter list is read up to its colon. -/
def CompleteParameters (ts : List Token) (ps : List Entry) : Prop :=
  ∀ {n}, ts.length ≤ n → ∀ {t}, isOp ":" t = true → ∀ rest stop, ∃ ps' stop',
    ps'.map Entry.unplaced = ps.map Entry.unplaced ∧
      ∀ list, ParameterList.enterAll {} ps' = some list → list.needsNamed = false →
        parameterList ":" binder binder (level (n + 1)).expression ⟨ts ++ t :: rest, stop⟩
          = some (list, ⟨t :: rest, stop'⟩)

theorem complete_noParameters : CompleteParameters [] [] := by
  intro n _ t ht rest stop
  refine ⟨[], stop, rfl, fun list henter _ => ?_⟩
  obtain rfl := Option.some.inj henter
  rw [List.nil_append, parameterList, bind_of_eq (seesOp_of_eq ht)]
  rfl

/-- No entry is read in front of the colon. -/
theorem parameterEntry_of_colon {p : Reader Expr} (h : isOp ":" t = true) :
    parameterEntry binder binder p list ⟨t :: ts, stop⟩ = none := by
  rw [parameterEntry]
  cases list.variadicNamed.isNone with
  | false => rfl
  | true =>
      refine (bind_of_eq require_true).trans ?_
      refine (bind_of_eq (takesOp_of_false (isOp_of_ne h (by decide)))).trans ?_
      refine (bind_of_eq (takesOp_of_false (isOp_of_ne h (by decide)))).trans ?_
      refine (bind_of_eq (takesOp_of_false (isOp_of_ne h (by decide)))).trans ?_
      exact bind_of_none (bind_of_none (nextIf_of_false (isIdentifier_of_isOp h)))

theorem Derives.not_colon_entry {p : Entry} (h : Derives fit ts (.entry p)) (rest : List Token) :
    Next (fun t => isOp ":" t = false) (ts ++ rest) := by
  obtain ⟨t, us, rfl, ht⟩ := h.exists_cons rfl
  refine .cons ?_
  simp only [Phrase.opens, opensEntry, Bool.or_eq_true] at ht
  rcases ht with ((ht | ht) | ht) | ht
  · exact isOp_of_isIdentifier ht
  all_goals exact isOp_of_ne ht (by decide)

theorem complete_parameters {p : Entry} {ps : List Entry} (hts : Derives fit ts (.entry p))
    (hus : Derives fit us (.entries ps)) (hvs : Trail vs) (h : CompleteEntry ts p)
    (hmore : CompleteEntries us ps) : CompleteParameters (ts ++ (us ++ vs)) (p :: ps) := by
  intro n hn t ht rest stop
  simp only [List.length_append] at hn
  have hends : Next endsEntry (vs ++ t :: rest) :=
    .append (fun t ht => .inl (hvs.of_mem_head t ht)) (.cons (.inr ht))
  obtain ⟨p', stop₁, hp, hread⟩ := h (n := n) (by omega)
    (.append (fun t ht => .inl (hus.of_mem_head t ht)) hends) stop
  obtain ⟨ps', stop₂, hps, hsteps⟩ := hmore.steps (n := n) (by omega) hends stop₁
  obtain ⟨b, stop₃, htakes⟩ : ∃ b stop₃,
      takesOp "," ⟨vs ++ t :: rest, stop₂⟩ = some (b, ⟨t :: rest, stop₃⟩) := by
    cases hvs with
    | none => exact ⟨false, stop₂, takesOp_of_false (isOp_of_ne ht (by decide))⟩
    | comma hcomma => exact ⟨true, _, takesOp_cons hcomma⟩
  refine ⟨p' :: ps', stop₃, map_cons_congr hp hps, fun list henter hneeds => ?_⟩
  have hlone : p = .loneStar → Next (fun t => isOp "," t = true) (us ++ (vs ++ t :: rest)) :=
    comma_of_loneStar hus hp hps henter hneeds
  obtain ⟨list₁, hfirst, hentries⟩ := Option.bind_eq_some_iff.mp henter
  have hlast : nextEntry (level (n + 1)) list ⟨vs ++ t :: rest, stop₂⟩
      = some (none, ⟨vs ++ t :: rest, stop₂⟩) := by
    refine maybe_of_none ?_
    cases hvs with
    | none => exact bind_of_none (op_of_false (isOp_of_ne ht (by decide)))
    | comma hcomma => exact (bind_of_eq (op_cons hcomma)).trans (parameterEntry_of_colon ht)
  have hwhile : whileSome (nextEntry (level (n + 1))) list₁ ⟨us ++ (vs ++ t :: rest), stop₁⟩
      = some (list, ⟨vs ++ t :: rest, stop₂⟩) := by
    refine whileSome_of_steps (hsteps list₁ list hentries hneeds) ?_ hlast
    have hlength := hmore.length
    simp only [List.length_append]
    omega
  rw [List.append_assoc, List.append_assoc, parameterList]
  refine (bind_of_eq (seesOp_of_next (hts.not_colon_entry _))).trans ?_
  refine (bind_of_eq (hread {} list₁ hfirst hlone)).trans ?_
  refine (bind_of_eq hwhile).trans ?_
  rw [bind_of_eq htakes, bind_of_eq (seesOp_of_eq ht), hneeds]
  rfl

theorem complete_lambda {ps : List Entry} (ht : isWord "lambda" t = true)
    (henter : ParameterList.enterAll {} ps = some list) (hneeds : list.needsNamed = false)
    (hu : isOp ":" u = true) (hts : CompleteParameters ts ps)
    (hus : CompleteOne us (.rule .expression) e) :
    CompleteOne (t :: (ts ++ u :: us)) (.rule .expression)
      (.lambda span list.binders (list.named.filterMap (·.2)) list.defaults e) := by
  refine complete_rule rfl fun n hn rest hrest stop => ?_
  simp only [List.length_append, List.length_cons] at hn
  obtain ⟨n, rfl⟩ := Nat.exists_eq_add_one.mpr (show 0 < n by omega)
  obtain ⟨ps', stop₁, hps, hread⟩ := hts (n := n) (by omega) hu (us ++ rest) t.span.stop
  obtain ⟨list', henter', hlist⟩ := enterAll_congr henter rfl hps
  have hneeds' : list'.needsNamed = false :=
    (congrArg ParameterList.needsNamed hlist).trans hneeds
  obtain ⟨e', stop₂, hbody, hshape⟩ := hus.yields (n := n) (by omega) hrest u.span.stop
  refine ⟨.lambda ⟨t.span.start, stop₂⟩ list'.binders (list'.named.filterMap (·.2)) list'.defaults
    e', stop₂, ?_, sameShape_lambda hlist hshape⟩
  show expression (level (n + 1)) _ = _
  rw [List.cons_append, List.append_assoc, List.cons_append, expression, bind_of_eq here_cons,
    bind_of_eq (seesWord_of_eq ht), if_pos rfl, lambdaExpression, bind_of_eq here_cons,
    bind_of_eq (word_cons ht), bind_of_eq (hread list' henter' hneeds'), bind_of_eq (op_cons hu)]
  refine (bind_of_eq hbody).trans ?_
  rfl

end Covenant.Grammar
