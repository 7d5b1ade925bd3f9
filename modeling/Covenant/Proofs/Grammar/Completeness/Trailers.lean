import Covenant.Proofs.Grammar.Completeness.Brackets

/-! # Fields, calls and indices are read

    What follows a primary is read as one more step of the loop over what
    follows it (`Looped.extend`).

    * Arguments are read one after the other; what has been read so far is
      what decides whether one more may follow (`CompleteArguments`).
    * An index is one index or several; a slice has parts that may be absent
      (`CompleteOptional`). -/

namespace Covenant.Grammar

open Covenant.Tree Reader

variable {fit : Expr → Prop} {t u : Token} {ts us vs rest : List Token} {e f : Expr} {n : Nat}
  {stop : Pos} {l : Level} {span : Span}

/-! ## One more step -/

/-- The loop of a rule takes one more step. -/
theorem Looped.extend {r : Rule} {e' : Expr} (h : Looped r ts e) (hts : ts ≠ []) (hus : us ≠ [])
    (hnext : ∀ t ∈ us.head?, r.inner.stops t = true)
    (hstep : ∀ n, (ts ++ us).length ≤ n → ∀ rest, Next (fun t => r.inner.stops t = true) rest →
      ∀ a stop, a.SameShape e → ∃ a' stop', r.step (level n) (startOf ts) a ⟨us ++ rest, stop⟩
        = some (some a', ⟨rest, stop'⟩) ∧ a'.SameShape e') : Looped r (ts ++ us) e' := by
  intro n hn rest hrest stop
  have hlength := hn
  rw [List.length_append] at hlength
  obtain ⟨a, c, m, e₁, stop₁, hfirst, hsteps, hcount, hshape⟩ :=
    h n (by omega) (us ++ rest) (.append hnext hrest) stop
  obtain ⟨e₂, stop₂, hone, hshape₂⟩ := hstep n hn rest hrest e₁ stop₁ hshape
  refine ⟨a, c, m + 1, e₂, stop₂, ?_, ?_, ?_, hshape₂⟩
  · rw [List.append_assoc]
    exact hfirst
  · rw [startOf_append hts]
    exact hsteps.trans (.step hone .none)
  · rw [List.length_append] at hcount
    have := List.length_pos_iff.mpr hus
    omega

theorem trailer_dot {start : Pos} (h : isOp "." t = true) :
    trailer l start e ⟨t :: ts, stop⟩ = (do
      op "."
      let n ← identifier
      pure (some (.field (← spanFrom start) e n.text .load)) : Reader (Option Expr))
        ⟨t :: ts, stop⟩ := by
  obtain ⟨hkind, htext⟩ := isOp_eq_true.mp h
  rw [trailer, bind_of_eq peek_cons, if_pos hkind, htext]
  rfl

theorem trailer_round {start : Pos} (h : isOp "(" t = true) :
    trailer l start e ⟨t :: ts, stop⟩
      = (do pure (some (← callRest l start e)) : Reader (Option Expr)) ⟨t :: ts, stop⟩ := by
  obtain ⟨hkind, htext⟩ := isOp_eq_true.mp h
  rw [trailer, bind_of_eq peek_cons, if_pos hkind, htext]
  rfl

theorem trailer_square {start : Pos} (h : isOp "[" t = true) :
    trailer l start e ⟨t :: ts, stop⟩
      = (do pure (some (← subscriptRest l start e)) : Reader (Option Expr)) ⟨t :: ts, stop⟩ := by
  obtain ⟨hkind, htext⟩ := isOp_eq_true.mp h
  rw [trailer, bind_of_eq peek_cons, if_pos hkind, htext]
  rfl

theorem head_stops {r : Rule} {o : String} (h : isOp o t = true)
    (ho : r.stopsAt (ruleOfSign o) = true) : ∀ u ∈ (t :: ts).head?, r.stops u = true := by
  intro u hu
  obtain rfl := Option.some.inj hu
  exact stops_of_isOp h ho

theorem looped_field (h : Looped .primary ts e) (hts : ts ≠ []) (ht : isOp "." t = true)
    (hu : isIdentifier u = true) :
    Looped .primary (ts ++ [t, u]) (.field span e u.text .load) := by
  refine h.extend hts (List.cons_ne_nil _ _) (head_stops ht rfl) fun n _ rest _ a stop hshape => ?_
  refine ⟨.field ⟨startOf ts, u.span.stop⟩ a u.text .load, u.span.stop, ?_,
    sameShape_field hshape⟩
  show trailer (level n) (startOf ts) a ⟨t :: u :: rest, stop⟩ = _
  rw [trailer_dot ht, bind_of_eq (op_cons ht), bind_of_eq (identifier_cons hu)]
  rfl

/-! ## Arguments -/

/-- Whether an argument goes no further than to a token. -/
def endsArgument (t : Token) : Prop := Rule.expression.stops t = true ∧ isOp "=" t = false

theorem endsArgument_of_isOp {o : String} (h : isOp o t = true)
    (ho : Rule.expression.stopsAt (ruleOfSign o) = true) (hne : o ≠ "=") : endsArgument t :=
  ⟨stops_of_isOp h ho, isOp_of_ne h hne⟩

/-- An argument is read where it may follow. -/
def CompleteArgument (ts : List Token) (a : Argument) : Prop :=
  ∀ {n}, ts.length ≤ n → ∀ {rest}, Next endsArgument rest → ∀ stop, ∃ a' stop',
    a'.unplaced = a.unplaced ∧ ∀ given as, Holds given as →
      a'.mayFollow given = true → ∃ as', argument (level (n + 1)) as ⟨ts ++ rest, stop⟩
        = some (as', ⟨rest, stop'⟩) ∧ Holds (given ++ [a']) as'

theorem complete_positional (hts : Derives fit ts (.one (.rule .expression) e))
    (h : CompleteOne ts (.rule .expression) e) : CompleteArgument ts (.positional e) := by
  intro n hn rest hrest stop
  have hstops : Next (fun t => Rule.expression.stops t = true) rest := hrest.mono fun _ h => h.1
  have hnaming : Next (fun t => isOp ":=" t = false) rest :=
    hrest.mono fun _ h => not_naming_of_stops h.1
  obtain ⟨e', stop', hread, hshape⟩ := namedExpression_of_yields (h.yields hn hstops)
    ((hts.next rest).mono fun _ _ => trivial) hnaming stop
  have hunassigned : Unassigned (ts ++ rest) :=
    hts.unassigned_append (hts.second rfl) fun t ht => by
      obtain ⟨u, us, rfl, hu⟩ := hrest
      obtain rfl := Option.some.inj ht
      exact Bool.or_eq_false_iff.mpr ⟨hu.2, not_naming_of_stops hu.1⟩
  refine ⟨.positional e', stop', congrArg Argument.positional hshape,
    fun given as hgiven hmay => ⟨_, ?_, hgiven.positional e'⟩⟩
  rw [hgiven.mayFollow_positional] at hmay
  rw [argument, bind_of_eq (here_of_next ((hts.next rest).mono fun _ _ => trivial))]
  refine (bind_of_eq (takesOp_of_next (hts.not_op rfl rest))).trans ?_
  refine (bind_of_eq (takesOp_of_next ((hts.next rest).mono fun _ h =>
    isOp_of_starts h rfl))).trans ?_
  refine (bind_of_eq (ahead_of_unassigned hunassigned)).trans ?_
  rw [hmay]
  refine (bind_of_eq require_true).trans ?_
  refine (bind_of_eq hread).trans ?_
  refine (bind_of_eq (seesOp_of_next hnaming)).trans ?_
  refine (bind_of_eq (seesOp_of_next (hrest.mono fun _ h => h.2))).trans ?_
  rfl

theorem complete_starArgument (ht : isOp "*" t = true) (h : CompleteOne ts (.rule .expression) e) :
    CompleteArgument (t :: ts) (.star span e) := by
  intro n hn rest hrest stop
  rw [List.length_cons] at hn
  obtain ⟨e', stop', hread, hshape⟩ := h.yields (n := n) (by omega) (hrest.mono fun _ h => h.1)
    t.span.stop
  refine ⟨.star ⟨t.span.start, stop'⟩ e', stop', congrArg (Argument.star nowhere) hshape,
    fun given as hgiven hmay => ⟨_, ?_, hgiven.star e'⟩⟩
  rw [hgiven.mayFollow_star] at hmay
  rw [List.cons_append, argument, bind_of_eq here_cons]
  refine (bind_of_eq (takesOp_of_false (isOp_of_ne ht (by decide)))).trans ?_
  refine (bind_of_eq (takesOp_cons ht)).trans ?_
  rw [hmay]
  refine (bind_of_eq require_true).trans ?_
  refine (bind_of_eq hread).trans ?_
  rfl

theorem complete_namedArgument (ht : isIdentifier t = true) (hu : isOp "=" u = true)
    (h : CompleteOne ts (.rule .expression) e) :
    CompleteArgument (t :: u :: ts) (.named span t.text e) := by
  intro n hn rest hrest stop
  rw [List.length_cons, List.length_cons] at hn
  obtain ⟨e', stop', hread, hshape⟩ := h.yields (n := n) (by omega) (hrest.mono fun _ h => h.1)
    u.span.stop
  refine ⟨.named ⟨t.span.start, stop'⟩ t.text e', stop',
    congrArg (Argument.named nowhere t.text) hshape,
    fun given as hgiven _ => ⟨_, ?_, hgiven.named t.text e'⟩⟩
  have hahead : ahead (do let _ ← identifier; op "=") ⟨t :: u :: (ts ++ rest), stop⟩
      = some (true, ⟨t :: u :: (ts ++ rest), stop⟩) := by
    refine ahead_eq_some.mpr ⟨rfl, ?_⟩
    rw [bind_of_eq (identifier_cons ht), op_cons hu]
    rfl
  rw [List.cons_append, List.cons_append, argument, bind_of_eq here_cons]
  refine (bind_of_eq (takesOp_of_false (isOp_of_isIdentifier ht))).trans ?_
  refine (bind_of_eq (takesOp_of_false (isOp_of_isIdentifier ht))).trans ?_
  refine (bind_of_eq hahead).trans ?_
  rw [if_pos rfl, bind_of_eq (identifier_cons ht), bind_of_eq (op_cons hu)]
  refine (bind_of_eq hread).trans ?_
  rfl

theorem complete_unpackedArgument (ht : isOp "**" t = true)
    (h : CompleteOne ts (.rule .expression) e) : CompleteArgument (t :: ts) (.unpacked span e) := by
  intro n hn rest hrest stop
  rw [List.length_cons] at hn
  obtain ⟨e', stop', hread, hshape⟩ := h.yields (n := n) (by omega) (hrest.mono fun _ h => h.1)
    t.span.stop
  refine ⟨.unpacked ⟨t.span.start, stop'⟩ e', stop', congrArg (Argument.unpacked nowhere) hshape,
    fun given as hgiven _ => ⟨_, ?_, hgiven.unpack e'⟩⟩
  rw [List.cons_append, argument, bind_of_eq here_cons, bind_of_eq (takesOp_cons ht)]
  refine (bind_of_eq hread).trans ?_
  rfl

/-- Arguments behind commas are read one after the other. -/
structure CompleteArguments (ts : List Token) (as : List Argument) : Prop where
  steps : ∀ {n}, ts.length ≤ n → ∀ {rest}, Next endsArgument rest →
    ∀ stop, ∃ as' stop', as'.map Argument.unplaced = as.map Argument.unplaced ∧
      ∀ given args, Holds given args → Argument.inOrder given as' = true → ∃ args',
        Steps (nextArgument (level (n + 1))) as.length args ⟨ts ++ rest, stop⟩ args'
          ⟨rest, stop'⟩ ∧ Holds (given ++ as') args'
  length : as.length ≤ ts.length

theorem completeArguments_nil : CompleteArguments [] [] where
  steps _ _ _ stop := ⟨[], stop, rfl, fun given args hgiven _ =>
    ⟨args, .none, by rwa [List.append_nil]⟩⟩
  length := Nat.le_refl 0

theorem completeArguments_cons {a : Argument} {as : List Argument} (ht : isOp "," t = true)
    (hus : Derives fit us (.arguments as)) (h : CompleteArgument ts a)
    (hmore : CompleteArguments us as) : CompleteArguments (t :: (ts ++ us)) (a :: as) where
  steps {n} hn rest hrest stop := by
    rw [List.length_cons, List.length_append] at hn
    obtain ⟨a', stop₁, ha, hread⟩ := h (n := n) (by omega)
      (.append (fun t ht => endsArgument_of_isOp (hus.of_mem_head t ht) rfl (by decide)) hrest) t.span.stop
    obtain ⟨as', stop₂, has, hsteps⟩ := hmore.steps (n := n) (by omega) hrest stop₁
    refine ⟨a' :: as', stop₂, map_cons_congr ha has, fun given args hgiven horder => ?_⟩
    obtain ⟨hmay, horder⟩ := Bool.and_eq_true_iff.mp horder
    obtain ⟨args₁, hone, hgiven₁⟩ := hread given args hgiven hmay
    obtain ⟨args₂, hsteps₂, hgiven₂⟩ := hsteps (given ++ [a']) args₁ hgiven₁ horder
    refine ⟨args₂, .step ?_ hsteps₂, by rwa [List.append_assoc] at hgiven₂⟩
    refine maybe_of_some ?_
    rw [List.cons_append, List.append_assoc, bind_of_eq (op_cons ht)]
    exact hone
  length := by
    have hlength := hmore.length
    simp only [List.length_cons, List.length_append]
    omega

/-- No argument is read in front of a closing bracket. -/
theorem argument_of_closed {as : Arguments} (h : isOp ")" t = true) :
    argument (level (n + 1)) as ⟨t :: ts, stop⟩ = none := by
  obtain ⟨hstarts, hawait, -, hstar, hstars, -⟩ :=
    closes_eq_true.mp (Display.closes_of_closer (d := .tuple) h)
  have hunassigned : Unassigned (t :: ts) := unassigned_of_isOp h
  have hnamed : namedExpression (level (n + 1)) ⟨t :: ts, stop⟩ = none := by
    rw [namedExpression, bind_of_eq here_cons]
    exact bind_of_none (reader_of_not_starts hstarts hawait .expression)
  rw [argument, bind_of_eq here_cons]
  refine (bind_of_eq (takesOp_of_false hstars)).trans ?_
  refine (bind_of_eq (takesOp_of_false hstar)).trans ?_
  refine (bind_of_eq (ahead_of_unassigned hunassigned)).trans ?_
  cases as.keywords.isEmpty with
  | true =>
      refine (bind_of_eq require_true).trans ?_
      exact bind_of_none hnamed
  | false => rfl

/-- What stands in the brackets of a call is read. -/
def CompleteGiven (ts : List Token) (as : List Argument) : Prop :=
  ∀ {n}, ts.length ≤ n → ∀ {t}, isOp ")" t = true → ∀ rest stop, ∃ as' args stop',
    as'.map Argument.unplaced = as.map Argument.unplaced ∧ Holds as' args ∧
      arguments (level (n + 1)) ⟨ts ++ t :: rest, stop⟩ = some (args, ⟨t :: rest, stop'⟩)

theorem complete_nothingGiven : CompleteGiven [] [] := by
  intro n _ t ht rest stop
  refine ⟨[], {}, stop, rfl, ⟨rfl, rfl, rfl⟩, ?_⟩
  show arguments (level (n + 1)) ⟨t :: rest, stop⟩ = _
  rw [arguments, bind_of_eq (seesOp_of_eq ht)]
  rfl

theorem Derives.not_closed_argument {a : Argument} (h : Derives fit ts (.argument a))
    (rest : List Token) : Next (fun t => isOp ")" t = false) (ts ++ rest) := by
  obtain ⟨t, us, rfl, ht⟩ := h.exists_cons rfl
  refine .cons ?_
  simp only [Phrase.opens, opensArgument, Bool.or_eq_true] at ht
  rcases ht with (ht | ht) | ht
  · exact isOp_of_starts ht rfl
  · exact isOp_of_ne ht (by decide)
  · exact isOp_of_ne ht (by decide)

theorem complete_given {a : Argument} {as : List Argument} (hts : Derives fit ts (.argument a))
    (hus : Derives fit us (.arguments as)) (hvs : Trail vs)
    (horder : Argument.inOrder [] (a :: as) = true) (h : CompleteArgument ts a)
    (hmore : CompleteArguments us as) : CompleteGiven (ts ++ (us ++ vs)) (a :: as) := by
  intro n hn t ht rest stop
  simp only [List.length_append] at hn
  have hends : Next endsArgument (vs ++ t :: rest) :=
    .append (fun t ht => endsArgument_of_isOp (hvs.of_mem_head t ht) rfl (by decide))
      (.cons (endsArgument_of_isOp ht rfl (by decide)))
  obtain ⟨a', stop₁, ha, hread⟩ := h (n := n) (by omega)
    (.append (fun t ht => endsArgument_of_isOp (hus.of_mem_head t ht) rfl (by decide)) hends) stop
  obtain ⟨as', stop₂, has, hsteps⟩ := hmore.steps (n := n) (by omega) hends stop₁
  have hunplaced : (a' :: as').map Argument.unplaced = (a :: as).map Argument.unplaced :=
    map_cons_congr ha has
  rw [← Argument.inOrder_unplaced, List.map_nil, ← hunplaced] at horder
  obtain ⟨hmay, horder⟩ :=
    Bool.and_eq_true_iff.mp ((Argument.inOrder_unplaced [] (a' :: as')).symm.trans horder)
  obtain ⟨args₁, hone, hholds₁⟩ := hread [] {} ⟨rfl, rfl, rfl⟩ hmay
  obtain ⟨args₂, hsteps₂, hholds₂⟩ := hsteps ([] ++ [a']) args₁ hholds₁ horder
  have hlast : nextArgument (level (n + 1)) args₂ ⟨vs ++ t :: rest, stop₂⟩
      = some (none, ⟨vs ++ t :: rest, stop₂⟩) := by
    refine maybe_of_none ?_
    cases hvs with
    | none => exact bind_of_none (op_of_false (isOp_of_ne ht (by decide)))
    | comma hcomma => exact (bind_of_eq (op_cons hcomma)).trans (argument_of_closed ht)
  obtain ⟨b, stop₃, htakes⟩ : ∃ b stop₃,
      takesOp "," ⟨vs ++ t :: rest, stop₂⟩ = some (b, ⟨t :: rest, stop₃⟩) := by
    cases hvs with
    | none => exact ⟨false, stop₂, takesOp_of_false (isOp_of_ne ht (by decide))⟩
    | comma hcomma => exact ⟨true, _, takesOp_cons hcomma⟩
  have hwhile : whileSome (nextArgument (level (n + 1))) args₁ ⟨us ++ (vs ++ t :: rest), stop₁⟩
      = some (args₂, ⟨vs ++ t :: rest, stop₂⟩) := by
    refine whileSome_of_steps hsteps₂ ?_ hlast
    have hlength := hmore.length
    simp only [List.length_append]
    omega
  refine ⟨a' :: as', { args₂ with comma := b }, stop₃, hunplaced,
    ⟨hholds₂.args, hholds₂.keywords, hholds₂.unpacked⟩, ?_⟩
  rw [List.append_assoc, List.append_assoc, arguments]
  refine (bind_of_eq (seesOp_of_next (hts.not_closed_argument _))).trans ?_
  refine (bind_of_eq hone).trans ?_
  refine (bind_of_eq hwhile).trans ?_
  rw [bind_of_eq htakes]
  rfl

/-! ## Calls -/

theorem callRest_of_given {as : List Argument} {start : Pos} (hus : CompleteGiven us as)
    (ht : isOp "(" t = true) (hu : isOp ")" u = true) (hn : us.length ≤ n) :
    ∃ as' : List Argument, callRest (level (n + 1)) start f ⟨t :: (us ++ u :: rest), stop⟩
        = some (.call ⟨start, u.span.stop⟩ f (as'.filterMap Argument.positional?)
            (as'.filterMap Argument.keyword?), ⟨rest, u.span.stop⟩) ∧
      as'.map Argument.unplaced = as.map Argument.unplaced := by
  obtain ⟨as', args, stop₁, has, hholds, hread⟩ := hus hn hu rest t.span.stop
  refine ⟨as', ?_, has⟩
  have hfor : seesFor ⟨u :: rest, stop₁⟩ = some (false, ⟨u :: rest, stop₁⟩) :=
    seesFor_of_op (.cons (isOp_eq_true.mp hu).1)
  rw [callRest, bind_of_eq here_cons, bind_of_eq (op_cons ht), bind_of_eq hread, ← hholds.args,
    ← hholds.keywords]
  match args.args, args.keywords with
  | [e], [] =>
      refine (bind_of_eq hfor).trans ?_
      rw [if_neg Bool.false_ne_true, bind_of_eq (op_cons hu)]
      rfl
  | [], _ | [_], _ :: _ | _ :: _ :: _, _ =>
      simp only
      rw [bind_of_eq (op_cons hu)]
      rfl

theorem looped_call {as : List Argument} (h : Looped .primary ts f) (hts : ts ≠ [])
    (ht : isOp "(" t = true) (hus : CompleteGiven us as) (hu : isOp ")" u = true)
    (he : e = .call span f (as.filterMap Argument.positional?)
      (as.filterMap Argument.keyword?)) :
    Looped .primary (ts ++ t :: (us ++ [u])) e := by
  refine h.extend hts (List.cons_ne_nil _ _) (head_stops ht rfl) fun n hn rest _ a stop hshape => ?_
  simp only [List.length_cons, List.length_append, List.length_nil] at hn
  obtain ⟨n, rfl⟩ := Nat.exists_eq_add_one.mpr (show 0 < n by omega)
  obtain ⟨as', hread, has⟩ := callRest_of_given (f := a)
    (n := n) hus ht hu (by omega)
  refine ⟨.call ⟨startOf ts, u.span.stop⟩ a (as'.filterMap Argument.positional?)
    (as'.filterMap Argument.keyword?), u.span.stop, ?_,
    he ▸ sameShape_call hshape (positional?_congr has) (keyword?_congr has)⟩
  show trailer (level (n + 1)) (startOf ts) a _ = _
  rw [List.cons_append, List.append_assoc, List.cons_append, List.nil_append, trailer_round ht,
    bind_of_eq hread]
  rfl

theorem looped_callComprehension {g : Expr} {gs : List Generator} {span' : Span}
    (h : Looped .primary ts f) (hts : ts ≠ []) (ht : isOp "(" t = true)
    (hus : Derives fit us (.one (.rule .expression) g)) (hvs : Derives fit vs (.parts gs))
    (hgs : gs ≠ []) (hu : isOp ")" u = true) (hg : CompleteOne us (.rule .expression) g)
    (hparts : CompleteParts vs gs)
    (he : e = .call span f [.comprehension span' .generator [g] gs] []) :
    Looped .primary (ts ++ t :: (us ++ (vs ++ [u]))) e := by
  refine h.extend hts (List.cons_ne_nil _ _) (head_stops ht rfl) fun n hn rest _ a stop hshape => ?_
  simp only [List.length_cons, List.length_append, List.length_nil] at hn
  obtain ⟨n, rfl⟩ := Nat.exists_eq_add_one.mpr (show 0 < n by omega)
  have hfor : Next (fun t => opensPart t = true) (vs ++ u :: rest) := next_parts hvs hgs
  obtain ⟨a', stop₁, ha, hread⟩ := complete_positional hus hg (n := n) (by omega)
    (hfor.mono fun _ h => ⟨stops_of_for h, isOp_of_for h⟩) t.span.stop
  -- the only argument is the element of the comprehension
  obtain ⟨g', rfl⟩ : ∃ g', a' = .positional g' := by
    cases a' with
    | positional g' => exact ⟨g', rfl⟩
    | star | named | unpacked => exact nomatch ha
  obtain ⟨args, hone, hholds⟩ := hread [] {} ⟨rfl, rfl, rfl⟩ rfl
  have hgshape : g'.SameShape g := Argument.positional.inj ha
  have hnext : nextArgument (level (n + 1)) args ⟨vs ++ u :: rest, stop₁⟩
      = some (none, ⟨vs ++ u :: rest, stop₁⟩) := by
    refine maybe_of_none ?_
    obtain ⟨v, vs', heq, hv⟩ := hfor
    rw [heq]
    exact bind_of_none (op_of_false (isOp_of_for hv))
  have hwhile : whileSome (nextArgument (level (n + 1))) args ⟨vs ++ u :: rest, stop₁⟩
      = some (args, ⟨vs ++ u :: rest, stop₁⟩) :=
    whileSome_of_steps .none (Nat.zero_le _) hnext
  have harguments : arguments (level (n + 1)) ⟨us ++ (vs ++ u :: rest), t.span.stop⟩
      = some ({ args with comma := false }, ⟨vs ++ u :: rest, stop₁⟩) := by
    rw [arguments]
    refine (bind_of_eq (seesOp_of_next (hus.not_op rfl _))).trans ?_
    refine (bind_of_eq hone).trans ?_
    refine (bind_of_eq hwhile).trans ?_
    rw [bind_of_eq (takesOp_of_next (hfor.mono fun _ h => isOp_of_for h))]
    rfl
  obtain ⟨gs', hrest, hgshapes⟩ := comprehensionRest_of_parts (d := .tuple)
    (n := n) (k := .generator) hparts hgs hu
    (by omega)
  have hcall : callRest (level (n + 1)) (startOf ts) a ⟨t :: (us ++ (vs ++ u :: rest)), stop⟩
      = some (.call ⟨startOf ts, u.span.stop⟩ a
          [.comprehension ⟨t.span.start, u.span.stop⟩ .generator [g'] gs'] [],
          ⟨rest, u.span.stop⟩) := by
    have hargs : args.args = [g'] := hholds.args
    have hkeywords : args.keywords = [] := hholds.keywords
    rw [callRest, bind_of_eq here_cons, bind_of_eq (op_cons ht), bind_of_eq harguments]
    simp only [hargs, hkeywords]
    refine (bind_of_eq (seesFor_of_parts hvs hgs)).trans ?_
    rw [hus.not_isStarred hgshape]
    refine (bind_of_eq require_true).trans ?_
    refine (bind_of_eq hrest).trans ?_
    rfl
  refine ⟨.call ⟨startOf ts, u.span.stop⟩ a
    [.comprehension ⟨t.span.start, u.span.stop⟩ .generator [g'] gs'] [], u.span.stop, ?_,
    he ▸ sameShape_call hshape (map_cons_congr
      (sameShape_comprehension (map_cons_congr hgshape rfl) hgshapes) rfl) rfl⟩
  show trailer (level (n + 1)) (startOf ts) a _ = _
  simp only [List.cons_append, List.append_assoc, List.nil_append]
  rw [trailer_round ht, bind_of_eq hcall]
  rfl

/-! ## Indices -/

/-- An expression that may be absent is read. -/
def CompleteOptional (ts : List Token) (o : Option Expr) : Prop :=
  ts = [] ∧ o = none ∨ ∃ e, o = some e ∧ CompleteOne ts (.rule .expression) e

/-- A step of a slice is read. -/
def CompleteStep (ts : List Token) (o : Option Expr) : Prop :=
  ts = [] ∧ o = none ∨ ∃ t us, ts = t :: us ∧ isOp ":" t = true ∧ CompleteOptional us o

/-- Whether an expression goes no further than to the token, and none starts with it. -/
def ends (t : Token) : Prop :=
  Rule.expression.stops t = true ∧ starts t = false ∧ isWord "await" t = false

theorem ends_of_isOp {o : String} (h : isOp o t = true)
    (ho : (Rule.expression.stopsAt (ruleOfSign o) && !startingSigns.contains o) = true) :
    ends t := by
  obtain ⟨hstops, hsign⟩ := Bool.and_eq_true_iff.mp ho
  refine ⟨stops_of_isOp h hstops, ?_, isWord_of_isOp h⟩
  rw [Bool.eq_false_iff]
  intro hstarts
  rw [isOp_of_starts hstarts (by simpa using hsign)] at h
  exact nomatch h

theorem maybe_of_optional {o : Option Expr} (h : CompleteOptional ts o) (hn : ts.length ≤ n)
    (hrest : Next ends rest) :
    ∃ o' stop', maybe (level (n + 1)).expression ⟨ts ++ rest, stop⟩ = some (o', ⟨rest, stop'⟩) ∧
      o'.map Expr.unplaced = o.map Expr.unplaced := by
  rcases h with ⟨rfl, rfl⟩ | ⟨e, rfl, h⟩
  · obtain ⟨t, us, rfl, -, hstarts, hawait⟩ := hrest
    exact ⟨none, stop, maybe_of_none (reader_of_not_starts hstarts hawait .expression), rfl⟩
  · obtain ⟨e', stop', hread, hshape⟩ := h.yields hn (hrest.mono fun _ h => h.1) stop
    exact ⟨some e', stop', maybe_of_some hread, congrArg some hshape⟩

theorem sliceEnd_of_complete {a b c : Option Expr} {a' : Option Expr} {start : Pos}
    (ha : a'.map Expr.unplaced = a.map Expr.unplaced) (ht : isOp ":" t = true)
    (hvs : Derives fit vs (.step c)) (hb : CompleteOptional us b) (hc : CompleteStep vs c)
    (hn : us.length + vs.length ≤ n) (hrest : Next (fun t => ends t ∧ isOp ":" t = false) rest) :
    ∃ e stop', sliceEnd (level (n + 1)) start a' ⟨t :: (us ++ (vs ++ rest)), stop⟩
        = some (e, ⟨rest, stop'⟩) ∧
      e.SameShape (.compound span (.slice a.isSome b.isSome c.isSome)
        (a.toList ++ b.toList ++ c.toList)) := by
  have hends : Next ends (vs ++ rest) :=
    .append (fun t ht => ends_of_isOp (hvs.of_mem_head t ht) rfl) (hrest.mono fun _ h => h.1)
  obtain ⟨b', stop₁, hupper, hb'⟩ := maybe_of_optional (n := n) hb (by omega)
    hends
  suffices hstep : ∃ (c' : Option Expr) (stop₂ : Pos), c'.map Expr.unplaced = c.map Expr.unplaced ∧
      sliceEnd (level (n + 1)) start a' ⟨t :: (us ++ (vs ++ rest)), stop⟩
        = some (.compound ⟨start, stop₂⟩ (.slice a'.isSome b'.isSome c'.isSome)
          (a'.toList ++ b'.toList ++ c'.toList), ⟨rest, stop₂⟩) by
    obtain ⟨c', stop₂, hc', hread⟩ := hstep
    exact ⟨_, stop₂, hread, sameShape_slice ha hb' hc'⟩
  rw [sliceEnd, bind_of_eq (op_cons ht), bind_of_eq hupper]
  rcases hc with ⟨rfl, rfl⟩ | ⟨u, ws, rfl, hu, hc⟩
  · refine ⟨none, stop₁, rfl, ?_⟩
    refine (bind_of_eq (takesOp_of_next (hrest.mono fun _ h => h.2))).trans ?_
    rfl
  · rw [List.length_cons] at hn
    obtain ⟨c', stop₂, hread, hc'⟩ := maybe_of_optional (n := n)
      hc (by omega) (hrest.mono fun _ h => h.1)
    refine ⟨c', stop₂, hc', ?_⟩
    rw [List.cons_append, bind_of_eq (takesOp_cons hu)]
    refine (bind_of_eq hread).trans ?_
    rfl

theorem complete_slice {a b c : Option Expr} (hts : Derives fit ts (.optional a))
    (ht : isOp ":" t = true) (hvs : Derives fit vs (.step c)) (ha : CompleteOptional ts a)
    (hb : CompleteOptional us b) (hc : CompleteStep vs c) :
    CompleteOne (ts ++ t :: (us ++ vs)) .index
      (.compound span (.slice a.isSome b.isSome c.isSome)
        (a.toList ++ b.toList ++ c.toList)) := by
  refine completeOne_of_not_loops nofun fun n hn rest hrest stop => ?_
  simp only [List.length_append, List.length_cons] at hn
  have hends : Next (fun t => ends t ∧ isOp ":" t = false) rest := hrest.mono fun t ht => by
    rcases (Bool.or_eq_true _ _).mp ht with ht | ht <;>
    exact ⟨ends_of_isOp ht rfl, isOp_of_ne ht (by decide)⟩
  rw [List.append_assoc, List.cons_append, List.append_assoc]
  have hunassigned : Unassigned (ts ++ t :: (us ++ (vs ++ rest))) := by
    cases ts with
    | nil => exact unassigned_of_isOp ht
    | cons =>
        exact (hts.second rfl).append (List.cons_ne_nil _ _)
          (head_cons (assigns_of_isOp ht (by decide)))
  have hstar : Next (fun t => isOp "*" t = false) (ts ++ t :: (us ++ (vs ++ rest))) :=
    .append (fun t ht => isOp_of_starts (hts.of_mem_head t ht) rfl)
      (.cons (isOp_of_ne ht (by decide)))
  suffices hindex : ∃ (a' : Option Expr) (stop₁ : Pos), a'.map Expr.unplaced = a.map Expr.unplaced ∧
      index (level (n + 1)) ⟨ts ++ t :: (us ++ (vs ++ rest)), stop⟩
        = sliceEnd (level (n + 1)) (startOf (ts ++ t :: (us ++ (vs ++ rest)))) a'
          ⟨t :: (us ++ (vs ++ rest)), stop₁⟩ by
    obtain ⟨a', stop₁, ha', hread⟩ := hindex
    obtain ⟨e, stop₂, hend, hshape⟩ := sliceEnd_of_complete (n := n)
      ha' ht hvs hb hc
      (by omega) hends
    exact ⟨e, stop₂, hread.trans hend, hshape⟩
  rcases ha with ⟨rfl, rfl⟩ | ⟨e, rfl, ha⟩
  · refine ⟨none, stop, rfl, ?_⟩
    rw [List.nil_append, index, bind_of_eq here_cons]
    refine (bind_of_eq (seesOp_of_next hstar)).trans ?_
    refine (bind_of_eq (ahead_of_unassigned hunassigned)).trans ?_
    refine (bind_of_eq (seesOp_of_eq ht)).trans ?_
    refine (bind_of_eq (pure_eq _)).trans ?_
    refine (bind_of_eq (seesOp_of_eq ht)).trans ?_
    rfl
  · cases hts with
    | present hts =>
        obtain ⟨e', stop₁, hread, hshape⟩ := namedExpression_of_yields
          (ha.yields (n := n) (by omega)
            (.cons (stops_of_isOp ht rfl)))
          ((hts.next _).mono fun _ _ => trivial)
          (.cons (isOp_of_ne ht (by decide))) stop
        refine ⟨some e', stop₁, congrArg some hshape, ?_⟩
        rw [index, bind_of_eq (here_of_next ((hts.next _).mono fun _ _ => trivial))]
        refine (bind_of_eq (seesOp_of_next hstar)).trans ?_
        refine (bind_of_eq (ahead_of_unassigned hunassigned)).trans ?_
        refine (bind_of_eq (seesOp_of_next ((hts.next _).mono fun _ h =>
          isOp_of_starts h rfl))).trans ?_
        refine (bind_of_eq hread).trans ?_
        refine (bind_of_eq (pure_eq _)).trans ?_
        refine (bind_of_eq (seesOp_of_eq ht)).trans ?_
        rfl

theorem subscriptRest_of_several {i : Expr} {start : Pos} (ht : isOp "[" t = true)
    (hus : CompleteSeveral us .index i) (hne : Next (fun _ => True) (us ++ u :: rest))
    (hu : isOp "]" u = true) (hn : us.length ≤ n) :
    ∃ i', subscriptRest (level (n + 1)) start e ⟨t :: (us ++ u :: rest), stop⟩
        = some (.compound ⟨start, u.span.stop⟩ (.subscript .load) [e, i'], ⟨rest, u.span.stop⟩) ∧
      i'.SameShape i := by
  have hstops : Kind.index.stops u = true := by
    show (_ || _) = true
    rw [hu, Bool.or_true]
  obtain ⟨es, b, stop₁, hlist, hlisted⟩ := hus hn
    (.cons ⟨hstops, Display.closes_of_closer (d := .list) hu⟩) t.span.stop
  have hend (i' : Expr) : subscriptEnd start e i' ⟨u :: rest, stop₁⟩
      = some (.compound ⟨start, u.span.stop⟩ (.subscript .load) [e, i'],
        ⟨rest, u.span.stop⟩) := by
    rw [subscriptEnd, bind_of_eq (op_cons hu)]
    rfl
  rw [subscriptRest, bind_of_eq (op_cons ht), bind_of_eq (here_of_next hne)]
  rcases hlisted with ⟨i', rfl, rfl, hshape, hstar⟩ | ⟨span, es', rfl, hshapes, htuple⟩
  · refine ⟨i', ?_, hshape⟩
    refine (bind_of_eq hlist).trans ?_
    simp only [hstar rfl]
    exact hend i'
  · refine ⟨.compound ⟨startOf (us ++ u :: rest), stop₁⟩ (.tuple .load) es, ?_,
      sameShape_compound hshapes⟩
    refine (bind_of_eq hlist).trans ?_
    match es, b, htuple with
    | [], _, _ | [_], true, _ | _ :: _ :: _, _, _ => exact hend _
    | [i'], false, htuple =>
        rcases htuple with h | h | ⟨-, i'', heq, hstar⟩
        · exact nomatch h
        · exact (h rfl).elim
        · obtain ⟨rfl, -⟩ := List.cons.inj heq
          simp only [hstar]
          exact hend _

theorem looped_subscript {i : Expr} (h : Looped .primary ts e) (hts : ts ≠ [])
    (ht : isOp "[" t = true) (hus : CompleteSeveral us .index i) (hu : isOp "]" u = true) :
    Looped .primary (ts ++ t :: (us ++ [u])) (.compound span (.subscript .load) [e, i]) := by
  refine h.extend hts (List.cons_ne_nil _ _) (head_stops ht rfl) fun n hn rest _ a stop hshape => ?_
  simp only [List.length_cons, List.length_append, List.length_nil] at hn
  obtain ⟨n, rfl⟩ := Nat.exists_eq_add_one.mpr (show 0 < n by omega)
  obtain ⟨i', hread, hi⟩ := subscriptRest_of_several (e := a)
    (n := n) ht hus (.append (fun _ _ => trivial) (.cons trivial)) hu (by omega)
  refine ⟨.compound ⟨startOf ts, u.span.stop⟩ (.subscript .load) [a, i'], u.span.stop, ?_,
    sameShape_compound (map_cons_congr hshape (map_cons_congr hi rfl))⟩
  show trailer (level (n + 1)) (startOf ts) a _ = _
  rw [List.cons_append, List.append_assoc, List.cons_append, List.nil_append, trailer_square ht,
    bind_of_eq hread]
  rfl

end Covenant.Grammar
