import Covenant.Proofs.Grammar.Completeness.Members

/-! # Brackets are read

    Groups, displays and comprehensions, one law for each reader: what stands
    between the brackets is read as the grammar derives it.

    * A closing bracket ends every tree and starts none (`Closed`).
    * The `for` parts of a comprehension are read one after the other, and
      there is at least one (`CompleteParts`). -/

namespace Covenant.Grammar

open Covenant.Tree Reader

variable {fit : Expr → Prop} {t u : Token} {ts us vs rest : List Token} {e : Expr} {n : Nat}
  {stop : Pos} {l : Level} {span : Span}

/-! ## Closing brackets -/

/-- The next token is a closing bracket. -/
def Closed (rest : List Token) : Prop := Next (fun t => ∃ d : Display, isOp d.closer t = true) rest

theorem Closed.cons (d : Display) (h : isOp d.closer t = true) : Closed (t :: ts) :=
  Next.cons ⟨d, h⟩

theorem Display.isOp_of_closer {d : Display} {o : String} (h : isOp d.closer t = true)
    (ho : (o == ")" || o == "]" || o == "\x7d") = false) : isOp o t = false := by
  refine isOp_of_ne h fun heq => ?_
  subst heq
  cases d <;> exact nomatch ho

theorem Display.stops_of_closer {d : Display} (h : isOp d.closer t = true) (r : Rule) :
    r.stops t = true :=
  stops_of_isOp h (by cases d <;> rfl)

theorem Display.closes_of_closer {d : Display} (h : isOp d.closer t = true) :
    closes t = true := by
  refine closes_eq_true.mpr ⟨?_, isWord_of_isOp h, ?_, ?_, ?_, ?_, ?_⟩
  · rw [Bool.eq_false_iff]
    intro hstarts
    have hsign : startingSigns.contains d.closer = false := by cases d <;> rfl
    rw [isOp_of_starts hstarts hsign] at h
    exact nomatch h
  all_goals exact d.isOp_of_closer h rfl

theorem Kind.stops_of_closer {k : Kind} {d : Display} (hk : k ≠ .index)
    (h : isOp d.closer t = true) : k.stops t = true := by
  cases k with
  | rule r => exact Display.stops_of_closer h r
  | item | target => exact Display.stops_of_closer h _
  | index => exact (hk rfl).elim

theorem Closed.stops (h : Closed rest) (r : Rule) : Next (fun t => r.stops t = true) rest :=
  h.mono fun _ ⟨_, ht⟩ => Display.stops_of_closer ht r

/-- A tree that stands for itself does not start with a closing bracket or a comma. -/
theorem Derives.not_op {k : Kind} {o : String} (h : Derives fit ts (.one k e))
    (ho : (startingSigns.contains o || o == "*" || o == ":") = false) (rest : List Token) :
    Next (fun t => isOp o t = false) (ts ++ rest) := by
  refine (h.next rest).mono fun t ht => ?_
  simp only [Bool.or_eq_false_iff, beq_eq_false_iff_ne] at ho
  rw [Bool.eq_false_iff]
  intro hop
  have hstarts : starts t = false := by
    rw [Bool.eq_false_iff]
    intro hstarts
    rw [isOp_of_starts hstarts ho.1.1] at hop
    exact nomatch hop
  cases k with
  | rule r =>
      rw [show starts t = true from ht] at hstarts
      exact nomatch hstarts
  | item | target => simp [Kind.opens, hstarts, isOp_of_ne hop ho.1.2] at ht
  | index => simp [Kind.opens, hstarts, isOp_of_ne hop ho.1.2, isOp_of_ne hop ho.2] at ht

/-! ## Stars -/

/-- Trees of a rule are not starred. -/
def Phrase.unstarred : Phrase → Prop
  | .one (.rule _) e => isStarred e = false
  | _ => True

theorem Derives.unstarred {x : Phrase} (h : Derives fit ts x) : x.unstarred := by
  induction h with
  | group _ _ _ ih | outer _ ih => exact ih
  | empty d => cases d <;> rfl
  | display d => cases d <;> rfl
  | call _ _ _ _ heq => exact heq ▸ rfl
  | callComprehension _ _ _ _ _ _ _ heq => exact heq ▸ rfl
  | @plain ts k e _ ih =>
      cases k with
      | rule r => exact ih
      | item | target | index => trivial
  | @starred t ts k r e _ hk =>
      cases k with
      | rule r' => exact nomatch hk
      | item | target | index => trivial
  | _ => first | rfl | trivial

/-- What is read for a tree of a rule is not starred. -/
theorem Derives.not_isStarred {r : Rule} {e' : Expr} (h : Derives fit ts (.one (.rule r) e))
    (hshape : e'.SameShape e) : isStarred e' = false :=
  (isStarred_congr hshape).trans h.unstarred

/-! ## Parts of comprehensions -/

theorem tupleUnlessSingle_of_listed {k : Kind} {es : List Expr} {b : Bool} {start : Pos}
    (hk : k ≠ .index) (h : Listed k es b e) :
    ∃ e', tupleUnlessSingle start (es, b) ⟨ts, stop⟩ = some (e', ⟨ts, stop⟩) ∧ e'.SameShape e := by
  rcases h with ⟨e', rfl, rfl, hshape, -⟩ | ⟨span, es', rfl, hshapes, htuple⟩
  · exact ⟨e', rfl, hshape⟩
  · refine ⟨.compound ⟨start, stop⟩ (.tuple .load) es, ?_, sameShape_compound hshapes⟩
    match es, b, htuple with
    | [], _, _ | [_], true, _ | _ :: _ :: _, _, _ => rfl
    | [_], false, htuple =>
        rcases htuple with h | h | h
        · exact nomatch h
        · exact (h rfl).elim
        · exact (hk h.1).elim

/-- The `for` parts of a comprehension are read up to a closing bracket. -/
structure CompleteParts (ts : List Token) (gs : List Generator) : Prop where
  reads : ∀ {n}, ts.length ≤ n → ∀ {rest}, Closed rest → ∀ stop, ∃ gs' stop',
    Reads (forPart (level (n + 1))) ⟨ts ++ rest, stop⟩ gs' ⟨rest, stop'⟩ ∧
      gs'.map Generator.unplaced = gs.map Generator.unplaced
  length : gs.length ≤ ts.length
  forParts : gs ≠ [] → ∀ {n}, ts.length ≤ n → ∀ {rest}, Closed rest → ∀ stop, ∃ gs' stop',
    forParts (level (n + 1)) ⟨ts ++ rest, stop⟩ = some (gs', ⟨rest, stop'⟩) ∧
      gs'.map Generator.unplaced = gs.map Generator.unplaced

theorem completeParts_nil : CompleteParts [] [] where
  reads _ _ _ stop := ⟨[], stop, .nil, rfl⟩
  length := Nat.le_refl 0
  forParts h := (h rfl).elim

/-- No `for` part is read in front of a closing bracket. -/
theorem forPart_of_closed (h : Closed rest) : forPart l ⟨rest, stop⟩ = none := by
  obtain ⟨t, us, rfl, d, ht⟩ := h
  rw [forPart, bind_of_eq (takesWord_of_false (isWord_of_isOp ht))]
  exact bind_of_none (word_of_false (isWord_of_isOp ht))

/-- The parts that follow end the operands of a part. -/
theorem stops_parts {gs : List Generator} (hts : Derives fit ts (.parts gs)) (hrest : Closed rest) :
    Next (fun t => Rule.disjunction.stops t = true ∧ isWord "if" t = false) (ts ++ rest) := by
  refine .append (fun t ht => ?_) (hrest.mono fun t ⟨d, ht⟩ =>
    ⟨Display.stops_of_closer ht _, isWord_of_isOp ht⟩)
  rcases (Bool.or_eq_true _ _).mp (hts.of_mem_head t ht) with hfor | hasync
  · exact ⟨stops_of_isWord hfor rfl, isWord_of_ne hfor (by decide)⟩
  · exact ⟨stops_of_isWord hasync rfl, isWord_of_ne hasync (by decide)⟩

theorem takesWord_of_leads {as : List Token} {isAsync : Bool} (h : Leads as isAsync)
    (ht : isWord "for" t = true) : ∃ stop', takesWord "async" ⟨as ++ t :: ts, stop⟩
      = some (isAsync, ⟨t :: ts, stop'⟩) := by
  cases h with
  | none => exact ⟨stop, takesWord_of_false (isWord_of_ne ht (by decide))⟩
  | async ha => exact ⟨_, takesWord_cons ha⟩

theorem starTargets_of_several {target : Expr} (h : CompleteSeveral ts .target e)
    (htarget : Expr.asTarget .store true e = some target) (hn : ts.length ≤ n)
    (hts : Next (fun _ => True) (ts ++ rest))
    (hrest : Next (fun t => Kind.target.stops t = true ∧ closes t = true) rest) :
    ∃ target' stop', starTargets (level (n + 1)) ⟨ts ++ rest, stop⟩
      = some (target', ⟨rest, stop'⟩) ∧ target'.SameShape target := by
  obtain ⟨es, b, stop', hlist, hlisted⟩ := h hn hrest stop
  obtain ⟨e', htuple, hshape⟩ := tupleUnlessSingle_of_listed
    (by decide) hlisted
  obtain ⟨target', has, htarget'⟩ := asTarget_congr htarget hshape
  refine ⟨target', stop', ?_, htarget'⟩
  rw [starTargets, bind_of_eq (here_of_next hts)]
  refine (bind_of_eq hlist).trans ?_
  rw [bind_of_eq htuple, useAs, has]
  rfl

theorem forPart_of_parts {as ws : List Token} {isAsync : Bool} {i target : Expr}
    {fs : List Expr} {gs : List Generator} (hlead : Leads as isAsync)
    (ht : isWord "for" t = true)
    (htarget : Expr.asTarget .store true e = some target) (hu : isWord "in" u = true)
    (hvs : Derives fit vs (.more (.word "if") (.rule .disjunction) fs))
    (hws : Derives fit ws (.parts gs)) (htargets : CompleteSeveral ts .target e)
    (hiter : CompleteOne us (.rule .disjunction) i)
    (hfilters : CompleteMore vs (.word "if") (.rule .disjunction) fs)
    (hn : (as ++ t :: (ts ++ u :: (us ++ (vs ++ ws)))).length ≤ n) (hrest : Closed rest) :
    ∃ g stop', forPart (level (n + 1))
        ⟨as ++ t :: (ts ++ u :: (us ++ (vs ++ (ws ++ rest)))), stop⟩
        = some (g, ⟨ws ++ rest, stop'⟩) ∧
      g.unplaced = (Generator.mk target i fs isAsync).unplaced := by
  simp only [List.length_append, List.length_cons] at hn
  have hparts := stops_parts hws hrest
  have hvs_next : Next (fun t => Rule.disjunction.stops t = true) (vs ++ (ws ++ rest)) :=
    stops_more hvs (fun _ h => stops_of_isWord h rfl) (hparts.mono fun _ h => h.1)
  obtain ⟨stop₁, hasync⟩ := takesWord_of_leads
    hlead ht
  obtain ⟨target', stop₂, htargets', hshape⟩ := starTargets_of_several (n := n)
    htargets htarget (by omega)
    (.append (fun _ _ => trivial) (.cons trivial))
    (.cons ⟨stops_of_isWord hu rfl, closes_of_isWord hu rfl⟩)
  obtain ⟨i', stop₃, hread, hi⟩ := hiter.yields (n := n) (by omega) hvs_next u.span.stop
  obtain ⟨fs', stop₄, hreads, hfs⟩ := hfilters.reads (n := n) (by omega)
    (hparts.mono fun _ h => h.1) (fun _ h => stops_of_isWord h rfl) stop₃
  have hcount : fs'.length = fs.length := by
    have hlengths := congrArg List.length hfs
    rwa [List.length_map, List.length_map] at hlengths
  have hlast : behind (.word "if") ((Kind.rule .disjunction).reader n) ⟨ws ++ rest, stop₄⟩
      = none := by
    obtain ⟨v, vs', heq, hv⟩ := hparts
    rw [heq]
    exact behind_of_false hv.2
  have hmany : many (behind (.word "if") ((Kind.rule .disjunction).reader n))
      ⟨vs ++ (ws ++ rest), stop₃⟩ = some (fs', ⟨ws ++ rest, stop₄⟩) := by
    refine many_of_reads hreads ?_ hlast
    have hlength := hfilters.length
    simp only [List.length_append]
    omega
  refine ⟨.mk target' i' fs' isAsync, stop₄, ?_, ?_⟩
  · rw [forPart, bind_of_eq hasync, bind_of_eq (word_cons ht), bind_of_eq htargets',
      bind_of_eq (word_cons hu)]
    refine (bind_of_eq hread).trans ?_
    refine (bind_of_eq hmany).trans ?_
    rfl
  · show Generator.mk _ _ _ _ = Generator.mk _ _ _ _
    rw [show target'.unplaced = target.unplaced from hshape,
      show i'.unplaced = i.unplaced from hi, hfs]

theorem completeParts_cons {as ws : List Token} {isAsync : Bool} {i target : Expr}
    {fs : List Expr} {gs : List Generator} (hlead : Leads as isAsync)
    (ht : isWord "for" t = true) (htarget : Expr.asTarget .store true e = some target)
    (hu : isWord "in" u = true)
    (hvs : Derives fit vs (.more (.word "if") (.rule .disjunction) fs))
    (hws : Derives fit ws (.parts gs)) (htargets : CompleteSeveral ts .target e)
    (hiter : CompleteOne us (.rule .disjunction) i)
    (hfilters : CompleteMore vs (.word "if") (.rule .disjunction) fs)
    (hparts : CompleteParts ws gs) :
    CompleteParts (as ++ t :: (ts ++ u :: (us ++ (vs ++ ws))))
      (.mk target i fs isAsync :: gs) := by
  have hlengths : ws.length < (as ++ t :: (ts ++ u :: (us ++ (vs ++ ws)))).length := by
    simp only [List.length_append, List.length_cons]
    omega
  have hfirst {n : Nat} {rest : List Token} {stop : Pos}
      (hn : (as ++ t :: (ts ++ u :: (us ++ (vs ++ ws)))).length ≤ n) (hrest : Closed rest) :
      ∃ g stop', forPart (level (n + 1))
          ⟨(as ++ t :: (ts ++ u :: (us ++ (vs ++ ws)))) ++ rest, stop⟩
          = some (g, ⟨ws ++ rest, stop'⟩) ∧
        g.unplaced = (Generator.mk target i fs isAsync).unplaced := by
    simpa only [List.append_assoc, List.cons_append] using
      forPart_of_parts hlead ht htarget hu hvs hws htargets hiter hfilters hn hrest
  refine ⟨fun {n} hn {rest} hrest stop => ?_, ?_, fun _ {n} hn {rest} hrest stop => ?_⟩
  · obtain ⟨g, stop₁, hread, hg⟩ := hfirst hn hrest
    obtain ⟨gs', stop₂, hreads, hgs⟩ := hparts.reads (n := n) (by omega) hrest stop₁
    exact ⟨g :: gs', stop₂, .cons hread hreads, map_cons_congr hg hgs⟩
  · have hlength := hparts.length
    rw [List.length_cons]
    omega
  · obtain ⟨g, stop₁, hread, hg⟩ := hfirst hn hrest
    obtain ⟨gs', stop₂, hreads, hgs⟩ := hparts.reads (n := n) (by omega) hrest stop₁
    have hcount : gs'.length = gs.length := by
      have hlengths := congrArg List.length hgs
      rwa [List.length_map, List.length_map] at hlengths
    have hmany : many (forPart (level (n + 1))) ⟨ws ++ rest, stop₁⟩
        = some (gs', ⟨rest, stop₂⟩) := by
      refine many_of_reads hreads ?_ (forPart_of_closed hrest)
      have hlength := hparts.length
      simp only [List.length_append]
      omega
    refine ⟨g :: gs', stop₂, ?_, map_cons_congr hg hgs⟩
    rw [Grammar.forParts, many1, bind_of_eq hread, bind_of_eq hmany]
    rfl

/-- The parts of a comprehension start with a word that is looked for. -/
theorem seesFor_of_parts {gs : List Generator} (hus : Derives fit us (.parts gs)) (hgs : gs ≠ []) :
    seesFor ⟨us ++ rest, stop⟩ = some (true, ⟨us ++ rest, stop⟩) := by
  cases hus with
  | noParts => exact (hgs rfl).elim
  | @part t _ as _ _ _ _ _ _ _ _ _ _ hlead ht =>
      cases hlead with
      | none =>
          rw [List.nil_append, List.cons_append, seesFor, bind_of_eq (seesWord_of_eq ht)]
          rfl
      | @async a ha =>
          rw [List.append_assoc, List.cons_append, List.nil_append, List.cons_append, seesFor,
            bind_of_eq (seesWord_of_eq (isWord_of_ne ha (by decide)))]
          show some (Option.isSome ((word "async" >>= fun _ => word "for") _), _) = _
          rw [bind_of_eq (word_cons ha), word_cons ht]
          rfl

theorem seesFor_of_op (h : Next (fun t => t.kind = .op) ts) :
    seesFor ⟨ts, stop⟩ = some (false, ⟨ts, stop⟩) := by
  obtain ⟨t, us, rfl, ht⟩ := h
  have hword (w : String) : isWord w t = false := isWord_of_isOp (isOp_eq_true.mpr ⟨ht, rfl⟩)
  rw [seesFor, bind_of_eq (seesWord_of_eq (hword "for"))]
  show some (Option.isSome ((word "async" >>= fun _ => word "for") _), _) = _
  rw [bind_of_none (word_of_false (hword "async"))]
  rfl

/-- Whether a token starts a part of a comprehension. -/
def opensPart (t : Token) : Bool := isWord "for" t || isWord "async" t

theorem next_parts {gs : List Generator} (hus : Derives fit us (.parts gs)) (hgs : gs ≠ []) :
    Next (fun t => opensPart t = true) (us ++ rest) := by
  obtain ⟨t, us, rfl, ht⟩ := hus.exists_cons (by
    cases gs with
    | nil => exact (hgs rfl).elim
    | cons => rfl)
  exact .cons ht

theorem stops_of_for (h : opensPart t = true) {r : Rule} : r.stops t = true := by
  rcases (Bool.or_eq_true _ _).mp h with h | h <;> exact stops_of_isWord h (by cases r <;> rfl)

theorem isOp_of_for {o : String} (h : opensPart t = true) : isOp o t = false := by
  rcases (Bool.or_eq_true _ _).mp h with h | h <;> exact isOp_of_isWord h

theorem comprehensionRest_of_parts {gs : List Generator} {d : Display} {start : Pos}
    {k : ComprehensionKind} {es : List Expr} (hparts : CompleteParts us gs) (hgs : gs ≠ [])
    (hu : isOp d.closer u = true) (hn : us.length ≤ n) :
    ∃ gs', comprehensionRest (level (n + 1)) start k es d.closer ⟨us ++ u :: rest, stop⟩
        = some (.comprehension ⟨start, u.span.stop⟩ k es gs', ⟨rest, u.span.stop⟩) ∧
      gs'.map Generator.unplaced = gs.map Generator.unplaced := by
  obtain ⟨gs', stop', hread, hshapes⟩ :=
    hparts.forParts hgs hn (Closed.cons d hu) stop
  refine ⟨gs', ?_, hshapes⟩
  rw [comprehensionRest, bind_of_eq hread, bind_of_eq (op_cons hu)]
  rfl

/-! ## Groups and displays -/

theorem complete_group (ht : isOp "(" t = true) (hts : Derives fit ts (.one (.rule .expression) e))
    (hu : isOp ")" u = true) (h : CompleteOne ts (.rule .expression) e) :
    CompleteOne (t :: (ts ++ [u])) (.rule .atom) e := by
  refine complete_atom fun n hn rest _ stop => ?_
  simp only [List.length_cons, List.length_append, List.length_nil] at hn
  obtain ⟨n, rfl⟩ := Nat.exists_eq_add_one.mpr (show 0 < n by omega)
  obtain ⟨e', stop', hread, hshape⟩ := (complete_plain (k := .item) hts h).yields (n := n)
    (by omega) (.cons (Display.stops_of_closer (d := .tuple) hu _)) t.span.stop
  refine ⟨e', u.span.stop, ?_, hshape⟩
  rw [List.cons_append, List.append_assoc, atom_round ht, round, bind_of_eq here_cons,
    bind_of_eq (op_cons ht)]
  refine (bind_of_eq (takesOp_of_next (hts.not_op rfl _))).trans ?_
  refine (bind_of_eq (seesWord_of_next ((hts.next _).mono fun _ h =>
    isWord_of_starts h rfl rfl))).trans ?_
  refine (bind_of_eq hread).trans ?_
  rw [bind_of_eq (takesOp_cons hu), if_pos rfl, hts.not_isStarred hshape]
  rfl

theorem complete_empty {d : Display} (hd : d ≠ .set) (ht : isOp d.opener t = true)
    (hu : isOp d.closer u = true) : CompleteOne [t, u] (.rule .atom) (.compound span d.form []) := by
  refine complete_atom fun n hn rest _ stop =>
    ⟨.compound ⟨t.span.start, u.span.stop⟩ d.form [], u.span.stop, ?_, sameShape_compound rfl⟩
  show atom (level n) ⟨t :: u :: rest, stop⟩ = _
  cases d with
  | tuple =>
      rw [atom_round ht, round, bind_of_eq here_cons, bind_of_eq (op_cons (o := "(") ht),
        bind_of_eq (takesOp_cons (o := ")") hu)]
      rfl
  | list =>
      rw [atom_square ht, square, bind_of_eq here_cons, bind_of_eq (op_cons (o := "[") ht),
        bind_of_eq (takesOp_cons (o := "]") hu)]
      rfl
  | set => exact (hd rfl).elim

/-- Items behind the first, up to the closing bracket. -/
theorem itemsRest_of_more {es : List Expr} {d : Display} (hmore : CompleteMore us .comma .item es)
    (hvs : Trail vs) (hu : isOp d.closer u = true) (hn : us.length ≤ n) :
    ∃ es', itemsRest (level (n + 1)) d.closer ⟨us ++ (vs ++ u :: rest), stop⟩
        = some (es', ⟨rest, u.span.stop⟩) ∧ es'.map Expr.unplaced = es.map Expr.unplaced := by
  have hnext : Next (fun t => Kind.item.stops t = true) (vs ++ u :: rest) :=
    .append (fun t ht => Kind.stops_of_comma (hvs.of_mem_head t ht))
      (.cons (Kind.stops_of_closer (by decide) hu))
  obtain ⟨es', stop₁, hreads, hshapes⟩ := hmore.reads hn hnext (fun _ => Kind.stops_of_comma) stop
  have hcount : es'.length = es.length := by
    have hlengths := congrArg List.length hshapes
    rwa [List.length_map, List.length_map] at hlengths
  have hcloses := Display.closes_of_closer hu
  obtain ⟨stop₂, hmany, htakes⟩ := commas_read hreads (hcount ▸ hmore.length) hvs
    (fun _ => Kind.reader_of_closes (k := .item) (.cons hcloses))
    (.cons (not_comma_of_closes hcloses))
  refine ⟨es', ?_, hshapes⟩
  rw [itemsRest]
  refine (bind_of_eq hmany).trans ?_
  rw [bind_of_eq htakes, bind_of_eq (op_cons hu)]
  rfl

/-- Behind the first item there is a comma or the closing bracket. -/
theorem next_items {es : List Expr} {d : Display} (hus : Derives fit us (.more .comma .item es))
    (hvs : Trail vs) (hu : isOp d.closer u = true) :
    Next (fun t => isOp "," t = true ∨ isOp d.closer t = true) (us ++ (vs ++ u :: rest)) :=
  .append (fun t ht => .inl (hus.of_mem_head t ht))
    (.append (fun t ht => .inl (hvs.of_mem_head t ht)) (.cons (.inr hu)))

theorem complete_display {es : List Expr} {d : Display} (ht : isOp d.opener t = true)
    (hts : Derives fit ts (.one .item e)) (hus : Derives fit us (.more .comma .item es))
    (hvs : Trail vs) (htuple : d = .tuple → es ≠ [] ∨ vs ≠ []) (hu : isOp d.closer u = true)
    (h : CompleteOne ts .item e) (hmore : CompleteMore us .comma .item es) :
    CompleteOne (t :: (ts ++ (us ++ (vs ++ [u])))) (.rule .atom)
      (.compound span d.form (e :: es)) := by
  refine complete_atom fun n hn rest _ stop => ?_
  simp only [List.length_cons, List.length_append, List.length_nil] at hn
  obtain ⟨n, rfl⟩ := Nat.exists_eq_add_one.mpr (show 0 < n by omega)
  have hnext : Next (fun t => isOp "," t = true ∨ isOp d.closer t = true)
      (us ++ (vs ++ u :: rest)) := next_items hus hvs hu
  have hop : Next (fun t => t.kind = .op) (us ++ (vs ++ u :: rest)) :=
    hnext.mono fun t ht => by rcases ht with ht | ht <;> exact (isOp_eq_true.mp ht).1
  obtain ⟨e', stop₁, hread, hshape⟩ := h.yields (n := n) (by omega) (hnext.mono fun t ht =>
    ht.elim Kind.stops_of_comma (Kind.stops_of_closer (by decide))) t.span.stop
  obtain ⟨es', hitems, hshapes⟩ : ∃ es',
      itemsRest (level (n + 1)) d.closer ⟨us ++ (vs ++ u :: rest), stop₁⟩
          = some (es', ⟨rest, u.span.stop⟩) ∧ es'.map Expr.unplaced = es.map Expr.unplaced :=
    itemsRest_of_more hmore hvs hu (by omega)
  refine ⟨.compound ⟨t.span.start, u.span.stop⟩ d.form (e' :: es'), u.span.stop, ?_,
    sameShape_compound (map_cons_congr hshape hshapes)⟩
  simp only [List.cons_append, List.append_assoc, List.nil_append]
  have hclosed : Next (fun t => isOp d.closer t = false) (ts ++ (us ++ (vs ++ u :: rest))) :=
    hts.not_op (by cases d <;> rfl) _
  cases d with
  | tuple =>
      have hcomma : Next (fun t => isOp "," t = true) (us ++ (vs ++ u :: rest)) := by
        cases hus with
        | more hsep => exact .cons hsep
        | noMore =>
            cases hvs with
            | none => exact absurd (htuple rfl) (by simp)
            | comma hcomma => exact .cons hcomma
      rw [atom_round ht, round, bind_of_eq here_cons, bind_of_eq (op_cons (o := "(") ht)]
      refine (bind_of_eq (takesOp_of_next hclosed)).trans ?_
      refine (bind_of_eq (seesWord_of_next (b := false) ((hts.next _).mono fun t ht => ?_))).trans ?_
      · rcases (Bool.or_eq_true _ _).mp ht with ht | ht
        · exact isWord_of_starts ht rfl rfl
        · exact isWord_of_isOp ht
      refine (bind_of_eq hread).trans ?_
      refine (bind_of_eq (takesOp_of_next (hcomma.mono fun _ h => isOp_of_ne h (by decide)))).trans ?_
      refine (bind_of_eq (seesFor_of_op hop)).trans ?_
      refine (bind_of_eq (seesOp_of_next hcomma)).trans ?_
      refine (bind_of_eq require_true).trans ?_
      refine (bind_of_eq hitems).trans ?_
      rfl
  | list =>
      rw [atom_square ht, square, bind_of_eq here_cons, bind_of_eq (op_cons (o := "[") ht)]
      refine (bind_of_eq (takesOp_of_next hclosed)).trans ?_
      refine (bind_of_eq hread).trans ?_
      refine (bind_of_eq (seesFor_of_op hop)).trans ?_
      refine (bind_of_eq hitems).trans ?_
      rfl
  | set =>
      have hcolon : Next (fun t => isOp ":" t = false) (us ++ (vs ++ u :: rest)) :=
        hnext.mono fun t ht => by rcases ht with ht | ht <;> exact isOp_of_ne ht (by decide)
      rw [atom_curly ht, curly, bind_of_eq here_cons, bind_of_eq (op_cons (o := "\x7b") ht)]
      refine (bind_of_eq (takesOp_of_next hclosed)).trans ?_
      refine (bind_of_eq (seesOp_of_next (hts.not_op rfl _))).trans ?_
      refine (bind_of_eq (ahead_eq_some.mpr ⟨rfl, rfl⟩)).trans ?_
      refine (bind_of_eq hread).trans ?_
      refine (bind_of_eq (seesOp_of_next hcolon)).trans ?_
      refine (bind_of_eq (seesFor_of_op hop)).trans ?_
      refine (bind_of_eq hitems).trans ?_
      rfl

theorem complete_comprehension {d : Display} {gs : List Generator} (ht : isOp d.opener t = true)
    (hts : Derives fit ts (.one (.rule .expression) e)) (hus : Derives fit us (.parts gs))
    (hgs : gs ≠ []) (hu : isOp d.closer u = true) (h : CompleteOne ts (.rule .expression) e)
    (hparts : CompleteParts us gs) :
    CompleteOne (t :: (ts ++ (us ++ [u]))) (.rule .atom)
      (.comprehension span d.comprehension [e] gs) := by
  refine complete_atom fun n hn rest _ stop => ?_
  simp only [List.length_cons, List.length_append, List.length_nil] at hn
  obtain ⟨n, rfl⟩ := Nat.exists_eq_add_one.mpr (show 0 < n by omega)
  have hfor : Next (fun t => opensPart t = true) (us ++ u :: rest) := next_parts hus hgs
  obtain ⟨e', stop₁, hread, hshape⟩ := (complete_plain (k := .item) hts h).yields (n := n)
    (by omega) (hfor.mono fun t ht => stops_of_for ht) t.span.stop
  have hfirst : isStarred e' = false := hts.not_isStarred hshape
  have hsees : seesFor ⟨us ++ u :: rest, stop₁⟩ = some (true, ⟨us ++ u :: rest, stop₁⟩) :=
    seesFor_of_parts hus hgs
  obtain ⟨gs', hrest, hshapes⟩ : ∃ gs',
      comprehensionRest (level (n + 1)) t.span.start d.comprehension [e'] d.closer
          ⟨us ++ u :: rest, stop₁⟩
        = some (.comprehension ⟨t.span.start, u.span.stop⟩ d.comprehension [e'] gs',
          ⟨rest, u.span.stop⟩) ∧
      gs'.map Generator.unplaced = gs.map Generator.unplaced :=
    comprehensionRest_of_parts hparts hgs hu (by omega)
  refine ⟨.comprehension ⟨t.span.start, u.span.stop⟩ d.comprehension [e'] gs', u.span.stop, ?_,
    sameShape_comprehension (map_cons_congr hshape rfl) hshapes⟩
  simp only [List.cons_append, List.append_assoc, List.nil_append]
  have hclosed : Next (fun t => isOp d.closer t = false) (ts ++ (us ++ u :: rest)) :=
    hts.not_op (by cases d <;> rfl) _
  cases d with
  | tuple =>
      rw [atom_round ht, round, bind_of_eq here_cons, bind_of_eq (op_cons (o := "(") ht)]
      refine (bind_of_eq (takesOp_of_next hclosed)).trans ?_
      refine (bind_of_eq (seesWord_of_next ((hts.next _).mono fun _ h =>
        isWord_of_starts h rfl rfl))).trans ?_
      refine (bind_of_eq hread).trans ?_
      refine (bind_of_eq (takesOp_of_next (hfor.mono fun _ h => isOp_of_for h))).trans ?_
      refine (bind_of_eq hsees).trans ?_
      rw [hfirst]
      exact hrest
  | list =>
      rw [atom_square ht, square, bind_of_eq here_cons, bind_of_eq (op_cons (o := "[") ht)]
      refine (bind_of_eq (takesOp_of_next hclosed)).trans ?_
      refine (bind_of_eq hread).trans ?_
      refine (bind_of_eq hsees).trans ?_
      rw [hfirst]
      exact hrest
  | set =>
      rw [atom_curly ht, curly, bind_of_eq here_cons, bind_of_eq (op_cons (o := "\x7b") ht)]
      refine (bind_of_eq (takesOp_of_next hclosed)).trans ?_
      refine (bind_of_eq (seesOp_of_next (hts.not_op rfl _))).trans ?_
      refine (bind_of_eq (ahead_eq_some.mpr ⟨rfl, rfl⟩)).trans ?_
      refine (bind_of_eq hread).trans ?_
      refine (bind_of_eq (seesOp_of_next (hfor.mono fun _ h => isOp_of_for h))).trans ?_
      refine (bind_of_eq hsees).trans ?_
      rw [hfirst]
      exact hrest

/-! ## Mappings -/

/-- An item of a mapping is read, and so are its key and its value. -/
structure CompletePair (fit : Expr → Prop) (ts : List Token) (p : Option Expr × Expr) : Prop where
  reads : ∀ {n}, ts.length ≤ n → ∀ {rest}, Next (fun t => Rule.expression.stops t = true) rest →
    ∀ stop, ∃ p' stop', mappingItem (level (n + 1)) ⟨ts ++ rest, stop⟩ = some (p', ⟨rest, stop'⟩) ∧
      unplacedPair p' = unplacedPair p
  unpacked : p.1 = none → ∃ t us, ts = t :: us ∧ isOp "**" t = true
  keyed : ∀ k, p.1 = some k → ∃ us t vs, ts = us ++ t :: vs ∧ isOp ":" t = true ∧
    Derives fit us (.one (.rule .expression) k) ∧ CompleteOne us (.rule .expression) k ∧
      CompleteOne vs (.rule .expression) p.2

theorem completePair_unpacked (ht : isOp "**" t = true) (h : CompleteOne ts (.rule .bitOr) e) :
    CompletePair fit (t :: ts) (none, e) where
  reads {n} hn rest hrest stop := by
    rw [List.length_cons] at hn
    obtain ⟨e', stop', hread, hshape⟩ := h.yields (n := n) (by omega)
      (hrest.mono fun _ h => stops_mono h (by decide)) t.span.stop
    refine ⟨(none, e'), stop', ?_, ?_⟩
    · rw [List.cons_append, mappingItem, bind_of_eq (takesOp_cons ht)]
      refine (bind_of_eq hread).trans ?_
      rfl
    · show (none, e'.unplaced) = (none, e.unplaced)
      rw [show e'.unplaced = e.unplaced from hshape]
  unpacked _ := ⟨t, ts, rfl, ht⟩
  keyed _ hk := nomatch hk

theorem completePair_keyed {k : Expr} (hts : Derives fit ts (.one (.rule .expression) k))
    (ht : isOp ":" t = true) (hk : CompleteOne ts (.rule .expression) k)
    (h : CompleteOne us (.rule .expression) e) : CompletePair fit (ts ++ t :: us) (some k, e) where
  reads {n} hn rest hrest stop := by
    rw [List.length_append, List.length_cons] at hn
    obtain ⟨k', stop₁, hkey, hkeys⟩ := hk.yields (n := n) (by omega)
      (.cons (stops_of_isOp ht rfl)) stop
    obtain ⟨e', stop₂, hread, hshape⟩ := h.yields (n := n) (by omega) hrest t.span.stop
    refine ⟨(some k', e'), stop₂, ?_, ?_⟩
    · rw [List.append_assoc, List.cons_append, mappingItem]
      refine (bind_of_eq (takesOp_of_next (hts.not_op rfl _))).trans ?_
      refine (bind_of_eq hkey).trans ?_
      rw [bind_of_eq (op_cons ht)]
      refine (bind_of_eq hread).trans ?_
      rfl
    · show (some k'.unplaced, e'.unplaced) = (some k.unplaced, e.unplaced)
      rw [show e'.unplaced = e.unplaced from hshape, show k'.unplaced = k.unplaced from hkeys]
  unpacked hnone := nomatch hnone
  keyed k₁ hk₁ := by
    obtain rfl := Option.some.inj hk₁
    exact ⟨ts, t, us, rfl, ht, hts, hk, h⟩

/-- Items of a mapping behind commas are read one after the other. -/
structure CompletePairs (ts : List Token) (ps : List (Option Expr × Expr)) : Prop where
  reads : ∀ {n}, ts.length ≤ n → ∀ {rest}, Next (fun t => Rule.expression.stops t = true) rest →
    ∀ stop, ∃ ps' stop', Reads (behind .comma (mappingItem (level (n + 1)))) ⟨ts ++ rest, stop⟩ ps'
      ⟨rest, stop'⟩ ∧ ps'.map unplacedPair = ps.map unplacedPair
  length : ps.length ≤ ts.length

theorem completePairs_nil : CompletePairs [] [] :=
  ⟨fun _ _ _ stop => ⟨[], stop, .nil, rfl⟩, Nat.le_refl 0⟩

theorem completePairs_cons {p : Option Expr × Expr} {ps : List (Option Expr × Expr)}
    (ht : isOp "," t = true) (hus : Derives fit us (.pairs ps)) (h : CompletePair fit ts p)
    (hmore : CompletePairs us ps) : CompletePairs (t :: (ts ++ us)) (p :: ps) where
  reads {n} hn rest hrest stop := by
    rw [List.length_cons, List.length_append] at hn
    obtain ⟨p', stop', hread, hshape⟩ := h.reads (n := n) (by omega)
      (.append (fun t ht => stops_of_isOp (hus.of_mem_head t ht) rfl) hrest) t.span.stop
    obtain ⟨ps', stop'', hreads, hshapes⟩ := hmore.reads (n := n) (by omega) hrest stop'
    refine ⟨p' :: ps', stop'', .cons ?_ hreads, map_cons_congr hshape hshapes⟩
    rw [List.cons_append, List.append_assoc]
    exact (bind_of_eq (op_cons ht)).trans hread
  length := by
    have hlength := hmore.length
    simp only [List.length_cons, List.length_append]
    omega

/-- What follows the first item of a mapping. -/
theorem mappingRest_of_pairs {p : Option Expr × Expr} {ps : List (Option Expr × Expr)}
    {start : Pos} (hmore : CompletePairs us ps) (hvs : Trail vs) (hu : isOp "\x7d" u = true)
    (hn : us.length ≤ n) :
    ∃ ps', mappingRest (level (n + 1)) start p ⟨us ++ (vs ++ u :: rest), stop⟩
        = some (mappingOf ⟨start, u.span.stop⟩ (p :: ps'), ⟨rest, u.span.stop⟩) ∧
      ps'.map unplacedPair = ps.map unplacedPair := by
  have hstops := Display.stops_of_closer (d := .set) hu .expression
  have hcloses := Display.closes_of_closer (d := .set) hu
  obtain ⟨hstarts, hawait, hcomma, -, hstars, -⟩ := closes_eq_true.mp hcloses
  obtain ⟨ps', stop₁, hreads, hshapes⟩ := hmore.reads hn
    (.append (fun t ht => stops_of_isOp (hvs.of_mem_head t ht) rfl) (.cons hstops)) stop
  have hcount : ps'.length = ps.length := by
    have hlengths := congrArg List.length hshapes
    rwa [List.length_map, List.length_map] at hlengths
  have hnone (stop : Pos) : mappingItem (level (n + 1)) ⟨u :: rest, stop⟩ = none := by
    rw [mappingItem, bind_of_eq (takesOp_of_false hstars)]
    exact bind_of_none (reader_of_not_starts hstarts hawait .expression)
  obtain ⟨stop₂, hmany, htakes⟩ := commas_read hreads (hcount ▸ hmore.length) hvs hnone
    (.cons hcomma)
  refine ⟨ps', ?_, hshapes⟩
  rw [mappingRest]
  refine (bind_of_eq hmany).trans ?_
  rw [bind_of_eq htakes, bind_of_eq (op_cons hu)]
  rfl

/-- No name that is given a value comes next. -/
theorem ahead_of_unassigned {o : String} (h : Unassigned ts)
    (ho : o = "=" ∨ o = ":=" := by decide) :
    ahead (do let _ ← identifier; op o) ⟨ts, stop⟩ = some (false, ⟨ts, stop⟩) := by
  refine ahead_eq_some.mpr ⟨rfl, ?_⟩
  have hnone : (do let _ ← identifier; op o : Reader Unit) ⟨ts, stop⟩ = none := by
    cases ts with
    | nil => rfl
    | cons t us =>
        cases hname : isIdentifier t with
        | false => exact bind_of_none (nextIf_of_false hname)
        | true =>
            rw [bind_of_eq (identifier_cons hname)]
            cases us with
            | nil => rfl
            | cons u us =>
                have hassigns := Bool.or_eq_false_iff.mp (h t u us rfl hname)
                rcases ho with rfl | rfl
                · exact op_of_false hassigns.1
                · exact op_of_false hassigns.2
  rw [hnone]
  rfl

/-- The first key of a mapping, up to its colon. -/
theorem curly_of_key {k : Expr} {e' : Expr} {c : Cursor} (ht : isOp "\x7b" t = true)
    (hts : Derives fit ts (.one (.rule .expression) k)) (hu : isOp ":" u = true)
    (hk : CompleteOne ts (.rule .expression) k) (hn : ts.length ≤ n)
    (h : ∀ k', k'.SameShape k → ∃ e, (do
      let v ← (level (n + 1)).expression
      if ← seesFor then comprehensionRest (level (n + 1)) t.span.start .dict [k', v] "\x7d"
      else mappingRest (level (n + 1)) t.span.start (some k', v) : Reader Expr)
        ⟨rest, u.span.stop⟩ = some (e, c) ∧ e.SameShape e') :
    ∃ e, curly (level (n + 1)) ⟨t :: (ts ++ u :: rest), stop⟩ = some (e, c) ∧ e.SameShape e' := by
  obtain ⟨k', stop₁, hread, hshape⟩ := (complete_plain (k := .item) hts hk).yields hn
    (.cons (stops_of_isOp hu rfl)) t.span.stop
  obtain ⟨e, he, heshape⟩ := h k' hshape
  refine ⟨e, ?_, heshape⟩
  have hunassigned : Unassigned (ts ++ u :: rest) :=
    hts.unassigned_append (hts.second rfl) (head_cons (assigns_of_isOp hu (by decide)))
  rw [curly, bind_of_eq here_cons, bind_of_eq (op_cons ht)]
  refine (bind_of_eq (takesOp_of_next (hts.not_op rfl _))).trans ?_
  refine (bind_of_eq (seesOp_of_next (hts.not_op rfl _))).trans ?_
  refine (bind_of_eq (ahead_of_unassigned hunassigned)).trans ?_
  refine (bind_of_eq hread).trans ?_
  rw [bind_of_eq (seesOp_of_eq hu), if_pos rfl, hts.not_isStarred hshape]
  refine (bind_of_eq require_true).trans ?_
  rw [bind_of_eq (op_cons hu)]
  exact he

theorem complete_emptyMapping (ht : isOp "\x7b" t = true) (hu : isOp "\x7d" u = true) :
    CompleteOne [t, u] (.rule .atom) (mappingOf span []) := by
  refine complete_atom fun n hn rest _ stop =>
    ⟨mappingOf ⟨t.span.start, u.span.stop⟩ [], u.span.stop, ?_, sameShape_mappingOf rfl⟩
  show atom (level n) ⟨t :: u :: rest, stop⟩ = _
  rw [atom_curly ht, curly, bind_of_eq here_cons, bind_of_eq (op_cons ht),
    bind_of_eq (takesOp_cons hu)]
  rfl

theorem complete_mapping {p : Option Expr × Expr} {ps : List (Option Expr × Expr)}
    (ht : isOp "\x7b" t = true) (hus : Derives fit us (.pairs ps)) (hvs : Trail vs)
    (hu : isOp "\x7d" u = true) (h : CompletePair fit ts p) (hmore : CompletePairs us ps) :
    CompleteOne (t :: (ts ++ (us ++ (vs ++ [u])))) (.rule .atom) (mappingOf span (p :: ps)) := by
  refine complete_atom fun n hn rest _ stop => ?_
  simp only [List.length_cons, List.length_append, List.length_nil] at hn
  obtain ⟨n, rfl⟩ := Nat.exists_eq_add_one.mpr (show 0 < n by omega)
  simp only [List.cons_append, List.append_assoc, List.nil_append]
  have hop : Next (fun t => isOp "," t = true ∨ isOp "\x7d" t = true)
      (us ++ (vs ++ u :: rest)) :=
    .append (fun t ht => .inl (hus.of_mem_head t ht))
      (.append (fun t ht => .inl (hvs.of_mem_head t ht)) (.cons (.inr hu)))
  have hstops : Next (fun t => Rule.expression.stops t = true) (us ++ (vs ++ u :: rest)) :=
    hop.mono fun t ht => by rcases ht with ht | ht <;> exact stops_of_isOp ht rfl
  have hnot (stop : Pos) : seesFor ⟨us ++ (vs ++ u :: rest), stop⟩ = some (false, _) :=
    seesFor_of_op (hop.mono fun t ht => by
      rcases ht with ht | ht <;> exact (isOp_eq_true.mp ht).1)
  suffices hcurly : ∃ e', curly (level (n + 1)) ⟨t :: (ts ++ (us ++ (vs ++ u :: rest))), stop⟩
      = some (e', ⟨rest, u.span.stop⟩) ∧ e'.SameShape (mappingOf span (p :: ps)) by
    obtain ⟨e', hread, hshape⟩ := hcurly
    exact ⟨e', u.span.stop, (atom_curly ht).trans hread, hshape⟩
  cases hkey : p.1 with
  | none =>
      obtain ⟨v, vs', rfl, hv⟩ := h.unpacked hkey
      obtain ⟨p', stop₁, hread, hp⟩ := h.reads (n := n) (by omega) hstops t.span.stop
      obtain ⟨ps', hrest, hps⟩ := mappingRest_of_pairs (p := p')
        (n := n) hmore hvs hu (by omega)
      refine ⟨mappingOf ⟨t.span.start, u.span.stop⟩ (p' :: ps'), ?_,
        sameShape_mappingOf (map_cons_congr hp hps)⟩
      rw [curly, bind_of_eq here_cons, bind_of_eq (op_cons ht), List.cons_append,
        bind_of_eq (takesOp_of_false (isOp_of_ne hv (by decide)))]
      refine (bind_of_eq (seesOp_of_eq hv)).trans ?_
      refine (bind_of_eq hread).trans ?_
      exact hrest
  | some k =>
      obtain ⟨us₁, c, vs₁, rfl, hc, hus₁, hcompleteKey, hvalue⟩ := h.keyed k hkey
      simp only [List.length_cons, List.length_append] at hn
      rw [List.append_assoc, List.cons_append]
      refine curly_of_key ht hus₁ hc hcompleteKey (by omega) fun k' hk' => ?_
      obtain ⟨v', stop₁, hread, hv'⟩ := hvalue.yields (n := n) (by omega) hstops c.span.stop
      obtain ⟨ps', hrest, hps⟩ := mappingRest_of_pairs (p := (some k', v'))
        (n := n) hmore hvs hu (by omega)
      refine ⟨mappingOf ⟨t.span.start, u.span.stop⟩ ((some k', v') :: ps'), ?_,
        sameShape_mappingOf (map_cons_congr ?_ hps)⟩
      · refine (bind_of_eq hread).trans ?_
        refine (bind_of_eq (hnot stop₁)).trans ?_
        exact hrest
      · show (some k'.unplaced, v'.unplaced) = (p.1.map Expr.unplaced, p.2.unplaced)
        rw [hkey, show k'.unplaced = k.unplaced from hk', show v'.unplaced = p.2.unplaced from hv']
        rfl

theorem complete_mappingComprehension {k v : Expr} {gs : List Generator}
    (ht : isOp "\x7b" t = true) (hus : Derives fit us (.parts gs)) (hgs : gs ≠ [])
    (hu : isOp "\x7d" u = true) (h : CompletePair fit ts (some k, v))
    (hparts : CompleteParts us gs) :
    CompleteOne (t :: (ts ++ (us ++ [u]))) (.rule .atom) (.comprehension span .dict [k, v] gs) := by
  refine complete_atom fun n hn rest _ stop => ?_
  simp only [List.length_cons, List.length_append, List.length_nil] at hn
  obtain ⟨n, rfl⟩ := Nat.exists_eq_add_one.mpr (show 0 < n by omega)
  simp only [List.cons_append, List.append_assoc, List.nil_append]
  obtain ⟨us₁, c, vs₁, rfl, hc, hus₁, hcompleteKey, hvalue⟩ := h.keyed k rfl
  simp only [List.length_cons, List.length_append] at hn
  rw [List.append_assoc, List.cons_append]
  have hcurly : ∃ e', curly (level (n + 1)) ⟨t :: (us₁ ++ c :: (vs₁ ++ (us ++ u :: rest))), stop⟩
        = some (e', ⟨rest, u.span.stop⟩) ∧ e'.SameShape (.comprehension span .dict [k, v] gs) :=
    curly_of_key ht hus₁ hc hcompleteKey (by omega) fun k' hk' => by
      obtain ⟨v', stop₁, hread, hv'⟩ := hvalue.yields (n := n) (by omega)
        ((next_parts hus hgs).mono fun t ht => stops_of_for ht) c.span.stop
      obtain ⟨gs', hrest, hgs'⟩ := comprehensionRest_of_parts (d := .set)
        (n := n) (k := .dict) hparts hgs
        hu (by omega)
      refine ⟨.comprehension ⟨t.span.start, u.span.stop⟩ .dict [k', v'] gs', ?_,
        sameShape_comprehension (map_cons_congr hk' (map_cons_congr hv' rfl)) hgs'⟩
      refine (bind_of_eq hread).trans ?_
      refine (bind_of_eq (seesFor_of_parts hus hgs)).trans ?_
      exact hrest
  obtain ⟨e', hread, hshape⟩ := hcurly
  exact ⟨e', u.span.stop, (atom_curly ht).trans hread, hshape⟩

end Covenant.Grammar
