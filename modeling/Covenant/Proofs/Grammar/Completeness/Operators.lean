import Covenant.Proofs.Grammar.Completeness.Trailers

/-! # Operators are read

    Operands with what joins them, one law for each rule of the grammar of
    operators.

    * A tree of a rule is a tree of the next looser one: its reader finds
      nothing that joins (`complete_outer`).
    * Operators that join from the left are one more step of a loop; the others
      are read by the reader of the next level. -/

namespace Covenant.Grammar

open Covenant.Tree Reader

variable {fit : Expr → Prop} {t u : Token} {ts us vs rest : List Token} {a b e : Expr} {n : Nat}
  {stop : Pos} {l : Level} {span : Span} {r : Rule}

/-- A tree of a rule that is not read in a loop. -/
theorem complete_rule (hr : r.loops = false)
    (h : ∀ n, ts.length ≤ n → ∀ rest, Next (fun t => r.stops t = true) rest →
      Yields (r.reader (level n)) ts rest e) : CompleteOne ts (.rule r) e :=
  completeOne_of_not_loops (fun r' hr' => by
    obtain rfl := Kind.rule.inj hr'
    exact hr) h

/-! ## The next looser rule -/

theorem Derives.next_true {k : Kind} (h : Derives fit ts (.one k e)) :
    Next (fun _ => True) (ts ++ rest) :=
  (h.next rest).mono fun _ _ => trivial

/-- What holds of the first token of a tree holds of the next token. -/
theorem Derives.next_head {k : Kind} {P : Token → Prop} (h : Derives fit ts (.one k e))
    (hhead : ∀ t ∈ ts.head?, P t) : Next P (ts ++ rest) := by
  obtain ⟨t, us, rfl, -⟩ := h.exists_cons rfl
  exact .cons (hhead t rfl)

/-- The tree that a loop starts with. -/
theorem looped_of_inner (h : CompleteOne ts (.rule r.inner) e) :
    Looped r ts e := by
  intro n hn rest hrest stop
  obtain ⟨e', stop', hread, hshape⟩ := h.yields hn hrest stop
  exact ⟨e', ⟨rest, stop'⟩, 0, e', stop', hread, .none, Nat.le_of_eq (Nat.zero_add _),
    hshape⟩

theorem awaited_of_primary (hts : Derives fit ts (.one (.rule .primary) e))
    (h : CompleteOne ts (.rule .primary) e) (hn : ts.length ≤ n)
    (hrest : Next (fun t => Rule.primary.stops t = true) rest) :
    Yields (awaited (level n)) ts rest e := by
  intro stop
  obtain ⟨e', stop', hread, hshape⟩ := h.yields hn hrest stop
  refine ⟨e', stop', ?_, hshape⟩
  rw [awaited, bind_of_eq (here_of_next hts.next_true)]
  refine (bind_of_eq (takesWord_of_next ((hts.next rest).mono fun _ h =>
    isWord_of_starts h rfl rfl))).trans ?_
  exact hread

theorem connected_of_operand {w : String} {o : BoolOp} {p : Reader Expr}
    (hts : Next (fun _ => True) (ts ++ rest)) (h : Yields p ts rest e)
    (hrest : Next (fun t => isWord w t = false) rest) :
    Yields (connected w o p) ts rest e := by
  intro stop
  obtain ⟨e', stop', hread, hshape⟩ := h stop
  have hnone : (do word w; p : Reader Expr) ⟨rest, stop'⟩ = none := by
    obtain ⟨t, us, rfl, ht⟩ := hrest
    exact bind_of_none (word_of_false ht)
  refine ⟨e', stop', ?_, hshape⟩
  rw [connected, bind_of_eq (here_of_next hts), bind_of_eq hread,
    bind_of_eq (many_of_reads .nil (Nat.zero_le _) hnone)]
  rfl

/-- No comparison is read where none starts. -/
theorem comparisonOp_of_not_compares (h : compares t = false) :
    comparisonOp ⟨t :: ts, stop⟩ = some (none, ⟨t :: ts, stop⟩) := by
  rw [comparisonOp, bind_of_eq peek_cons]
  cases hkind : t.kind with
  | op =>
      rw [compares, hkind] at h
      simp only [Option.isSome_eq_false_iff, Option.isNone_iff_eq_none] at h
      simp only [h]
      rfl
  | name =>
      rw [compares, hkind] at h
      simp only [Bool.or_eq_false_iff] at h
      simp only [h.1.1, h.1.2, h.2]
      rfl
  | _ => rfl

theorem nextComparison_of_stops (h : Next (fun t => Rule.comparison.stops t = true) rest) :
    nextComparison l ⟨rest, stop⟩ = none := by
  obtain ⟨t, us, rfl, ht⟩ := h
  rw [nextComparison, bind_of_eq (comparisonOp_of_not_compares (compares_of_stops ht))]
  rfl

/-- What a rule looser than primaries reads is read by the next looser one, if it does not start
    with what a looser tree starts with. -/
theorem complete_outer_of_lead (hne : ts ≠ []) (hlead : ∀ t ∈ ts.head?, (leadRule t).rank ≤ r.rank)
    (hr : r ≠ .primary) (h : CompleteOne ts (.rule r) e) : CompleteOne ts (.rule r.outer) e := by
  have hloop {r' : Rule} (hloops : r'.loops = true) (hinner : r'.inner = r) :
      CompleteOne ts (.rule r') e :=
    completeOne_of_looped hne hloops (looped_of_inner (hinner ▸ h))
  have hnext {P : Token → Prop} (hP : ∀ t ∈ ts.head?, P t) (rest : List Token) :
      Next P (ts ++ rest) := by
    obtain ⟨t, us, rfl⟩ := List.exists_cons_of_ne_nil hne
    exact .cons (hP t rfl)
  have htrue (rest : List Token) : Next (fun _ => True) (ts ++ rest) := hnext (fun _ _ => trivial) _
  cases r with
  | atom => exact hloop rfl rfl
  | primary => exact absurd rfl hr
  | power =>
      refine complete_rule rfl fun n hn rest hrest stop => ?_
      obtain ⟨e', stop', hread, hshape⟩ :=
        h.yields hn (hrest.mono fun _ h => stops_mono h (by decide)) stop
      refine ⟨e', stop', ?_, hshape⟩
      show factor (level n) _ = _
      obtain ⟨t, us, heq, hsign⟩ := hnext (not_leadSign hlead (by decide)) rest
      have hread : power (level n) ⟨ts ++ rest, stop⟩ = _ := hread
      rw [heq] at hread ⊢
      rw [factor, bind_of_eq here_cons, bind_of_eq peek_cons, hsign]
      exact hread
  | factor | term | sum | shift | bitAnd | bitXor => exact hloop rfl rfl
  | bitOr =>
      refine complete_rule rfl fun n hn rest hrest stop => ?_
      obtain ⟨e', stop', hread, hshape⟩ :=
        h.yields hn (hrest.mono fun _ h => stops_mono h (by decide)) stop
      refine ⟨e', stop', ?_, hshape⟩
      show comparison (level n) _ = _
      rw [comparison, bind_of_eq (here_of_next (htrue rest))]
      refine (bind_of_eq hread).trans ?_
      refine (bind_of_eq (many_of_reads (p := nextComparison (level n)) .nil (Nat.zero_le _)
        (nextComparison_of_stops hrest))).trans ?_
      rfl
  | comparison =>
      refine complete_rule rfl fun n hn rest hrest stop => ?_
      obtain ⟨e', stop', hread, hshape⟩ :=
        h.yields hn (hrest.mono fun _ h => stops_mono h (by decide)) stop
      refine ⟨e', stop', ?_, hshape⟩
      show inversion (level n) _ = _
      rw [inversion, bind_of_eq (here_of_next (htrue rest)),
        bind_of_eq (takesWord_of_next (hnext (not_leadWord hlead (by decide)) rest))]
      exact hread
  | inversion =>
      refine complete_rule rfl fun n hn rest hrest => ?_
      exact connected_of_operand (htrue rest)
        (h.yields hn (hrest.mono fun _ h => stops_mono h (by decide)))
        (hrest.mono fun _ h => isWord_of_stops h rfl)
  | conjunction =>
      refine complete_rule rfl fun n hn rest hrest => ?_
      exact connected_of_operand (htrue rest)
        (h.yields hn (hrest.mono fun _ h => stops_mono h (by decide)))
        (hrest.mono fun _ h => isWord_of_stops h rfl)
  | disjunction =>
      refine complete_rule rfl fun n hn rest hrest stop => ?_
      obtain ⟨e', stop', hread, hshape⟩ :=
        h.yields hn (hrest.mono fun _ h => stops_mono h (by decide)) stop
      refine ⟨e', stop', ?_, hshape⟩
      show expression (level n) _ = _
      rw [expression, bind_of_eq (here_of_next (htrue rest)),
        bind_of_eq (seesWord_of_next (hnext (not_leadWord hlead (by decide)) rest))]
      refine (bind_of_eq hread).trans ?_
      rw [bind_of_eq (takesWord_of_next (hrest.mono fun _ h => isWord_of_stops h rfl))]
      rfl
  | expression => exact h

/-- A tree of a rule is read by the reader of the next looser one. -/
theorem complete_outer (hts : Derives fit ts (.one (.rule r) e)) (h : CompleteOne ts (.rule r) e) :
    CompleteOne ts (.rule r.outer) e := by
  by_cases hr : r = .primary
  · subst hr
    refine complete_rule rfl fun n hn rest hrest stop => ?_
    obtain ⟨e', stop', hread, hshape⟩ :=
      awaited_of_primary hts h hn (hrest.mono fun _ h => stops_mono h (by decide)) stop
    refine ⟨e', stop', ?_, hshape⟩
    show power (level n) _ = _
    rw [power, bind_of_eq (here_of_next hts.next_true), bind_of_eq hread,
      bind_of_eq (takesOp_of_next (hrest.mono fun _ h => isOp_of_stops h rfl))]
    rfl
  · exact complete_outer_of_lead hts.ne_nil hts.leads hr h

/-! ## Powers, signs and operators from the left -/

theorem complete_power (hts : Derives fit ts (.one (.rule .primary) a))
    (ht : isOp "**" t = true) (ha : CompleteOne ts (.rule .primary) a)
    (hb : CompleteOne us (.rule .factor) b) :
    CompleteOne (ts ++ t :: us) (.rule .power) (.compound span (.binOp .pow) [a, b]) := by
  refine complete_rule rfl fun n hn rest hrest stop => ?_
  rw [List.length_append, List.length_cons] at hn
  obtain ⟨n, rfl⟩ := Nat.exists_eq_add_one.mpr (show 0 < n by omega)
  obtain ⟨a', stop₁, hfirst, hashape⟩ := awaited_of_primary (n := n + 1)
    hts ha (by omega) (.cons (stops_of_isOp ht rfl)) stop
  obtain ⟨b', stop₂, hread, hbshape⟩ := hb.yields (n := n) (by omega)
    (hrest.mono fun _ h => stops_factor h) t.span.stop
  refine ⟨.compound ⟨startOf (ts ++ t :: (us ++ rest)), stop₂⟩ (.binOp .pow) [a', b'], stop₂, ?_,
    sameShape_compound (map_cons_congr hashape (map_cons_congr hbshape rfl))⟩
  show power (level (n + 1)) _ = _
  rw [List.append_assoc, List.cons_append, power, bind_of_eq (here_of_next hts.next_true),
    bind_of_eq hfirst, bind_of_eq (takesOp_cons ht)]
  refine (bind_of_eq hread).trans ?_
  rfl

theorem complete_sign {o : UnaryOp} (hkind : t.kind = .op) (ho : signOp t.text = some o)
    (h : CompleteOne ts (.rule .factor) e) :
    CompleteOne (t :: ts) (.rule .factor) (.compound span (.unaryOp o) [e]) := by
  refine complete_rule rfl fun n hn rest hrest stop => ?_
  rw [List.length_cons] at hn
  obtain ⟨n, rfl⟩ := Nat.exists_eq_add_one.mpr (show 0 < n by omega)
  obtain ⟨e', stop', hread, hshape⟩ := h.yields (n := n) (by omega) hrest t.span.stop
  refine ⟨.compound ⟨t.span.start, stop'⟩ (.unaryOp o) [e'], stop', ?_,
    sameShape_compound (map_cons_congr hshape rfl)⟩
  show factor (level (n + 1)) _ = _
  rw [List.cons_append, factor, bind_of_eq here_cons, bind_of_eq peek_cons, if_pos hkind]
  simp only [ho]
  rw [bind_of_eq (next_cons (isLayout_of_kind hkind (by decide)))]
  refine (bind_of_eq hread).trans ?_
  rfl

theorem looped_binary {o : BinOp} (h : Looped r.outer ts a) (hts : ts ≠ [])
    (hkind : t.kind = .op) (ho : r.outer.operator t.text = some o) (hb : CompleteOne us (.rule r) b) :
    Looped r.outer (ts ++ t :: us) (.compound span (.binOp o) [a, b]) := by
  have hinner : r.outer.inner = r ∧
      (∀ l start, r.outer.step l start = nextOperand r.outer.operator (r.reader l) start) := by
    cases r with
    | factor | term | sum | shift | bitAnd | bitXor => exact ⟨rfl, fun _ _ => rfl⟩
    | atom | primary | power | bitOr | comparison | inversion | conjunction | disjunction
    | expression => exact (Option.some_ne_none _ ho.symm).elim
  have hstops : r.outer.inner.stops t = true := by
    rw [hinner.1]
    refine stops_of_operator hkind ho ?_
    cases r with
    | factor | term | sum | shift | bitAnd | bitXor => decide
    | atom | primary | power | bitOr | comparison | inversion | conjunction | disjunction
    | expression => exact (Option.some_ne_none _ ho.symm).elim
  refine h.extend hts (List.cons_ne_nil _ _) (fun u hu => by
    obtain rfl := Option.some.inj hu
    exact hstops) fun n hn rest hrest a' stop hshape => ?_
  rw [List.length_append, List.length_cons] at hn
  rw [hinner.1] at hrest
  obtain ⟨b', stop', hread, hbshape⟩ := hb.yields (n := n) (by omega) hrest t.span.stop
  refine ⟨.compound ⟨startOf ts, stop'⟩ (.binOp o) [a', b'], stop', ?_,
    sameShape_compound (map_cons_congr hshape (map_cons_congr hbshape rfl))⟩
  rw [hinner.2, List.cons_append, nextOperand, bind_of_eq peek_cons, if_pos hkind]
  simp only [ho]
  rw [bind_of_eq (next_cons (isLayout_of_kind hkind (by decide)))]
  refine (bind_of_eq hread).trans ?_
  rfl

/-! ## Comparisons -/

theorem comparisonOp_of_compares {o : CmpOp} (h : Compares ts o)
    (hrest : Next (fun t => isWord "not" t = false) rest) :
    ∃ stop', comparisonOp ⟨ts ++ rest, stop⟩ = some (some o, ⟨rest, stop'⟩) := by
  cases h with
  | @sign t o hkind ho =>
      refine ⟨t.span.stop, ?_⟩
      rw [List.cons_append, List.nil_append, comparisonOp, bind_of_eq peek_cons, hkind]
      simp only [ho]
      rw [bind_of_eq (next_cons (isLayout_of_kind hkind (by decide)))]
      rfl
  | @member t ht =>
      refine ⟨t.span.stop, ?_⟩
      obtain ⟨hkind, htext⟩ := isWord_eq_true.mp ht
      rw [List.cons_append, List.nil_append, comparisonOp, bind_of_eq peek_cons, hkind, htext]
      simp only
      rw [if_pos (by decide), bind_of_eq (next_cons (isLayout_of_isWord ht))]
      rfl
  | @is t ht =>
      refine ⟨t.span.stop, ?_⟩
      obtain ⟨hkind, htext⟩ := isWord_eq_true.mp ht
      rw [List.cons_append, List.nil_append, comparisonOp, bind_of_eq peek_cons, hkind, htext]
      simp only
      rw [if_neg (by decide), if_pos (by decide),
        bind_of_eq (next_cons (isLayout_of_isWord ht)), bind_of_eq (takesWord_of_next hrest)]
      rfl
  | @isNot t u ht hu =>
      refine ⟨u.span.stop, ?_⟩
      obtain ⟨hkind, htext⟩ := isWord_eq_true.mp ht
      rw [List.cons_append, List.cons_append, List.nil_append, comparisonOp, bind_of_eq peek_cons,
        hkind, htext]
      simp only
      rw [if_neg (by decide), if_pos (by decide),
        bind_of_eq (next_cons (isLayout_of_isWord ht)), bind_of_eq (takesWord_cons hu)]
      rfl
  | @notMember t u ht hu =>
      refine ⟨u.span.stop, ?_⟩
      obtain ⟨hkind, htext⟩ := isWord_eq_true.mp ht
      rw [List.cons_append, List.cons_append, List.nil_append, comparisonOp, bind_of_eq peek_cons,
        hkind, htext]
      simp only
      rw [if_neg (by decide), if_neg (by decide), if_pos (by decide)]
      refine maybe_of_some ?_
      rw [bind_of_eq (word_cons ht), bind_of_eq (word_cons hu)]
      rfl

/-- Comparisons are read one after the other. -/
structure CompleteChain (ts : List Token) (os : List CmpOp) (es : List Expr) : Prop where
  reads : ∀ {n}, ts.length ≤ n → ∀ {rest}, Next (fun t => Rule.bitOr.stops t = true) rest →
    ∀ stop, ∃ chain stop', Reads (nextComparison (level n)) ⟨ts ++ rest, stop⟩ chain
      ⟨rest, stop'⟩ ∧ chain.map (·.1) = os ∧
        (chain.map (·.2)).map Expr.unplaced = es.map Expr.unplaced
  length : os.length ≤ ts.length

theorem completeChain_nil : CompleteChain [] [] [] :=
  ⟨fun _ _ _ stop => ⟨[], stop, .nil, rfl, rfl⟩, Nat.le_refl 0⟩

theorem stops_of_compares (h : compares t = true) : Rule.bitOr.stops t = true := by
  rw [Rule.stops, ruleOf_of_compares h]
  rfl

theorem completeChain_cons {o : CmpOp} {os : List CmpOp} {es : List Expr} (hts : Compares ts o)
    (hus : Derives fit us (.one (.rule .bitOr) e)) (hvs : Derives fit vs (.chain os es))
    (h : CompleteOne us (.rule .bitOr) e) (hmore : CompleteChain vs os es) :
    CompleteChain (ts ++ (us ++ vs)) (o :: os) (e :: es) where
  reads {n} hn rest hrest stop := by
    rw [List.length_append, List.length_append] at hn
    obtain ⟨stop₁, hop⟩ := comparisonOp_of_compares hts
      (hus.next_head (hus.not_leadWord (by decide)))
    obtain ⟨e', stop₂, hread, hshape⟩ := h.yields (n := n) (by omega)
      (.append (fun t ht => stops_of_compares (hvs.of_mem_head t ht)) hrest) stop₁
    obtain ⟨chain, stop₃, hreads, hos, hes⟩ := hmore.reads (n := n) (by omega) hrest stop₂
    refine ⟨(o, e') :: chain, stop₃, .cons ?_ hreads, ?_, map_cons_congr hshape hes⟩
    · rw [List.append_assoc, List.append_assoc, nextComparison, bind_of_eq hop]
      refine (bind_of_eq hread).trans ?_
      rfl
    · rw [List.map_cons, hos]
  length := by
    have hlength := hmore.length
    have hne : ts ≠ [] := by
      obtain ⟨t, us, rfl, -⟩ := hts.head
      exact List.cons_ne_nil _ _
    have := List.length_pos_iff.mpr hne
    simp only [List.length_append, List.length_cons]
    omega

theorem complete_compare {os : List CmpOp} {es : List Expr}
    (hts : Derives fit ts (.one (.rule .bitOr) e)) (hus : Derives fit us (.chain os es))
    (hos : os ≠ []) (h : CompleteOne ts (.rule .bitOr) e) (hmore : CompleteChain us os es) :
    CompleteOne (ts ++ us) (.rule .comparison) (.compound span (.compare os) (e :: es)) := by
  refine complete_rule rfl fun n hn rest hrest stop => ?_
  rw [List.length_append] at hn
  have hstops : Next (fun t => Rule.bitOr.stops t = true) rest :=
    hrest.mono fun _ h => stops_mono h (by decide)
  obtain ⟨e', stop₁, hread, hshape⟩ := h.yields (n := n) (by omega)
    (.append (fun t ht => stops_of_compares (hus.of_mem_head t ht)) hstops) stop
  obtain ⟨chain, stop₂, hreads, hchain, hes⟩ := hmore.reads (n := n) (by omega) hstops stop₁
  have hcount : chain.length = os.length := by rw [← hchain, List.length_map]
  have hmany : many (nextComparison (level n)) ⟨us ++ rest, stop₁⟩ = some (chain, ⟨rest, stop₂⟩) := by
    refine many_of_reads hreads ?_ (nextComparison_of_stops hrest)
    have hlength := hmore.length
    simp only [List.length_append]
    omega
  have hne : chain.isEmpty = false := by
    cases chain with
    | nil => exact (hos hchain.symm).elim
    | cons => rfl
  refine ⟨.compound ⟨startOf (ts ++ (us ++ rest)), stop₂⟩ (.compare (chain.map (·.1)))
    (e' :: chain.map (·.2)), stop₂, ?_, ?_⟩
  · show comparison (level n) _ = _
    rw [List.append_assoc, comparison, bind_of_eq (here_of_next hts.next_true)]
    refine (bind_of_eq hread).trans ?_
    refine (bind_of_eq hmany).trans ?_
    rw [hne]
    rfl
  · rw [hchain]
    exact sameShape_compound (map_cons_congr hshape hes)

/-! ## Connectives and conditions -/

theorem complete_negation (ht : isWord "not" t = true) (h : CompleteOne ts (.rule .inversion) e) :
    CompleteOne (t :: ts) (.rule .inversion) (.compound span (.unaryOp .not) [e]) := by
  refine complete_rule rfl fun n hn rest hrest stop => ?_
  rw [List.length_cons] at hn
  obtain ⟨n, rfl⟩ := Nat.exists_eq_add_one.mpr (show 0 < n by omega)
  obtain ⟨e', stop', hread, hshape⟩ := h.yields (n := n) (by omega) hrest t.span.stop
  refine ⟨.compound ⟨t.span.start, stop'⟩ (.unaryOp .not) [e'], stop', ?_,
    sameShape_compound (map_cons_congr hshape rfl)⟩
  show inversion (level (n + 1)) _ = _
  rw [List.cons_append, inversion, bind_of_eq here_cons, bind_of_eq (takesWord_cons ht)]
  refine (bind_of_eq hread).trans ?_
  rfl

theorem complete_connected {es : List Expr} {w : String} {o : BoolOp}
    (ho : r.outer.connective = some (w, o)) (hts : Derives fit ts (.one (.rule r) e))
    (hus : Derives fit us (.more (.word w) (.rule r) es)) (hes : es ≠ [])
    (h : CompleteOne ts (.rule r) e) (hmore : CompleteMore us (.word w) (.rule r) es) :
    CompleteOne (ts ++ us) (.rule r.outer) (.compound span (.boolOp o) (e :: es)) := by
  have hrule : r.outer.loops = false ∧ (∀ l, r.outer.reader l = connected w o (r.reader l)) ∧
      r.rank < r.outer.rank ∧ ruleOfWord w = some r.outer := by
    cases r with
    | inversion | conjunction =>
        obtain ⟨rfl, rfl⟩ := Prod.mk.inj (Option.some.inj ho)
        exact ⟨rfl, fun _ => rfl, by decide, rfl⟩
    | atom | primary | power | factor | term | sum | shift | bitAnd | bitXor | bitOr | comparison
    | disjunction | expression => exact nomatch ho
  obtain ⟨hloops, hreader, hrank, hword⟩ := hrule
  have hsep (t : Token) (ht : (Separator.word w).test t = true) : r.stops t = true :=
    stops_of_isWord ht (by rw [hword]; exact decide_eq_true hrank)
  refine complete_rule hloops fun n hn rest hrest stop => ?_
  rw [List.length_append] at hn
  have hstops : Next (fun t => r.stops t = true) rest :=
    hrest.mono fun _ h => stops_mono h (Nat.le_of_lt hrank)
  obtain ⟨e', stop₁, hread, hshape⟩ := h.yields (n := n) (by omega)
    (stops_more hus hsep hstops) stop
  obtain ⟨es', stop₂, hreads, hshapes⟩ := hmore.reads (n := n) (by omega) hstops hsep stop₁
  have hcount : es'.length = es.length := by
    have hlengths := congrArg List.length hshapes
    rwa [List.length_map, List.length_map] at hlengths
  have hlast : behind (.word w) (r.reader (level n)) ⟨rest, stop₂⟩ = none := by
    obtain ⟨t, ws, rfl, ht⟩ := hrest
    refine behind_of_false (isWord_of_stops ht ?_)
    rw [hword]
    exact decide_eq_false (Nat.lt_irrefl _)
  have hmany : many (behind (.word w) (r.reader (level n))) ⟨us ++ rest, stop₁⟩
      = some (es', ⟨rest, stop₂⟩) := by
    refine many_of_reads hreads ?_ hlast
    have hlength := hmore.length
    simp only [List.length_append]
    omega
  have hne : es'.isEmpty = false := by
    cases es' with
    | nil =>
        have := List.length_pos_iff.mpr hes
        rw [← hcount] at this
        exact (Nat.lt_irrefl 0 this).elim
    | cons => rfl
  refine ⟨.compound ⟨startOf (ts ++ (us ++ rest)), stop₂⟩ (.boolOp o) (e' :: es'), stop₂, ?_,
    sameShape_compound (map_cons_congr hshape hshapes)⟩
  show r.outer.reader (level n) _ = _
  rw [hreader, List.append_assoc, connected, bind_of_eq (here_of_next hts.next_true)]
  refine (bind_of_eq hread).trans ?_
  refine (bind_of_eq hmany).trans ?_
  rw [hne]
  rfl

theorem complete_conditional {c : Expr} (hts : Derives fit ts (.one (.rule .disjunction) a))
    (ht : isWord "if" t = true) (hu : isWord "else" u = true)
    (ha : CompleteOne ts (.rule .disjunction) a) (hb : CompleteOne us (.rule .disjunction) b)
    (hc : CompleteOne vs (.rule .expression) c) :
    CompleteOne (ts ++ t :: (us ++ u :: vs)) (.rule .expression)
      (.compound span .ifExp [b, a, c]) := by
  refine complete_rule rfl fun n hn rest hrest stop => ?_
  simp only [List.length_append, List.length_cons] at hn
  obtain ⟨n, rfl⟩ := Nat.exists_eq_add_one.mpr (show 0 < n by omega)
  obtain ⟨a', stop₁, hfirst, hashape⟩ := ha.yields (n := n + 1) (by omega)
    (.cons (stops_of_isWord ht rfl)) stop
  obtain ⟨b', stop₂, htest, hbshape⟩ := hb.yields (n := n + 1) (by omega)
    (.cons (stops_of_isWord hu rfl)) t.span.stop
  obtain ⟨c', stop₃, hother, hcshape⟩ := hc.yields (n := n) (by omega) hrest u.span.stop
  refine ⟨.compound ⟨startOf (ts ++ t :: (us ++ u :: (vs ++ rest))), stop₃⟩ .ifExp [b', a', c'],
    stop₃, ?_, sameShape_compound (map_cons_congr hbshape (map_cons_congr hashape
      (map_cons_congr hcshape rfl)))⟩
  show expression (level (n + 1)) _ = _
  rw [List.append_assoc, List.cons_append, List.append_assoc, List.cons_append, expression,
    bind_of_eq (here_of_next hts.next_true),
    bind_of_eq (seesWord_of_next (hts.next_head (hts.not_leadWord (by decide))))]
  refine (bind_of_eq hfirst).trans ?_
  rw [bind_of_eq (takesWord_cons ht)]
  refine (bind_of_eq htest).trans ?_
  rw [bind_of_eq (word_cons hu)]
  refine (bind_of_eq hother).trans ?_
  rfl

end Covenant.Grammar
