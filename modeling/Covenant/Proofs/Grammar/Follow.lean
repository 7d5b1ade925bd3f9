import Covenant.Proofs.Grammar.Heads
import Covenant.Proofs.Grammar.Reading

/-! # Follow — where a reader stops, and where it fails

    A reader of a rule goes on as long as it sees an operator of the rule or of
    a tighter one.

    * `Rule.stops` says of which tokens a rule lets go; a looser rule lets go
      of fewer (`stops_mono`).
    * No reader of trees takes a token that no tree starts with
      (`reader_of_not_starts`), so that a comma before a closing bracket is
      left alone.
    * A tree of a tight rule starts with no sign and no word of a looser one
      (`Derives.leads`), so that it is not taken for a looser tree. -/

namespace Covenant.Grammar

open Covenant.Tree Reader

variable {t u : Token} {ts us : List Token} {r : Rule} {l : Level} {stop : Pos}

/-! ## Rules and their readers -/

/-- The next tighter rule. -/
def Rule.inner : Rule → Rule
  | .atom | .primary => .atom
  | .power => .primary
  | .factor => .power
  | .term => .factor
  | .sum => .term
  | .shift => .sum
  | .bitAnd => .shift
  | .bitXor => .bitAnd
  | .bitOr => .bitXor
  | .comparison => .bitOr
  | .inversion => .comparison
  | .conjunction => .inversion
  | .disjunction => .conjunction
  | .expression => .disjunction

/-- The reader of a rule. -/
def Rule.reader : Rule → Level → Reader Expr
  | .atom => Grammar.atom
  | .primary => Grammar.primary
  | .power => Grammar.power
  | .factor => Grammar.factor
  | .term => Grammar.term
  | .sum => Grammar.sum
  | .shift => Grammar.shift
  | .bitAnd => Grammar.bitwiseAnd
  | .bitXor => Grammar.bitwiseXor
  | .bitOr => Grammar.bitwiseOr
  | .comparison => Grammar.comparison
  | .inversion => Grammar.inversion
  | .conjunction => Grammar.conjunction
  | .disjunction => Grammar.disjunction
  | .expression => Grammar.expression

/-! ## Stopping -/

/-- How loose a rule is. -/
def Rule.rank : Rule → Nat
  | .atom => 0
  | .primary => 1
  | .power => 2
  | .factor => 3
  | .term => 4
  | .sum => 5
  | .shift => 6
  | .bitAnd => 7
  | .bitXor => 8
  | .bitOr => 9
  | .comparison => 10
  | .inversion => 11
  | .conjunction => 12
  | .disjunction => 13
  | .expression => 14

/-- The rule that goes on at an operator.  No rule lets go of the sign that names a value. -/
def ruleOfSign : String → Option Rule
  | ":=" => some .atom
  | "." | "(" | "[" => some .primary
  | "**" => some .power
  | "*" | "/" | "//" | "%" | "@" => some .term
  | "+" | "-" => some .sum
  | "<<" | ">>" => some .shift
  | "&" => some .bitAnd
  | "^" => some .bitXor
  | "|" => some .bitOr
  | "==" | "!=" | "<" | "<=" | ">" | ">=" => some .comparison
  | _ => none

/-- The rule that goes on at a word. -/
def ruleOfWord : String → Option Rule
  | "in" | "is" | "not" => some .comparison
  | "and" => some .conjunction
  | "or" => some .disjunction
  | "if" => some .expression
  | _ => none

/-- The tightest rule that goes on at a token. -/
def ruleOf (t : Token) : Option Rule :=
  match t.kind with
  | .op => ruleOfSign t.text
  | .name => ruleOfWord t.text
  | .string => some .atom
  | _ => none

/-- Whether a rule goes no further than to a token of this rule. -/
def Rule.stopsAt (r : Rule) (o : Option Rule) : Bool := o.all fun r' => r.rank < r'.rank

/-- Whether a rule goes no further than to the token. -/
def Rule.stops (r : Rule) (t : Token) : Bool := r.stopsAt (ruleOf t)

theorem ruleOf_of_isOp {o : String} (h : isOp o t = true) : ruleOf t = ruleOfSign o := by
  obtain ⟨hkind, rfl⟩ := isOp_eq_true.mp h
  rw [ruleOf, hkind]

theorem ruleOf_of_isWord {w : String} (h : isWord w t = true) : ruleOf t = ruleOfWord w := by
  obtain ⟨hkind, rfl⟩ := isWord_eq_true.mp h
  rw [ruleOf, hkind]

theorem stops_of_isOp {o : String} (h : isOp o t = true) (ho : r.stopsAt (ruleOfSign o) = true) :
    r.stops t = true := by
  rw [Rule.stops, ruleOf_of_isOp h, ho]

theorem stops_of_isWord {w : String} (h : isWord w t = true)
    (hw : r.stopsAt (ruleOfWord w) = true) : r.stops t = true := by
  rw [Rule.stops, ruleOf_of_isWord h, hw]

theorem stops_of_isLayout (h : isLayout t = true) : r.stops t = true := by
  have hnone : ruleOf t = none := by
    simp only [isLayout, Bool.or_eq_true, decide_eq_true_eq] at h
    rcases h with ((h | h) | h) | h <;> rw [ruleOf, h]
  rw [Rule.stops, hnone]
  rfl

theorem isOp_of_stops {o : String} (h : r.stops t = true)
    (ho : r.stopsAt (ruleOfSign o) = false) : isOp o t = false := by
  rw [Bool.eq_false_iff]
  intro hop
  rw [Rule.stops, ruleOf_of_isOp hop, ho] at h
  exact nomatch h

theorem isWord_of_stops {w : String} (h : r.stops t = true)
    (hw : r.stopsAt (ruleOfWord w) = false) : isWord w t = false := by
  rw [Bool.eq_false_iff]
  intro hword
  rw [Rule.stops, ruleOf_of_isWord hword, hw] at h
  exact nomatch h

theorem Rule.stopsAt_mono {r r' : Rule} {o : Option Rule} (h : r.stopsAt o = true)
    (hrank : r'.rank ≤ r.rank) : r'.stopsAt o = true := by
  cases o with
  | none => rfl
  | some r'' =>
      have h : r.rank < r''.rank := of_decide_eq_true h
      exact decide_eq_true (show r'.rank < r''.rank by omega)

/-- A tighter rule stops where a looser one does. -/
theorem stops_mono {r r' : Rule} (h : r.stops t = true) (hrank : r'.rank ≤ r.rank) :
    r'.stops t = true :=
  Rule.stopsAt_mono h hrank

/-- No operator joins factors, so a factor goes no further than a power. -/
theorem stops_factor (h : Rule.power.stops t = true) : Rule.factor.stops t = true := by
  have hsign (s : String) : ruleOfSign s ≠ some .factor := by
    rw [ruleOfSign.eq_def]
    split <;> nofun
  have hword (w : String) : ruleOfWord w ≠ some .factor := by
    rw [ruleOfWord.eq_def]
    split <;> nofun
  have hne : ruleOf t ≠ some .factor := by
    rw [ruleOf.eq_def]
    split
    · exact hsign _
    · exact hword _
    · nofun
    · nofun
  rw [Rule.stops] at h ⊢
  cases hrule : ruleOf t with
  | none => rfl
  | some r =>
      rw [hrule] at h hne
      cases r with
      | factor => exact (hne rfl).elim
      | atom | primary | power => exact nomatch h
      | _ => rfl

theorem kind_of_stops (h : r.stops t = true) : t.kind ≠ .string := by
  intro hkind
  rw [Rule.stops, ruleOf, hkind] at h
  exact absurd (of_decide_eq_true h : r.rank < Rule.atom.rank) (Nat.not_lt_zero _)

theorem not_naming_of_stops (h : r.stops t = true) : isOp ":=" t = false :=
  isOp_of_stops h (decide_eq_false (Nat.not_lt_zero r.rank))

/-- The operators of a rule are those at which it goes on. -/
theorem ruleOfSign_of_operator {s : String} {o : BinOp} (h : r.operator s = some o) :
    ruleOfSign s = some r := by
  cases r with
  | term | sum | shift | bitAnd | bitXor | bitOr =>
      simp only [Rule.operator] at h
      split at h <;> first | rfl | exact (Option.some_ne_none _ h.symm).elim
  | atom | primary | power | factor | comparison | inversion | conjunction | disjunction
  | expression => exact (Option.some_ne_none _ h.symm).elim

theorem operator_of_stops (h : r.stops t = true) :
    (if t.kind = .op then r.operator t.text else none) = none := by
  split
  · rename_i hkind
    rw [Option.eq_none_iff_forall_ne_some]
    intro o ho
    rw [Rule.stops, ruleOf, hkind] at h
    simp only [ruleOfSign_of_operator ho] at h
    exact absurd (of_decide_eq_true h) (Nat.lt_irrefl _)
  · rfl

/-- An operator of a rule ends its operands. -/
theorem stops_of_operator {r' : Rule} {o : BinOp} (hkind : t.kind = .op)
    (h : r.operator t.text = some o) (hrank : r'.rank < r.rank) : r'.stops t = true := by
  rw [Rule.stops, ruleOf, hkind]
  simp only [ruleOfSign_of_operator h]
  exact decide_eq_true hrank

theorem ruleOf_of_compares (h : compares t = true) : ruleOf t = some .comparison := by
  rw [compares.eq_def] at h
  rw [ruleOf]
  split at h
  · rename_i hkind
    rw [hkind]
    obtain ⟨o, ho⟩ := Option.isSome_iff_exists.mp h
    rw [comparisonSign.eq_def] at ho
    show ruleOfSign t.text = _
    split at ho <;> first | (rename_i htext; rw [htext]; rfl) | exact (Option.some_ne_none _ ho.symm).elim
  · rename_i hkind
    rw [hkind]
    show ruleOfWord t.text = _
    simp only [Bool.or_eq_true, beq_iff_eq] at h
    rcases h with (h | h) | h <;> rw [h] <;> rfl
  · exact nomatch h

theorem compares_of_stops (h : Rule.comparison.stops t = true) : compares t = false := by
  rw [Bool.eq_false_iff]
  intro hcompares
  rw [Rule.stops, ruleOf_of_compares hcompares] at h
  exact nomatch h

/-! ## Failing -/

theorem isWord_of_not_starts {w : String} (h : starts t = false)
    (hw : startingWords.contains w = true) : isWord w t = false := by
  rw [Bool.eq_false_iff]
  intro hword
  rw [starts_of_isWord hword hw] at h
  exact nomatch h

theorem isOp_of_not_starts {o : String} (h : starts t = false)
    (ho : startingSigns.contains o = true) : isOp o t = false := by
  rw [Bool.eq_false_iff]
  intro hop
  rw [starts_of_isOp hop ho] at h
  exact nomatch h

theorem atom_of_not_starts (h : starts t = false) : atom l ⟨t :: ts, stop⟩ = none := by
  rw [atom, bind_of_eq peek_cons]
  cases hkind : t.kind with
  | name =>
      cases hword : wordConstant t.text with
      | some c =>
          rw [starts_of_wordConstant hkind hword] at h
          exact nomatch h
      | none =>
          refine bind_of_none (nextIf_of_false ?_)
          rw [Bool.eq_false_iff]
          intro hname
          rw [starts_of_isIdentifier hname] at h
          exact nomatch h
  | number =>
      rw [starts_of_kind (.inl hkind)] at h
      exact nomatch h
  | string =>
      rw [starts_of_kind (.inr hkind)] at h
      exact nomatch h
  | op =>
      have hne (o : String) (ho : startingSigns.contains o = true) : t.text ≠ o := fun heq => by
        rw [starts_of_isOp (isOp_eq_true.mpr ⟨hkind, heq⟩) ho] at h
        exact nomatch h
      have hround := hne "(" rfl
      have hsquare := hne "[" rfl
      have hcurly := hne "\x7b" rfl
      have hdots := hne "..." rfl
      simp only
      rfl
  | newline | indent | dedent | stop => rfl

theorem leftAssociative_of_none {operator : String → Option BinOp} {p : Reader Expr}
    (h : p ⟨t :: ts, stop⟩ = none) : leftAssociative operator p ⟨t :: ts, stop⟩ = none := by
  rw [leftAssociative, bind_of_eq here_cons]
  exact bind_of_none h

theorem connected_of_none {w : String} {o : BoolOp} {p : Reader Expr}
    (h : p ⟨t :: ts, stop⟩ = none) : connected w o p ⟨t :: ts, stop⟩ = none := by
  rw [connected, bind_of_eq here_cons]
  exact bind_of_none h

/-- **NO TREE IS READ** where no tree starts. -/
theorem reader_of_not_starts (h : starts t = false) (hawait : isWord "await" t = false)
    (r : Rule) : r.reader l ⟨t :: ts, stop⟩ = none := by
  have hatom : atom l ⟨t :: ts, stop⟩ = none := atom_of_not_starts h
  have hprimary : primary l ⟨t :: ts, stop⟩ = none := by
    rw [primary, bind_of_eq here_cons]
    exact bind_of_none hatom
  have hpower : power l ⟨t :: ts, stop⟩ = none := by
    have hawaited : awaited l ⟨t :: ts, stop⟩ = none := by
      rw [awaited, bind_of_eq here_cons, bind_of_eq (takesWord_of_false hawait)]
      exact hprimary
    rw [power, bind_of_eq here_cons]
    exact bind_of_none hawaited
  have hfactor : factor l ⟨t :: ts, stop⟩ = none := by
    have hsign : (if t.kind = .op then signOp t.text else none) = none := by
      split
      · rename_i hkind
        rw [Option.eq_none_iff_forall_ne_some]
        intro o ho
        rw [starts_of_signOp hkind ho] at h
        exact nomatch h
      · rfl
    rw [factor, bind_of_eq here_cons, bind_of_eq peek_cons, hsign]
    exact hpower
  have hterm : term l ⟨t :: ts, stop⟩ = none := leftAssociative_of_none hfactor
  have hsum : sum l ⟨t :: ts, stop⟩ = none := leftAssociative_of_none hterm
  have hshift : shift l ⟨t :: ts, stop⟩ = none := leftAssociative_of_none hsum
  have hand : bitwiseAnd l ⟨t :: ts, stop⟩ = none := leftAssociative_of_none hshift
  have hxor : bitwiseXor l ⟨t :: ts, stop⟩ = none := leftAssociative_of_none hand
  have hor : bitwiseOr l ⟨t :: ts, stop⟩ = none := leftAssociative_of_none hxor
  have hcomparison : comparison l ⟨t :: ts, stop⟩ = none := by
    rw [comparison, bind_of_eq here_cons]
    exact bind_of_none hor
  have hinversion : inversion l ⟨t :: ts, stop⟩ = none := by
    rw [inversion, bind_of_eq here_cons,
      bind_of_eq (takesWord_of_false (isWord_of_not_starts h rfl))]
    exact hcomparison
  have hconjunction : conjunction l ⟨t :: ts, stop⟩ = none := connected_of_none hinversion
  have hdisjunction : disjunction l ⟨t :: ts, stop⟩ = none := connected_of_none hconjunction
  have hexpression : expression l ⟨t :: ts, stop⟩ = none := by
    rw [expression, bind_of_eq here_cons,
      bind_of_eq (seesWord_of_eq (isWord_of_not_starts h rfl))]
    exact bind_of_none hdisjunction
  cases r with
  | atom => exact hatom
  | primary => exact hprimary
  | power => exact hpower
  | factor => exact hfactor
  | term => exact hterm
  | sum => exact hsum
  | shift => exact hshift
  | bitAnd => exact hand
  | bitXor => exact hxor
  | bitOr => exact hor
  | comparison => exact hcomparison
  | inversion => exact hinversion
  | conjunction => exact hconjunction
  | disjunction => exact hdisjunction
  | expression => exact hexpression

/-! ## Leading -/

/-- The tightest rule of what starts with a token. -/
def leadRule (t : Token) : Rule :=
  match t.kind with
  | .op => if (signOp t.text).isSome then .factor else .atom
  | .name => if t.text = "not" then .inversion else if t.text = "lambda" then .expression else .atom
  | _ => .atom

theorem leadRule_of_isOp {o : String} (h : isOp o t = true) (ho : signOp o = none) :
    leadRule t = .atom := by
  obtain ⟨hkind, rfl⟩ := isOp_eq_true.mp h
  rw [leadRule, hkind]
  simp [ho]

theorem leadRule_of_isWord {w : String} (h : isWord w t = true) :
    leadRule t = if w = "not" then .inversion else if w = "lambda" then .expression else .atom := by
  obtain ⟨hkind, rfl⟩ := isWord_eq_true.mp h
  rw [leadRule, hkind]

theorem leadRule_of_isIdentifier (h : isIdentifier t = true) : leadRule t = .atom := by
  obtain ⟨hkind, hkeyword⟩ := isIdentifier_eq_true.mp h
  have hne {w : String} (hw : keywords.contains w = true) : t.text ≠ w := by
    rintro rfl
    rw [hw] at hkeyword
    exact nomatch hkeyword
  rw [leadRule, hkind]
  simp [hne (w := "not") rfl, hne (w := "lambda") rfl]

theorem leadRule_of_wordConstant {c : Constant} (hkind : t.kind = .name)
    (h : wordConstant t.text = some c) : leadRule t = .atom := by
  rw [wordConstant.eq_def] at h
  rw [leadRule, hkind]
  split at h
  case h_1 heq => simp [heq]
  case h_2 heq => simp [heq]
  case h_3 heq => simp [heq]
  case h_4 => exact (Option.some_ne_none _ h.symm).elim

/-- What a rule derives leads with no looser one. -/
def Phrase.leadsWith (ts : List Token) : Phrase → Prop
  | .one (.rule r) _ => ∀ t ∈ ts.head?, (leadRule t).rank ≤ r.rank
  | _ => True

theorem leadsWith_cons {e : Expr} (h : (leadRule t).rank ≤ r.rank) :
    (Phrase.one (.rule r) e).leadsWith (t :: ts) := by
  intro t' ht'
  obtain rfl := Option.some.inj ht'
  exact h

theorem leadsWith_atom {e : Expr} (h : leadRule t = .atom) :
    (Phrase.one (.rule r) e).leadsWith (t :: ts) :=
  leadsWith_cons (h ▸ Nat.zero_le _)

theorem leadsWith_append {fit : Expr → Prop} {r' : Rule} {e e' : Expr}
    (hts : Derives fit ts (.one (.rule r) e)) (h : (Phrase.one (.rule r) e).leadsWith ts)
    (hrank : r.rank ≤ r'.rank) : (Phrase.one (.rule r') e').leadsWith (ts ++ us) := by
  obtain ⟨t, ts, rfl, -⟩ := hts.exists_cons rfl
  exact leadsWith_cons (Nat.le_trans (h t rfl) hrank)

theorem Rule.rank_outer (r : Rule) : r.rank ≤ r.outer.rank := by
  cases r <;> decide

theorem signOp_opener (d : Display) : signOp d.opener = none := by
  cases d <;> rfl

/-- **THE LEAD OF A TREE** belongs to no looser rule than the tree. -/
theorem Derives.leads {fit : Expr → Prop} {x : Phrase} (h : Derives fit ts x) :
    x.leadsWith ts := by
  induction h with
  | name ht => exact leadsWith_atom (leadRule_of_isIdentifier ht)
  | word _ hkind hword => exact leadsWith_atom (leadRule_of_wordConstant hkind hword)
  | number _ hkind => exact leadsWith_atom (by rw [leadRule, hkind])
  | @string ts c _ hne hall =>
      obtain ⟨t, us, rfl⟩ := List.exists_cons_of_ne_nil hne
      exact leadsWith_atom (by rw [leadRule, hall t List.mem_cons_self])
  | ellipsis _ ht | group ht | emptyMapping _ ht | mapping _ ht | mappingComprehension _ ht =>
      exact leadsWith_atom (leadRule_of_isOp ht rfl)
  | empty d _ _ ht => exact leadsWith_atom (leadRule_of_isOp ht (signOp_opener d))
  | display d _ ht => exact leadsWith_atom (leadRule_of_isOp ht (signOp_opener d))
  | comprehension d _ ht => exact leadsWith_atom (leadRule_of_isOp ht (signOp_opener d))
  | field _ hts _ _ ih | call hts _ _ _ _ _ ih | callComprehension _ hts _ _ _ _ _ _ _ ih
  | subscript _ hts _ _ _ ih => exact leadsWith_append hts ih (Nat.le_refl _)
  | power _ hts _ _ ih | compare _ hts _ _ ih | conditional _ hts _ _ _ _ ih =>
      exact leadsWith_append hts ih (by decide)
  | binary _ hts _ _ _ ih => exact leadsWith_append hts ih (Nat.le_refl _)
  | connected _ _ hts _ _ ih => exact leadsWith_append hts ih (Rule.rank_outer _)
  | outer _ ih => exact fun t ht => Nat.le_trans (ih t ht) (Rule.rank_outer _)
  | @sign t ts e o _ hkind hsign =>
      refine leadsWith_cons ?_
      rw [leadRule, hkind]
      simp [hsign]
  | negation _ ht | lambda _ ht =>
      refine leadsWith_cons ?_
      rw [leadRule_of_isWord ht]
      decide
  | @plain ts k e _ ih =>
      cases k with
      | rule r => exact ih
      | item | target | index => trivial
  | @starred t ts k r e _ hk =>
      cases k with
      | rule r' => exact nomatch hk
      | item | target | index => trivial
  | _ => trivial

/-- What starts no looser tree starts with no looser word. -/
theorem not_leadWord {w : String} (h : ∀ t ∈ ts.head?, (leadRule t).rank ≤ r.rank)
    (hw : r.rank < (if w = "not" then Rule.inversion else if w = "lambda" then .expression
      else .atom).rank) : ∀ t ∈ ts.head?, isWord w t = false := by
  intro t ht
  rw [Bool.eq_false_iff]
  intro hword
  have hlead := h t ht
  rw [leadRule_of_isWord hword] at hlead
  omega

/-- No tree of a tight rule starts with a looser word. -/
theorem Derives.not_leadWord {fit : Expr → Prop} {e : Expr} {w : String}
    (h : Derives fit ts (.one (.rule r) e))
    (hw : r.rank < (if w = "not" then Rule.inversion else if w = "lambda" then .expression
      else .atom).rank) : ∀ t ∈ ts.head?, isWord w t = false :=
  Grammar.not_leadWord h.leads hw

/-- What starts no looser tree starts with no sign. -/
theorem not_leadSign (h : ∀ t ∈ ts.head?, (leadRule t).rank ≤ r.rank)
    (hr : r.rank < Rule.factor.rank) :
    ∀ t ∈ ts.head?, (if t.kind = .op then signOp t.text else none) = none := by
  intro t ht
  split
  · rename_i hkind
    rw [← Option.not_isSome_iff_eq_none]
    intro hsome
    have hlead := h t ht
    rw [leadRule, hkind] at hlead
    simp only [hsome, if_true] at hlead
    omega
  · rfl

end Covenant.Grammar
