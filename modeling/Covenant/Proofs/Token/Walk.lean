import Covenant.Proofs.Token.Scanning

/-! # Walks — what the lexer passes over

    The lexer goes over a text step by step.  A walk is some of these steps:
    the tokens they give, the place they lead to and the text that is left.
    What is left belongs to every step, because where a token ends depends on
    what comes after it.

    * What a step within a line takes is a matter of the text alone (`scanToken`); the place
      counts only for brackets (`step_token`).
    * The lexer gives what a walk to the end of the text gives (`lexFrom_of_walk`), and
      nothing else (`walk_of_lexFrom`). -/

namespace Covenant.Token

open Text Covenant.Tree

variable {p q : Place} {cs rest tail : List Char} {ts us : List Token} {c : Char}

/-! ## Tokens of a line -/

/-- A name, or a string literal with marks, as it is cut off. -/
def scanWord (cs : List Char) : Option (TokenKind × Cut) :=
  match scanMarks {} cs with
  | some (marks, rest) => (scanString rest).map fun t => (.string, t.pushAll marks)
  | none =>
    let t : Cut := (cs.takeWhile mayContinueName, cs.dropWhile mayContinueName)
    if isIdentifier t.1 then some (.name, t) else none

/-- The token that a text starts with, as it is cut off. -/
def scanToken : List Char → Option (TokenKind × Cut)
  | [] => none
  | c :: rest =>
    if mayStartName c then scanWord (c :: rest)
    else if c = '\'' ∨ c = '"' then (scanString (c :: rest)).map (TokenKind.string, ·)
    else if c.isDigit ∨ (c = '.' ∧ (rest.head?.map Char.isDigit) = some true) then
      (scanNumber (c :: rest)).map (TokenKind.number, ·)
    else
      (scanOperator (c :: rest)).map fun o => (.op, o.toList, (c :: rest).drop o.length)

/-- The place behind a token that starts with a character. -/
def Place.behind (p : Place) (kind : TokenKind) (c : Char) : Option Place :=
  if kind = .op then p.bracket c else some p

/-- Whether a character starts a token, and neither layout nor a comment. -/
def StartsToken (c : Char) : Prop :=
  c ≠ ' ' ∧ c ≠ '\t' ∧ c ≠ '\x0c' ∧ c ≠ '#' ∧ c ≠ '\n' ∧ c ≠ '\\'

instance (c : Char) : Decidable (StartsToken c) :=
  inferInstanceAs (Decidable (c ≠ ' ' ∧ c ≠ '\t' ∧ c ≠ '\x0c' ∧ c ≠ '#' ∧ c ≠ '\n' ∧ c ≠ '\\'))

/-- A step over a token. -/
theorem step_token (hc : StartsToken c) : p.step (c :: rest) =
    (scanToken (c :: rest)).bind fun s => (p.behind s.1 c).map (·.take s.1 s.2) := by
  obtain ⟨hspace, htab, hfeed, hcomment, hline, hescape⟩ := hc
  unfold Place.step
  dsimp only
  rw [if_neg (not_or.mpr ⟨hspace, not_or.mpr ⟨htab, hfeed⟩⟩), if_neg hcomment,
    if_neg hline, if_neg hescape, scanToken]
  split_ifs
  · unfold Place.word scanWord
    cases scanMarks {} (c :: rest) with
    | some t =>
        obtain ⟨marks, after⟩ := t
        dsimp only
        cases scanString after <;> rfl
    | none =>
        dsimp only
        split_ifs <;> rfl
  · cases scanString (c :: rest) <;> rfl
  · cases scanNumber (c :: rest) <;> rfl
  · cases scanOperator (c :: rest) <;> rfl

/-! ## Tokens in front of a tail -/

theorem head?_tail (h : Tail tail) :
    (cs ++ tail).head?.map Char.isDigit = some true ↔ cs.head?.map Char.isDigit = some true := by
  cases cs with
  | nil =>
      obtain ⟨e, rest, rfl, he⟩ := h
      simp [he.number.not_isDigit]
  | cons c cs => rfl

theorem quote_of_scanMarks {m : Marks} {t : Cut} (h : scanMarks m cs = some t) :
    ∃ quote rest, t.2 = quote :: rest ∧ (quote = '\'' ∨ quote = '"') := by
  induction cs generalizing m t with
  | nil => exact nomatch h
  | cons c cs ih =>
      rw [scanMarks] at h
      split_ifs at h with hquote
      · obtain rfl := Option.some.inj h
        exact ⟨c, cs, rfl, hquote⟩
      · obtain ⟨m', -, h⟩ := Option.bind_eq_some_iff.mp h
        obtain ⟨u, hu, rfl⟩ := Option.map_eq_some_iff.mp h
        obtain ⟨quote, rest, hrest, hquote⟩ := ih hu
        exact ⟨quote, rest, hrest, hquote⟩

/-- A token with a tail behind it. -/
def tokenBefore (tail : List Char) (s : TokenKind × Cut) : TokenKind × Cut :=
  (s.1, s.2.before tail)

theorem scanWord_tail (h : Tail tail) {s : TokenKind × Cut} (hs : scanWord cs = some s) :
    scanWord (cs ++ tail) = some (tokenBefore tail s) := by
  unfold scanWord at hs ⊢
  rw [scanMarks_tail h, (takeWhile_tail h).1, (takeWhile_tail h).2]
  cases hmarks : scanMarks {} cs with
  | some t =>
      obtain ⟨marks, after⟩ := t
      obtain ⟨quote, rest, hafter, hquote⟩ := quote_of_scanMarks hmarks
      dsimp only at hafter
      subst hafter
      rw [hmarks] at hs
      obtain ⟨u, hu, rfl⟩ := Option.map_eq_some_iff.mp hs
      show (scanString (quote :: rest ++ tail)).map _ = _
      rw [scanString_tail h hquote hu]
      rfl
  | none =>
      rw [hmarks] at hs
      dsimp only [Option.map_none] at hs ⊢
      split_ifs at hs ⊢
      obtain rfl := Option.some.inj hs
      rfl

theorem scanWord_newline {s : TokenKind × Cut} (hs : scanWord (cs ++ ['\n']) = some s) :
    ∃ s', scanWord cs = some s' ∧ s = tokenBefore ['\n'] s' := by
  have htail : Tail ['\n'] := ⟨_, _, rfl, ends_newline⟩
  unfold scanWord at hs ⊢
  rw [scanMarks_tail htail, (takeWhile_tail htail).1, (takeWhile_tail htail).2] at hs
  cases hmarks : scanMarks {} cs with
  | some t =>
      obtain ⟨marks, after⟩ := t
      obtain ⟨quote, rest, hafter, hquote⟩ := quote_of_scanMarks hmarks
      dsimp only at hafter
      subst hafter
      rw [hmarks] at hs
      obtain ⟨v, hv, rfl⟩ := Option.map_eq_some_iff.mp hs
      obtain ⟨u, hu, rfl⟩ := scanString_newline hquote hv
      exact ⟨_, Option.map_eq_some_iff.mpr ⟨u, hu, rfl⟩, rfl⟩
  | none =>
      rw [hmarks] at hs
      dsimp only [Option.map_none] at hs ⊢
      split_ifs at hs ⊢
      obtain rfl := Option.some.inj hs
      exact ⟨_, rfl, rfl⟩

/-- What a scanner has cut off in front of a tail, with the kind of token. -/
theorem map_kind_tail (kind : TokenKind) (o : Option Cut) :
    (o.map (Cut.before tail)).map (kind, ·) = (o.map (kind, ·)).map (tokenBefore tail) := by
  rw [Option.map_map, Option.map_map]
  rfl

theorem scanNumber_kind_tail (h : Tail tail) :
    (scanNumber (c :: cs ++ tail)).map (TokenKind.number, ·)
      = ((scanNumber (c :: cs)).map (TokenKind.number, ·)).map (tokenBefore tail) := by
  rw [scanNumber_tail h.number (List.cons_ne_nil c cs), map_kind_tail]

theorem length_of_scanOperator {o : String} (h : scanOperator cs = some o) :
    o.length ≤ cs.length := by
  have hprefix := List.find?_some h
  rw [List.isPrefixOf_iff_prefix] at hprefix
  exact hprefix.length_le

theorem scanOperator_kind_tail (h : Tail tail) :
    (scanOperator (c :: cs ++ tail)).map
        (fun o => (TokenKind.op, o.toList, (c :: cs ++ tail).drop o.length))
      = ((scanOperator (c :: cs)).map
          fun o => (TokenKind.op, o.toList, (c :: cs).drop o.length)).map (tokenBefore tail) := by
  rw [scanOperator_tail h (List.cons_ne_nil c cs)]
  cases ho : scanOperator (c :: cs) with
  | none => rfl
  | some o =>
      rw [Option.map_some, Option.map_some, Option.map_some,
        List.drop_append_of_le_length (length_of_scanOperator ho)]
      rfl

/-- **TOKENS** in front of a tail are what they are without it. -/
theorem scanToken_tail (h : Tail tail) {s : TokenKind × Cut} (hs : scanToken cs = some s) :
    scanToken (cs ++ tail) = some (tokenBefore tail s) := by
  cases cs with
  | nil => exact nomatch hs
  | cons c cs =>
      have hdigit : (cs ++ tail).head?.map Char.isDigit = some true ↔ _ := head?_tail h
      rw [scanToken] at hs
      rw [List.cons_append, scanToken]
      simp only [hdigit]
      split_ifs at hs ⊢ with hname hquote hnumber
      · exact scanWord_tail h hs
      · obtain ⟨u, hu, rfl⟩ := Option.map_eq_some_iff.mp hs
        rw [← List.cons_append, scanString_tail h hquote hu]
        rfl
      · rw [← List.cons_append, scanNumber_kind_tail h, hs]
        rfl
      · rw [← List.cons_append, scanOperator_kind_tail h, hs]
        rfl

/-- **THE END OF A LINE** ends its last token. -/
theorem scanToken_newline {s : TokenKind × Cut} (hcs : cs ≠ [])
    (hs : scanToken (cs ++ ['\n']) = some s) :
    ∃ s', scanToken cs = some s' ∧ s = tokenBefore ['\n'] s' := by
  have htail : Tail ['\n'] := ⟨_, _, rfl, ends_newline⟩
  cases cs with
  | nil => exact absurd rfl hcs
  | cons c cs =>
      have hdigit : (cs ++ ['\n']).head?.map Char.isDigit = some true ↔ _ := head?_tail htail
      rw [List.cons_append, scanToken] at hs
      rw [scanToken]
      simp only [hdigit] at hs
      split_ifs at hs ⊢ with hname hquote hnumber
      · exact scanWord_newline hs
      · obtain ⟨v, hv, rfl⟩ := Option.map_eq_some_iff.mp hs
        obtain ⟨u, hu, rfl⟩ := scanString_newline hquote hv
        exact ⟨_, Option.map_eq_some_iff.mpr ⟨u, hu, rfl⟩, rfl⟩
      · rw [← List.cons_append, scanNumber_kind_tail htail] at hs
        obtain ⟨s', hs', rfl⟩ := Option.map_eq_some_iff.mp hs
        exact ⟨s', hs', rfl⟩
      · rw [← List.cons_append, scanOperator_kind_tail htail] at hs
        obtain ⟨s', hs', rfl⟩ := Option.map_eq_some_iff.mp hs
        exact ⟨s', hs', rfl⟩

/-! ## What a token takes -/

theorem extends_of_append {t : Cut} (h : t.1 ++ t.2 = c :: cs) (hne : t.1 ≠ []) :
    Extends ([c], cs) t := by
  obtain ⟨taken, after⟩ := t
  cases taken with
  | nil => exact absurd rfl hne
  | cons d ds =>
      obtain ⟨rfl, rfl⟩ := List.cons.inj h
      exact ⟨ds, rfl, rfl⟩

theorem extends_scanWord {s : TokenKind × Cut} (h : scanWord (c :: cs) = some s) :
    Extends ([c], cs) s.2 := by
  unfold scanWord at h
  cases hmarks : scanMarks {} (c :: cs) with
  | some t =>
      obtain ⟨marks, after⟩ := t
      obtain ⟨quote, rest, hafter, hquote⟩ := quote_of_scanMarks hmarks
      dsimp only at hafter
      subst hafter
      rw [hmarks] at h
      obtain ⟨u, hu, rfl⟩ := Option.map_eq_some_iff.mp h
      have hescape : quote ≠ '\\' := by rcases hquote with rfl | rfl <;> decide
      obtain ⟨more, hmore, hrest⟩ := extends_scanString hescape hu
      have happend : marks ++ quote :: rest = c :: cs := (extends_scanMarks hmarks).append_eq
      refine extends_of_append ?_ ?_
      · show marks ++ u.1 ++ u.2 = c :: cs
        rw [← happend, hmore, show rest = more ++ u.2 from hrest, List.append_assoc]
        rfl
      · show marks ++ u.1 ≠ []
        rw [hmore]
        simp
  | none =>
      rw [hmarks] at h
      dsimp only at h
      obtain ⟨hname, h⟩ := Option.ite_none_right_eq_some.mp h
      obtain rfl := Option.some.inj h
      refine extends_of_append List.takeWhile_append_dropWhile fun hempty => ?_
      dsimp only at hempty
      rw [hempty] at hname
      exact nomatch hname

theorem ne_nil_of_mem_operators : ∀ o ∈ operators, o.toList ≠ [] := by decide

/-- A token takes the character that it starts with, and what follows stays as it is. -/
theorem extends_scanToken {s : TokenKind × Cut} (h : scanToken (c :: cs) = some s) :
    Extends ([c], cs) s.2 := by
  rw [scanToken] at h
  split_ifs at h with hname hquote hnumber
  · exact extends_scanWord h
  · obtain ⟨u, hu, rfl⟩ := Option.map_eq_some_iff.mp h
    have hescape : c ≠ '\\' := by rcases hquote with rfl | rfl <;> decide
    exact extends_scanString hescape hu
  · obtain ⟨u, hu, rfl⟩ := Option.map_eq_some_iff.mp h
    exact extends_scanNumber (hnumber.imp_right And.left) hu
  · obtain ⟨o, ho, rfl⟩ := Option.map_eq_some_iff.mp h
    have hprefix := List.find?_some ho
    rw [List.isPrefixOf_iff_prefix] at hprefix
    obtain ⟨after, hafter⟩ := hprefix
    refine extends_of_append ?_ (ne_nil_of_mem_operators o (List.mem_of_find?_eq_some ho))
    show o.toList ++ (c :: cs).drop o.length = c :: cs
    rw [← hafter, ← String.length_toList, List.drop_left]

/-- No token is the end of a line. -/
theorem kind_of_scanToken {s : TokenKind × Cut} (h : scanToken (c :: cs) = some s) :
    s.1 ≠ .newline := by
  rw [scanToken] at h
  split_ifs at h
  · unfold scanWord at h
    split at h
    · obtain ⟨u, -, rfl⟩ := Option.map_eq_some_iff.mp h
      intro hkind
      cases hkind
    · obtain ⟨-, h⟩ := Option.ite_none_right_eq_some.mp h
      obtain rfl := Option.some.inj h
      intro hkind
      cases hkind
  all_goals
    obtain ⟨u, -, rfl⟩ := Option.map_eq_some_iff.mp h
    intro hkind
    cases hkind

/-! ## Walks -/

/-- One step of the lexer, at the start of a line or within it. -/
def Place.advance (p : Place) (cs : List Char) : Option Advance :=
  if p.fresh then p.freshLine cs else p.step cs

theorem eq_of_advance {p' : Place} {cs' : List Char} (h : some (ts, p, cs) = some (us, p', cs')) :
    ts = us ∧ p = p' ∧ cs = cs' := by
  simpa only [Option.some.injEq, Prod.mk.injEq] using h

theorem advance_of_not_fresh (h : p.fresh = false) : p.advance cs = p.step cs := by
  rw [Place.advance, h, if_neg Bool.false_ne_true]

/-- `Walk n p cs ts q rest`: in so many steps the lexer gets from the place `p` in front of `cs`
    to the place `q` in front of `rest`, and gives the tokens `ts`. -/
inductive Walk : Nat → Place → List Char → List Token → Place → List Char → Prop where
  | done {p : Place} {cs : List Char} : Walk 0 p cs [] p cs
  | step {n : Nat} {p p' q : Place} {cs cs' rest : List Char} {ts us : List Token} :
      p.advance cs = some (ts, p', cs') → Walk n p' cs' us q rest →
      Walk (n + 1) p cs (ts ++ us) q rest

variable {n m : Nat}

theorem Walk.trans {p' : Place} {cs' : List Char} (h : Walk n p cs ts p' cs')
    (h' : Walk m p' cs' us q rest) : Walk (n + m) p cs (ts ++ us) q rest := by
  induction h with
  | done =>
      rw [Nat.zero_add]
      exact h'
  | step hstep _ ih =>
      rw [Nat.add_right_comm, List.append_assoc]
      exact .step hstep (ih h')

theorem Walk.single {p' : Place} {cs' : List Char} (h : p.advance cs = some (ts, p', cs')) :
    Walk 1 p cs ts p' cs' := by
  rw [← List.append_nil ts]
  exact .step h .done

/-- Whether the lexer is done at a place: it is within a line, and no bracket is open. -/
structure Place.IsEnd (p : Place) : Prop where
  fresh : p.fresh = false
  brackets : p.brackets = []

/-- **A WALK TO THE END** is what the lexer gives. -/
theorem lexFrom_of_walk (h : Walk n p cs ts q []) (hq : q.IsEnd) {fuel : Nat} (hfuel : n < fuel) :
    lexFrom fuel p cs = some (ts ++ [layoutToken .stop q.pos]) := by
  generalize hrest : [] = rest at h
  induction h generalizing fuel with
  | done =>
      subst hrest
      obtain ⟨fuel, rfl⟩ := Nat.exists_eq_succ_of_ne_zero (Nat.ne_of_gt hfuel)
      simp [lexFrom, hq.fresh, hq.brackets]
  | @step n p p' q cs cs' rest ts us hstep _ ih =>
      obtain ⟨fuel, rfl⟩ := Nat.exists_eq_succ_of_ne_zero (Nat.ne_of_gt (Nat.zero_lt_of_lt hfuel))
      have hlater := ih hq (Nat.lt_of_succ_lt_succ hfuel) hrest
      unfold Place.advance at hstep
      rw [lexFrom]
      cases hfresh : p.fresh with
      | true =>
          rw [hfresh] at hstep
          rw [if_pos rfl] at hstep ⊢
          rw [hstep, Option.bind_some]
          dsimp only
          rw [hlater, Option.map_some, List.append_assoc]
      | false =>
          rw [hfresh] at hstep
          rw [if_neg Bool.false_ne_true] at hstep ⊢
          cases cs with
          | nil => exact nomatch hstep
          | cons c cs =>
              rw [if_neg (by simp), hstep, Option.bind_some]
              dsimp only
              rw [hlater, Option.map_some, List.append_assoc]

/-- **WHAT THE LEXER GIVES** is what a walk to the end gives. -/
theorem walk_of_lexFrom {fuel : Nat} (h : lexFrom fuel p cs = some us) :
    ∃ n ts q, Walk n p cs ts q [] ∧ q.IsEnd ∧ n < fuel ∧
      us = ts ++ [layoutToken .stop q.pos] := by
  induction fuel generalizing p cs us with
  | zero => exact nomatch h
  | succ fuel ih =>
      -- a step and the rest of the way
      have hstep {ts : List Token} {p' : Place} {cs' : List Char}
          (hadvance : p.advance cs = some (ts, p', cs'))
          (hlater : (lexFrom fuel p' cs').map (ts ++ ·) = some us) :
          ∃ n ts q, Walk n p cs ts q [] ∧ q.IsEnd ∧ n < fuel + 1 ∧
            us = ts ++ [layoutToken .stop q.pos] := by
        obtain ⟨vs, hvs, rfl⟩ := Option.map_eq_some_iff.mp hlater
        obtain ⟨n, ws, q, hwalk, hq, hn, rfl⟩ := ih hvs
        exact ⟨n + 1, ts ++ ws, q, .step hadvance hwalk, hq, Nat.succ_lt_succ hn,
          (List.append_assoc ..).symm⟩
      rw [lexFrom] at h
      split_ifs at h with hfresh hempty hclosed
      · obtain ⟨⟨ts, p', cs'⟩, hadvance, hlater⟩ := Option.bind_eq_some_iff.mp h
        exact hstep (by rw [Place.advance, if_pos hfresh, hadvance]) hlater
      · obtain rfl := Option.some.inj h
        rw [List.isEmpty_iff] at hempty hclosed
        subst hempty
        exact ⟨0, [], p, .done, ⟨Bool.eq_false_iff.mpr hfresh, hclosed⟩, Nat.succ_pos _, rfl⟩
      · obtain ⟨⟨ts, p', cs'⟩, hadvance, hlater⟩ := Option.bind_eq_some_iff.mp h
        exact hstep (by rw [Place.advance, if_neg hfresh, hadvance]) hlater

/-! ## Within a line -/

/-- The kind and the text of a token. -/
abbrev Face := TokenKind × String

/-- The kinds and texts of tokens. -/
def faces (ts : List Token) : List Face := ts.map fun t => (t.kind, t.text)

theorem faces_append (ts us : List Token) : faces (ts ++ us) = faces ts ++ faces us :=
  List.map_append

/-- A place within a line that has a token already, between some brackets and in some blocks. -/
structure Place.Inside (p : Place) (brackets : List Char) (indents : List (Nat × Nat)) : Prop where
  fresh : p.fresh = false
  blank : p.blank = false
  brackets : p.brackets = brackets
  indents : p.indents = indents

/-- `Turns kind c b b'`: a token that starts with `c` leads from the brackets `b` to `b'`. -/
def Turns (kind : TokenKind) (c : Char) (b b' : List Char) : Prop :=
  ∀ p : Place, p.brackets = b → p.behind kind c = some { p with brackets := b' }

/-- `Passes cs rest fs b b'`: in front of `rest`, the lexer passes over `cs` with tokens of the
    faces `fs`, from the brackets `b` to `b'`, and each step takes a character. -/
structure Passes (cs rest : List Char) (fs : List Face) (b b' : List Char) : Prop where
  size : fs.length ≤ cs.length
  walk (p : Place) (indents : List (Nat × Nat)) : p.Inside b indents →
    ∃ n ts q, n ≤ cs.length ∧ Walk n p (cs ++ rest) ts q rest ∧ faces ts = fs ∧ q.Inside b' indents

variable {b b' b'' : List Char} {fs gs : List Face} {kind : TokenKind} {taken : List Char}
  {indents : List (Nat × Nat)}

theorem passes_nil : Passes [] rest [] b b where
  size := Nat.le_refl 0
  walk p _ hp := ⟨0, [], p, Nat.le_refl 0, .done, rfl, hp⟩

theorem Passes.append {ds : List Char} (h : Passes cs (ds ++ rest) fs b b')
    (h' : Passes ds rest gs b' b'') : Passes (cs ++ ds) rest (fs ++ gs) b b'' := by
  refine ⟨?_, fun p indents hp => ?_⟩
  · rw [List.length_append, List.length_append]
    exact Nat.add_le_add h.size h'.size
  obtain ⟨n, ts, q, hn, hwalk, hts, hq⟩ := h.walk p indents hp
  obtain ⟨m, us, q', hm, hwalk', hus, hq'⟩ := h'.walk q indents hq
  refine ⟨n + m, ts ++ us, q', ?_, ?_, ?_, hq'⟩
  · rw [List.length_append]
    exact Nat.add_le_add hn hm
  · rw [List.append_assoc]
    exact hwalk.trans hwalk'
  · rw [faces_append, hts, hus]

theorem step_blank (hc : c = ' ' ∨ c = '\t' ∨ c = '\x0c') :
    p.step (c :: rest) = some (p.skip c rest) :=
  if_pos hc

theorem passes_blank (hc : c = ' ' ∨ c = '\t' ∨ c = '\x0c') : Passes [c] rest [] b b := by
  refine ⟨Nat.zero_le 1, fun p indents hp => ?_⟩
  refine ⟨1, [], { p with pos := p.pos.advance c }, Nat.le_refl _, .single ?_, rfl,
    ⟨hp.fresh, hp.blank, hp.brackets, hp.indents⟩⟩
  rw [advance_of_not_fresh hp.fresh]
  exact step_blank hc

theorem passes_token (hc : StartsToken c) (hturns : Turns kind c b b')
    (hscan : scanToken (c :: cs ++ rest) = some (kind, c :: cs, rest)) :
    Passes (c :: cs) rest [(kind, String.ofList (c :: cs))] b b' := by
  refine ⟨Nat.succ_le_succ (Nat.zero_le _), fun p indents hp => ?_⟩
  let q : Place := { p with brackets := b' }
  refine ⟨1, (q.take kind (c :: cs, rest)).1, (q.take kind (c :: cs, rest)).2.1,
    Nat.succ_le_succ (Nat.zero_le _), .single ?_, rfl, ⟨hp.fresh, rfl, rfl, hp.indents⟩⟩
  rw [List.cons_append] at hscan
  rw [advance_of_not_fresh hp.fresh, List.cons_append, step_token hc, hscan, Option.bind_some,
    hturns p hp.brackets]
  rfl

/-! ## Brackets -/

theorem turns_of_ne (h : kind ≠ .op) : Turns kind c b b := by
  rintro p rfl
  exact if_neg h

theorem turns_plain (hopen : closerOf c = none) (hclose : ¬ (c = ')' ∨ c = ']' ∨ c = '\x7d')) :
    Turns .op c b b := by
  rintro p rfl
  show p.bracket c = some p
  rw [Place.bracket, hopen]
  exact if_neg hclose

theorem turns_open {closer : Char} (hopen : closerOf c = some closer)
    (hdepth : b.length < maxDepth) : Turns .op c b (closer :: b) := by
  rintro p rfl
  show p.bracket c = _
  rw [Place.bracket, hopen]
  exact if_pos hdepth

theorem turns_close (hclose : c = ')' ∨ c = ']' ∨ c = '\x7d') : Turns .op c (c :: b) b := by
  intro p hp
  show p.bracket c = _
  have hopen : closerOf c = none := by rcases hclose with rfl | rfl | rfl <;> rfl
  rw [Place.bracket, hopen]
  dsimp only
  rw [if_pos hclose, hp]
  exact if_pos rfl

/-- Every token turns the brackets of its place in one of these ways. -/
theorem turns_of_behind {p' : Place} (h : p.behind kind c = some p') :
    p' = { p with brackets := p'.brackets } ∧ Turns kind c p.brackets p'.brackets := by
  by_cases hkind : kind = .op
  · subst hkind
    have h : p.bracket c = some p' := h
    unfold Place.bracket at h
    cases hopen : closerOf c with
    | some closer =>
        rw [hopen] at h
        obtain ⟨hdepth, h⟩ := Option.ite_none_right_eq_some.mp h
        obtain rfl := Option.some.inj h
        exact ⟨rfl, turns_open hopen hdepth⟩
    | none =>
        rw [hopen] at h
        dsimp only at h
        split_ifs at h with hclose
        · cases hbrackets : p.brackets with
          | nil =>
              rw [hbrackets] at h
              exact nomatch h
          | cons due outer =>
              rw [hbrackets] at h
              dsimp only at h
              obtain ⟨rfl, hplace⟩ := Option.ite_none_right_eq_some.mp h
              obtain rfl := Option.some.inj hplace
              exact ⟨rfl, turns_close hclose⟩
        · obtain rfl := Option.some.inj h
          exact ⟨rfl, turns_plain hopen hclose⟩
  · obtain rfl := Option.some.inj ((if_neg hkind).symm.trans h)
    exact ⟨rfl, turns_of_ne hkind⟩

/-- With further brackets around it, a token does the same to the inner ones. -/
theorem Turns.within {outer : List Char} (h : Turns kind c b b')
    (h' : Turns kind c (b ++ outer) b'') : b'' = b' ++ outer := by
  let place (brackets : List Char) : Place := ⟨default, brackets, [], false, false⟩
  have hp : (place b).behind kind c = some (place b') := h (place b) rfl
  have hq : (place (b ++ outer)).behind kind c = some (place b'') := h' (place (b ++ outer)) rfl
  have hplace {b b' : List Char} (h : some (place b) = some (place b')) : b = b' :=
    congrArg Place.brackets (Option.some.inj h)
  by_cases hkind : kind = .op
  · subst hkind
    have hp : (place b).bracket c = some (place b') := hp
    have hq : (place (b ++ outer)).bracket c = some (place b'') := hq
    unfold Place.bracket at hp hq
    cases hopen : closerOf c with
    | some closer =>
        rw [hopen] at hp hq
        obtain ⟨-, hp⟩ := Option.ite_none_right_eq_some.mp hp
        obtain ⟨-, hq⟩ := Option.ite_none_right_eq_some.mp hq
        rw [← hplace (b := closer :: b) hp, ← hplace (b := closer :: (b ++ outer)) hq]
        rfl
    | none =>
        rw [hopen] at hp hq
        dsimp only at hp hq
        split_ifs at hp hq
        · cases b with
          | nil => exact nomatch hp
          | cons due inner =>
              obtain ⟨-, hp⟩ := Option.ite_none_right_eq_some.mp hp
              obtain ⟨-, hq⟩ := Option.ite_none_right_eq_some.mp hq
              rw [← hplace (b := inner) hp, ← hplace (b := inner ++ outer) hq]
        · rw [← hplace hp, ← hplace hq]
  · rw [Place.behind, if_neg hkind] at hp hq
    rw [← hplace hp, ← hplace hq]

/-! ## Names and operators -/

theorem mayStartName_of_isNameStart (h : isNameStart c = true) : mayStartName c = true := by
  unfold isNameStart at h
  unfold mayStartName
  rw [Bool.or_eq_true] at h ⊢
  exact h.imp_right fun h => (Bool.and_eq_true_iff.mp h).1

theorem mayContinueName_of_isNameContinue (h : isNameContinue c = true) :
    mayContinueName c = true := by
  unfold isNameContinue at h
  unfold mayContinueName
  rw [Bool.or_eq_true] at h ⊢
  exact h.imp_right fun h => (Bool.and_eq_true_iff.mp h).1

theorem startsToken_of_mayStartName (h : mayStartName c = true) : StartsToken c := by
  have hne (d : Char) (hd : mayStartName d = false) : c ≠ d := by
    rintro rfl
    rw [hd] at h
    exact nomatch h
  exact ⟨hne _ (by decide), hne _ (by decide), hne _ (by decide), hne _ (by decide),
    hne _ (by decide), hne _ (by decide)⟩

/-- What starts a name starts no number. -/
theorem isDigit_of_isNameStart (h : isNameStart c = true) : c.isDigit = false := by
  rw [Bool.eq_false_iff]
  intro hdigit
  have hcode : c.toNat ≤ 57 := of_decide_eq_true (Bool.and_eq_true_iff.mp hdigit).2
  rcases Bool.or_eq_true_iff.mp h with h | h
  · rcases Bool.or_eq_true_iff.mp h with h | h
    · rcases Bool.or_eq_true_iff.mp h with h | h
      · have hupper : 65 ≤ c.toNat ∧ c.toNat ≤ 90 := of_decide_eq_true h
        omega
      · have hlower : 97 ≤ c.toNat := of_decide_eq_true (Bool.and_eq_true_iff.mp h).1
        omega
    · obtain rfl : c = '_' := of_decide_eq_true h
      exact absurd hdigit (by decide)
  · have hwide : 128 ≤ c.toNat := of_decide_eq_true (Bool.and_eq_true_iff.mp h).1
    omega

/-- A text in front of which a name ends. -/
def EndsName (rest : List Char) : Prop :=
  ∀ c ∈ rest.head?, mayContinueName c = false ∧ c ≠ '\'' ∧ c ≠ '"'

theorem endsName_cons (hc : mayContinueName c = false ∧ c ≠ '\'' ∧ c ≠ '"') :
    EndsName (c :: rest) := by
  intro d hd
  obtain rfl := Option.some.inj hd
  exact hc

theorem mayContinueName_of_isIdentifier (h : isIdentifier cs = true) :
    ∀ c ∈ cs, mayContinueName c = true := by
  cases cs with
  | nil => exact nofun
  | cons c cs =>
      obtain ⟨hstart, hrest⟩ := Bool.and_eq_true_iff.mp h
      rw [List.forall_mem_cons]
      exact ⟨mayContinueName_of_mayStartName (mayStartName_of_isNameStart hstart),
        fun d hd => mayContinueName_of_isNameContinue (List.all_eq_true.mp hrest d hd)⟩

theorem scanMarks_name (hcs : ∀ c ∈ cs, mayContinueName c = true) (hrest : EndsName rest)
    {m : Marks} : scanMarks m (cs ++ rest) = none := by
  induction cs generalizing m with
  | nil =>
      cases rest with
      | nil => rfl
      | cons e rest =>
          obtain ⟨hname, hquote⟩ := hrest e rfl
          simp only [List.nil_append, scanMarks, if_neg (not_or.mpr hquote),
            add_of_not_mayContinueName hname]
          rfl
  | cons c cs ih =>
      rw [List.forall_mem_cons] at hcs
      have hquote : ¬ (c = '\'' ∨ c = '"') := by
        rintro (rfl | rfl)
        · exact absurd hcs.1 (by decide)
        · exact absurd hcs.1 (by decide)
      rw [List.cons_append, scanMarks, if_neg hquote]
      cases m.add c with
      | none => rfl
      | some m' => rw [Option.bind_some, ih hcs.2, Option.map_none]

theorem takeWhile_name (hcs : ∀ c ∈ cs, mayContinueName c = true) (hrest : EndsName rest) :
    (cs ++ rest).takeWhile mayContinueName = cs ∧
      (cs ++ rest).dropWhile mayContinueName = rest := by
  rw [List.takeWhile_append_of_pos hcs, List.dropWhile_append_of_pos hcs]
  cases rest with
  | nil => exact ⟨List.append_nil cs, rfl⟩
  | cons e rest =>
      have he : mayContinueName e = false := (hrest e rfl).1
      simp [he]

/-- **NAMES** are passed over as they are. -/
theorem passes_name (hcs : isIdentifier cs = true) (hrest : EndsName rest) :
    Passes cs rest [(.name, String.ofList cs)] b b := by
  have hall := mayContinueName_of_isIdentifier hcs
  cases cs with
  | nil => exact nomatch hcs
  | cons c cs =>
      have hstart : mayStartName c = true :=
        mayStartName_of_isNameStart (Bool.and_eq_true_iff.mp hcs).1
      refine passes_token (startsToken_of_mayStartName hstart) (turns_of_ne (by decide)) ?_
      obtain ⟨htake, hdrop⟩ := takeWhile_name hall hrest
      show (if mayStartName c = true then scanWord (c :: cs ++ rest) else _) = _
      rw [if_pos hstart, scanWord, scanMarks_name hall hrest]
      dsimp only
      rw [htake, hdrop, if_pos hcs]

theorem scanOperator_star (hc : c ≠ '*' ∧ c ≠ '=') :
    scanOperator ('*' :: c :: rest) = some "*" := by
  simp [scanOperator, operators, List.isPrefixOf, hc.1.symm, hc.2.symm]

theorem scanOperator_stars (hc : c ≠ '=') :
    scanOperator ('*' :: '*' :: c :: rest) = some "**" := by
  simp [scanOperator, operators, List.isPrefixOf, hc.symm]

theorem scanOperator_equals (hc : c ≠ '=') : scanOperator ('=' :: c :: rest) = some "=" := by
  simp [scanOperator, operators, List.isPrefixOf, hc.symm]

theorem scanOperator_colon (hc : c ≠ '=') : scanOperator (':' :: c :: rest) = some ":" := by
  simp [scanOperator, operators, List.isPrefixOf, hc.symm]

/-- A star is passed over in front of what does not continue it. -/
theorem passes_star (hc : c ≠ '*' ∧ c ≠ '=') :
    Passes ['*'] (c :: rest) [(.op, "*")] b b := by
  refine passes_token (by decide) (turns_plain rfl (by decide)) ?_
  show (scanOperator ('*' :: c :: rest)).map _ = _
  rw [scanOperator_star hc]
  rfl

theorem passes_stars (hc : c ≠ '=') : Passes ['*', '*'] (c :: rest) [(.op, "**")] b b := by
  refine passes_token (by decide) (turns_plain rfl (by decide)) ?_
  show (scanOperator ('*' :: '*' :: c :: rest)).map _ = _
  rw [scanOperator_stars hc]
  rfl

theorem passes_equals (hc : c ≠ '=') : Passes ['='] (c :: rest) [(.op, "=")] b b := by
  refine passes_token (by decide) (turns_plain rfl (by decide)) ?_
  show (scanOperator ('=' :: c :: rest)).map _ = _
  rw [scanOperator_equals hc]
  rfl

theorem passes_colon (hc : c ≠ '=') : Passes [':'] (c :: rest) [(.op, ":")] b b := by
  refine passes_token (by decide) (turns_plain rfl (by decide)) ?_
  show (scanOperator (':' :: c :: rest)).map _ = _
  rw [scanOperator_colon hc]
  rfl

theorem scanOperator_dot (hc : c ≠ '.') : scanOperator ('.' :: c :: rest) = some "." := by
  simp [scanOperator, operators, List.isPrefixOf, hc.symm]

theorem scanOperator_slash (hc : c ≠ '/' ∧ c ≠ '=') :
    scanOperator ('/' :: c :: rest) = some "/" := by
  simp [scanOperator, operators, List.isPrefixOf, hc.1.symm, hc.2.symm]

theorem passes_slash (hc : c ≠ '/' ∧ c ≠ '=') : Passes ['/'] (c :: rest) [(.op, "/")] b b := by
  refine passes_token (by decide) (turns_plain rfl (by decide)) ?_
  show (scanOperator ('/' :: c :: rest)).map _ = _
  rw [scanOperator_slash hc]
  rfl

theorem scanOperator_at (hc : c ≠ '=') : scanOperator ('@' :: c :: rest) = some "@" := by
  simp [scanOperator, operators, List.isPrefixOf, hc.symm]

theorem passes_at (hc : c ≠ '=') : Passes ['@'] (c :: rest) [(.op, "@")] b b := by
  refine passes_token (by decide) (turns_plain rfl (by decide)) ?_
  show (scanOperator ('@' :: c :: rest)).map _ = _
  rw [scanOperator_at hc]
  rfl

theorem passes_arrow : Passes ['-', '>'] rest [(.op, "->")] b b := by
  refine passes_token (by decide) (turns_plain rfl (by decide)) ?_
  have hstart : mayStartName '-' = false := by decide
  have hscan : scanOperator ('-' :: '>' :: rest) = some "->" := by
    simp [scanOperator, operators, List.isPrefixOf]
  rw [List.cons_append, List.singleton_append, scanToken, hstart, hscan]
  rfl

/-- The sign in front of the name of a field. -/
theorem passes_dot (hc : c ≠ '.') (hdigit : c.isDigit = false) :
    Passes ['.'] (c :: rest) [(.op, ".")] b b := by
  refine passes_token (by decide) (turns_plain rfl (by decide)) ?_
  have hnumber : ¬ (Char.isDigit '.' = true ∨ '.' = '.' ∧ some c.isDigit = some true) := by
    rw [hdigit]
    decide
  show (if (Char.isDigit '.' = true ∨ '.' = '.' ∧ some c.isDigit = some true) then _
    else (scanOperator ('.' :: c :: rest)).map _ : Option (TokenKind × Cut)) = _
  rw [if_neg hnumber, scanOperator_dot hc]
  rfl

theorem passes_comma : Passes [','] rest [(.op, ",")] b b :=
  passes_token (by decide) (turns_plain rfl (by decide)) rfl

theorem passes_open (hdepth : b.length < maxDepth) : Passes ['('] rest [(.op, "(")] b (')' :: b) :=
  passes_token (by decide) (turns_open rfl hdepth) rfl

theorem passes_close : Passes [')'] rest [(.op, ")")] (')' :: b) b :=
  passes_token (by decide) (turns_close (.inl rfl)) rfl

end Covenant.Token
