import Covenant.Proofs.Token.Numbers
import Mathlib.Data.List.Find
import Mathlib.Data.List.TakeWhile

/-! # Scanning — where words, operators and strings end

    * In front of a tail, words and operators end where they would at the end of the text
      (`scanMarks_tail`, `takeWhile_tail`, `scanOperator_tail`).
    * A string literal that is closed is what it is in front of a tail (`scanString_tail`), and
      the end of a line closes none (`scanString_newline`). -/

namespace Covenant.Token

open Text Covenant.Tree

variable {cs rest tail : List Char} {t u : Cut}

/-! ## Words -/

theorem takeWhile_tail (h : Tail tail) :
    (cs ++ tail).takeWhile mayContinueName = cs.takeWhile mayContinueName ∧
      (cs ++ tail).dropWhile mayContinueName = cs.dropWhile mayContinueName ++ tail := by
  obtain ⟨e, rest, rfl, he⟩ := h
  induction cs with
  | nil => simp [he.name]
  | cons c cs ih =>
      rw [List.cons_append, List.takeWhile_cons, List.takeWhile_cons, List.dropWhile_cons,
        List.dropWhile_cons]
      split_ifs
      · exact ⟨congrArg _ ih.1, ih.2⟩
      · exact ⟨rfl, rfl⟩

theorem toLower_of_not_mayContinueName {c : Char} (h : mayContinueName c = false) :
    c.toLower = c := by
  have hletter : (c.isUpper || c.isLower) = false := by
    unfold mayContinueName isAsciiNameStart at h
    simp only [Bool.or_eq_false_iff] at h
    exact h.1.1.1
  unfold Char.toLower
  rw [dif_neg (of_decide_eq_false (Bool.or_eq_false_iff.mp hletter).1)]

/-- What continues no name is no mark of a string literal. -/
theorem add_of_not_mayContinueName {c : Char} (h : mayContinueName c = false) (m : Marks) :
    m.add c = none := by
  have hmark (d : Char) (hd : mayContinueName d = true) : c ≠ d := by
    rintro rfl
    rw [h] at hd
    exact nomatch hd
  unfold Marks.add
  rw [toLower_of_not_mayContinueName h]
  simp only [hmark _ (show mayContinueName 'b' = true by decide),
    hmark _ (show mayContinueName 'u' = true by decide),
    hmark _ (show mayContinueName 'r' = true by decide),
    hmark _ (show mayContinueName 'f' = true by decide), false_and, if_false]

theorem scanMarks_tail (h : Tail tail) {m : Marks} :
    scanMarks m (cs ++ tail) = (scanMarks m cs).map (Cut.before tail) := by
  induction cs generalizing m with
  | nil =>
      obtain ⟨e, rest, rfl, he⟩ := h
      simp only [List.nil_append, scanMarks, if_neg (not_or.mpr he.quote),
        add_of_not_mayContinueName he.name]
      rfl
  | cons c cs ih =>
      rw [List.cons_append, scanMarks, scanMarks]
      split_ifs
      · rfl
      · cases m.add c with
        | none => rfl
        | some m' =>
            rw [Option.bind_some, Option.bind_some, ih, Option.map_map, Option.map_map]
            rfl

/-! ## Operators -/

/-- Whether an operator stands at the start of a text is not a matter of a tail. -/
theorem isPrefixOf_operator (h : Tail tail) {o : String} (ho : o ∈ operators) (hcs : cs ≠ []) :
    o.toList.isPrefixOf (cs ++ tail) = o.toList.isPrefixOf cs := by
  obtain ⟨e, rest, rfl, he⟩ := h
  have hfree : e ∉ o.toList.drop 1 := he.operator o ho
  -- what is left of the operator behind its first character lacks the character of the tail
  have hrest (w : List Char) (hw : e ∉ w) (cs : List Char) :
      w.isPrefixOf (cs ++ e :: rest) = w.isPrefixOf cs := by
    induction w generalizing cs with
    | nil => rfl
    | cons c w ih =>
        rw [List.mem_cons, not_or] at hw
        cases cs with
        | nil =>
            rw [List.nil_append, List.isPrefixOf_cons_cons, beq_eq_false_iff_ne.mpr (Ne.symm hw.1)]
            rfl
        | cons d cs =>
            rw [List.cons_append, List.isPrefixOf_cons_cons, List.isPrefixOf_cons_cons, ih hw.2]
  cases hlist : o.toList with
  | nil => rfl
  | cons c w =>
      rw [hlist] at hfree
      cases cs with
      | nil => exact absurd rfl hcs
      | cons d cs =>
          rw [List.cons_append, List.isPrefixOf_cons_cons, List.isPrefixOf_cons_cons, hrest w hfree]

theorem scanOperator_tail (h : Tail tail) (hcs : cs ≠ []) :
    scanOperator (cs ++ tail) = scanOperator cs :=
  List.find?_congr fun _ ho => isPrefixOf_operator h ho hcs

/-! ## Strings -/

-- its equations are made here, once for the proofs below, which would else wait for one another
attribute [local simp] scanQuoted

theorem scanQuoted_cons {quote c : Char} {triple : Bool} (hc : c ≠ '\\') :
    scanQuoted quote triple (c :: rest) =
      if c = quote then
        if triple then
          match rest with
          | d :: e :: more =>
            if d = quote ∧ e = quote then some ([c, d, e], more)
            else (scanQuoted quote triple rest).map (Cut.push c)
          | _ => none
        else some ([c], rest)
      else if c = '\n' ∧ triple = false then none
      else (scanQuoted quote triple rest).map (Cut.push c) := by
  rw [scanQuoted.eq_def]
  split
  · rename_i heq
    exact nomatch heq
  · rename_i heq
    exact absurd (List.cons.inj heq).1 hc
  · rename_i heq
    obtain ⟨rfl, rfl⟩ := List.cons.inj heq
    rfl

/-- Induction along the inside of a string literal, where an escaped character is passed over. -/
theorem escaped_induction {motive : List Char → Prop} (nil : motive []) (lone : motive ['\\'])
    (escape : ∀ c rest, motive rest → motive ('\\' :: c :: rest))
    (cons : ∀ c rest, c ≠ '\\' → motive rest → motive (c :: rest)) : (cs : List Char) → motive cs
  | [] => nil
  | ['\\'] => lone
  | '\\' :: c :: rest => escape c rest (escaped_induction nil lone escape cons rest)
  | c :: rest => by
      by_cases hc : c = '\\'
      · subst hc
        cases rest with
        | nil => exact lone
        | cons d rest => exact escape d rest (escaped_induction nil lone escape cons rest)
      · exact cons c rest hc (escaped_induction nil lone escape cons rest)

variable {quote : Char} {triple : Bool}

theorem scanQuoted_lone (hquote : quote ≠ '\\') : scanQuoted quote triple ['\\'] = none := by
  simp [scanQuoted, hquote.symm]

/-- What is closed is closed in front of any text. -/
theorem scanQuoted_append (hquote : quote ≠ '\\') (h : scanQuoted quote triple cs = some t) :
    scanQuoted quote triple (cs ++ tail) = some (t.before tail) := by
  induction cs using escaped_induction generalizing t with
  | nil => exact nomatch h
  | lone =>
      rw [scanQuoted_lone hquote] at h
      exact nomatch h
  | escape c rest ih =>
      obtain ⟨u, hu, rfl⟩ := Option.map_eq_some_iff.mp h
      show (scanQuoted quote triple (rest ++ tail)).map _ = _
      rw [ih hu]
      rfl
  | cons c rest hc ih =>
      have hpush (t : Cut) (h : (scanQuoted quote triple rest).map (Cut.push c) = some t) :
          (scanQuoted quote triple (rest ++ tail)).map (Cut.push c) = some (t.before tail) := by
        obtain ⟨u, hu, rfl⟩ := Option.map_eq_some_iff.mp h
        rw [ih hu]
        rfl
      rw [scanQuoted_cons hc] at h
      rw [List.cons_append, scanQuoted_cons hc]
      by_cases hquoted : c = quote
      · rw [if_pos hquoted] at h ⊢
        cases triple with
        | false =>
            obtain rfl := Option.some.inj h
            rfl
        | true =>
            match rest, h, hpush with
            | d :: e :: more, h, hpush =>
                simp only [if_true, List.cons_append] at h hpush ⊢
                split_ifs at h ⊢
                · obtain rfl := Option.some.inj h
                  rfl
                · exact hpush _ h
      · rw [if_neg hquoted] at h ⊢
        split_ifs at h ⊢
        exact hpush _ h

/-- Three quotes are needed to close what three quotes have opened. -/
theorem scanQuoted_short (hquote : quote ≠ '\\') (hlength : cs.length < 3) :
    scanQuoted quote true cs = none := by
  have hone (c : Char) : scanQuoted quote true [c] = none := by
    by_cases hc : c = '\\'
    · rw [hc, scanQuoted_lone hquote]
    · simp [scanQuoted_cons hc, scanQuoted]
  match cs, hlength with
  | [], _ => rfl
  | [c], _ => exact hone c
  | [c, d], _ =>
      by_cases hc : c = '\\'
      · rw [hc]
        rfl
      · simp [scanQuoted_cons hc, hone d]

/-- The end of a line closes nothing. -/
theorem scanQuoted_newline (hquote : quote ≠ '\\') (hline : quote ≠ '\n')
    (h : scanQuoted quote triple (cs ++ ['\n']) = some t) :
    ∃ u, scanQuoted quote triple cs = some u ∧ t = u.before ['\n'] := by
  induction cs using escaped_induction generalizing t with
  | nil =>
      rw [List.nil_append, scanQuoted_cons (by decide), if_neg hline.symm] at h
      split_ifs at h
      exact nomatch h
  | lone => exact nomatch h
  | escape c rest ih =>
      obtain ⟨v, hv, rfl⟩ := Option.map_eq_some_iff.mp h
      obtain ⟨u, hu, rfl⟩ := ih hv
      exact ⟨u.pushAll ['\\', c], Option.map_eq_some_iff.mpr ⟨u, hu, rfl⟩, rfl⟩
  | cons c rest hc ih =>
      have hpush (t : Cut)
          (h : (scanQuoted quote triple (rest ++ ['\n'])).map (Cut.push c) = some t) :
          ∃ u, (scanQuoted quote triple rest).map (Cut.push c) = some u ∧
            t = u.before ['\n'] := by
        obtain ⟨v, hv, rfl⟩ := Option.map_eq_some_iff.mp h
        obtain ⟨u, hu, rfl⟩ := ih hv
        exact ⟨u.push c, Option.map_eq_some_iff.mpr ⟨u, hu, rfl⟩, rfl⟩
      rw [List.cons_append, scanQuoted_cons hc] at h
      rw [scanQuoted_cons hc]
      by_cases hquoted : c = quote
      · rw [if_pos hquoted] at h ⊢
        cases triple with
        | false =>
            obtain rfl := Option.some.inj h
            exact ⟨_, rfl, rfl⟩
        | true =>
            match rest, h, hpush with
            | [d], h, hpush =>
                simp only [if_true, List.cons_append, List.nil_append] at h hpush
                rw [if_neg fun heq => hline heq.2.symm] at h
                obtain ⟨u, hu, -⟩ := hpush _ h
                rw [scanQuoted_short hquote (by simp)] at hu
                exact nomatch hu
            | d :: e :: more, h, hpush =>
                simp only [if_true, List.cons_append] at h hpush ⊢
                split_ifs at h ⊢
                · obtain rfl := Option.some.inj h
                  exact ⟨_, rfl, rfl⟩
                · exact hpush _ h
      · rw [if_neg hquoted] at h ⊢
        split_ifs at h ⊢
        exact hpush _ h

theorem scanString_cons {q r s : Char} : scanString (q :: r :: s :: rest) =
    if r = q ∧ s = q then (scanQuoted q true rest).map (Cut.pushAll [q, r, s])
    else if r = q then some ([q, r], s :: rest)
    else (scanQuoted q false (r :: s :: rest)).map (Cut.push q) := rfl

/-- **STRINGS** that are closed are what they are in front of a tail. -/
theorem scanString_tail (h : Tail tail) (hquote : quote = '\'' ∨ quote = '"')
    (hscan : scanString (quote :: cs) = some t) :
    scanString (quote :: cs ++ tail) = some (t.before tail) := by
  have hescape : quote ≠ '\\' := by rcases hquote with rfl | rfl <;> decide
  match cs, hscan with
  | [r], hscan =>
      obtain ⟨e, rest, rfl, he⟩ := h
      have hne : e ≠ quote := by
        rcases hquote with rfl | rfl
        · exact he.quote.1
        · exact he.quote.2
      obtain ⟨rfl, hscan⟩ := Option.ite_none_right_eq_some.mp hscan
      obtain rfl := Option.some.inj hscan
      show scanString (r :: r :: e :: rest) = _
      rw [scanString_cons, if_neg fun heq => hne heq.2, if_pos rfl]
      rfl
  | r :: s :: rest, hscan =>
      show scanString (quote :: r :: s :: (rest ++ tail)) = _
      rw [scanString_cons] at hscan ⊢
      split_ifs at hscan ⊢
      · obtain ⟨u, hu, rfl⟩ := Option.map_eq_some_iff.mp hscan
        rw [scanQuoted_append hescape hu]
        rfl
      · obtain rfl := Option.some.inj hscan
        rfl
      · obtain ⟨u, hu, rfl⟩ := Option.map_eq_some_iff.mp hscan
        have happend : scanQuoted quote false (r :: s :: rest ++ tail) = _ :=
          scanQuoted_append hescape hu
        rw [show r :: s :: (rest ++ tail) = r :: s :: rest ++ tail from rfl, happend]
        rfl

/-- **THE END OF A LINE** closes no string literal. -/
theorem scanString_newline (hquote : quote = '\'' ∨ quote = '"')
    (h : scanString (quote :: cs ++ ['\n']) = some t) :
    ∃ u, scanString (quote :: cs) = some u ∧ t = u.before ['\n'] := by
  have hescape : quote ≠ '\\' := by rcases hquote with rfl | rfl <;> decide
  have hline : quote ≠ '\n' := by rcases hquote with rfl | rfl <;> decide
  match cs, h with
  | [], h =>
      obtain ⟨heq, -⟩ := Option.ite_none_right_eq_some.mp h
      exact absurd heq.symm hline
  | [r], h =>
      by_cases hr : r = quote
      · subst hr
        rw [List.cons_append, List.cons_append, List.nil_append, scanString_cons,
          if_neg fun heq => hline heq.2.symm, if_pos rfl] at h
        obtain rfl := Option.some.inj h
        exact ⟨([r, r], []), if_pos rfl, rfl⟩
      · rw [List.cons_append, List.cons_append, List.nil_append, scanString_cons,
          if_neg fun heq => hr heq.1, if_neg hr] at h
        obtain ⟨v, hv, -⟩ := Option.map_eq_some_iff.mp h
        obtain ⟨u, hu, -⟩ := scanQuoted_newline hescape hline
          (show scanQuoted quote false ([r] ++ ['\n']) = some v from hv)
        by_cases hlone : r = '\\'
        · rw [hlone, scanQuoted_lone hescape] at hu
          exact nomatch hu
        · simp [scanQuoted_cons hlone, hr, scanQuoted] at hu
  | r :: s :: rest, h =>
      rw [show quote :: r :: s :: rest ++ ['\n'] = quote :: r :: s :: (rest ++ ['\n']) from rfl,
        scanString_cons] at h
      rw [scanString_cons]
      split_ifs at h ⊢
      · obtain ⟨v, hv, rfl⟩ := Option.map_eq_some_iff.mp h
        obtain ⟨u, hu, rfl⟩ := scanQuoted_newline hescape hline hv
        exact ⟨_, Option.map_eq_some_iff.mpr ⟨u, hu, rfl⟩, rfl⟩
      · obtain rfl := Option.some.inj h
        exact ⟨_, rfl, rfl⟩
      · obtain ⟨v, hv, rfl⟩ := Option.map_eq_some_iff.mp h
        obtain ⟨u, hu, rfl⟩ := scanQuoted_newline hescape hline
          (show scanQuoted quote false (r :: s :: rest ++ ['\n']) = some v from hv)
        exact ⟨_, Option.map_eq_some_iff.mpr ⟨u, hu, rfl⟩, rfl⟩

theorem extends_scanMarks {m : Marks} (h : scanMarks m cs = some t) : Extends ([], cs) t := by
  induction cs generalizing m t with
  | nil => exact nomatch h
  | cons c cs ih =>
      rw [scanMarks] at h
      split_ifs at h
      · exact Option.some.inj h ▸ .refl _
      · obtain ⟨m', -, h⟩ := Option.bind_eq_some_iff.mp h
        obtain ⟨u, hu, rfl⟩ := Option.map_eq_some_iff.mp h
        exact extends_push (ih hu)

theorem extends_scanQuoted (hquote : quote ≠ '\\') (h : scanQuoted quote triple cs = some t) :
    Extends ([], cs) t := by
  induction cs using escaped_induction generalizing t with
  | nil => exact nomatch h
  | lone =>
      rw [scanQuoted_lone hquote] at h
      exact nomatch h
  | escape c rest ih =>
      obtain ⟨u, hu, rfl⟩ := Option.map_eq_some_iff.mp h
      exact extends_pushAll ['\\', c] (ih hu)
  | cons c rest hc ih =>
      have hpush (t : Cut) (h : (scanQuoted quote triple rest).map (Cut.push c) = some t) :
          Extends ([], c :: rest) t := by
        obtain ⟨u, hu, rfl⟩ := Option.map_eq_some_iff.mp h
        exact extends_push (ih hu)
      rw [scanQuoted_cons hc] at h
      split_ifs at h
      · split at h
        · split_ifs at h
          · exact Option.some.inj h ▸ ⟨[_, _, _], rfl, rfl⟩
          · exact hpush t h
        · cases h
      · exact Option.some.inj h ▸ ⟨[c], rfl, rfl⟩
      · exact hpush t h

/-- A string literal is cut off with its quote. -/
theorem extends_scanString (hquote : quote ≠ '\\') (h : scanString (quote :: cs) = some t) :
    Extends ([quote], cs) t := by
  match cs, h with
  | [r], h =>
      obtain ⟨-, h⟩ := Option.ite_none_right_eq_some.mp h
      exact Option.some.inj h ▸ ⟨[r], rfl, rfl⟩
  | r :: s :: rest, h =>
      rw [scanString_cons] at h
      split_ifs at h
      · obtain ⟨u, hu, rfl⟩ := Option.map_eq_some_iff.mp h
        exact .trans ⟨[r, s], rfl, rfl⟩ ((extends_scanQuoted hquote hu).after [quote, r, s])
      · exact Option.some.inj h ▸ ⟨[r], rfl, rfl⟩
      · obtain ⟨u, hu, rfl⟩ := Option.map_eq_some_iff.mp h
        exact (extends_scanQuoted hquote hu).after [quote]

end Covenant.Token
