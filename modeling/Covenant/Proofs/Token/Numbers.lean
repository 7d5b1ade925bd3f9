import Covenant.Token.Lexer
import Mathlib.Data.List.TakeWhile

/-! # Numbers — where number literals end

    A scanner cuts a text in two.  What it takes does not depend on all that
    follows: behind a character that continues no token the text may go on in
    any way.

    * `Tail` is a text behind a token, and `NumberTail` one behind a number; in front of it
      numbers end where they would at the end of the text (`scanNumber_tail`).
    * What a scanner takes it takes from the front of the text, the first character of a number
      included (`Extends`, `extends_scanNumber`). -/

namespace Covenant.Token

open Text Covenant.Tree

variable {cs rest tail : List Char} {t u : Cut} {base : Nat} {afterDigit : Bool}

/-! ## Tails -/

/-- A character that continues no token that stands in front of it. -/
structure Ends (c : Char) : Prop where
  name : mayContinueName c = false
  quote : c ≠ '\'' ∧ c ≠ '"'
  point : c ≠ '.'
  sign : c ≠ '+' ∧ c ≠ '-'
  operator : ∀ o ∈ operators, c ∉ o.toList.drop 1

/-- A text that starts with a character that continues no token. -/
def Tail (tail : List Char) : Prop := ∃ c rest, tail = c :: rest ∧ Ends c

/-- A character that continues no number that stands in front of it. -/
structure EndsNumber (c : Char) : Prop where
  name : mayContinueName c = false
  point : c ≠ '.'
  sign : c ≠ '+' ∧ c ≠ '-'

/-- A text that starts with a character that continues no number. -/
def NumberTail (tail : List Char) : Prop := ∃ c rest, tail = c :: rest ∧ EndsNumber c

theorem Ends.number {c : Char} (h : Ends c) : EndsNumber c := ⟨h.name, h.point, h.sign⟩

theorem Tail.number (h : Tail tail) : NumberTail tail := by
  obtain ⟨c, rest, rfl, hc⟩ := h
  exact ⟨c, rest, rfl, hc.number⟩

/-- What a cut is if more text stands behind it. -/
def Cut.before (tail : List Char) (t : Cut) : Cut := (t.1, t.2 ++ tail)

theorem ends_newline : Ends '\n' := ⟨by decide, by decide, by decide, by decide, by decide⟩

theorem ends_round : Ends ')' := ⟨by decide, by decide, by decide, by decide, by decide⟩

theorem ends_comma : Ends ',' := ⟨by decide, by decide, by decide, by decide, by decide⟩

/-! ## Numbers -/

theorem mayContinueName_of_isDigitOf {c : Char} (h : isDigitOf base c = true) :
    mayContinueName c = true := by
  have hcase : c.isDigit = true ∨ c.isAlpha = true := by
    unfold isDigitOf at h
    split at h
    · simp only [Bool.or_eq_true, Bool.and_eq_true, decide_eq_true_eq] at h
      rcases h with (h | ⟨hl, hu⟩) | ⟨hl, hu⟩
      · exact .inl h
      · have hlower : c.isLower = true :=
          Bool.and_eq_true_iff.mpr ⟨decide_eq_true hl, decide_eq_true (Nat.le_trans hu (by decide))⟩
        exact .inr (Bool.or_eq_true_iff.mpr (.inr hlower))
      · have hupper : c.isUpper = true := decide_eq_true ⟨hl, Nat.le_trans hu (by decide)⟩
        exact .inr (Bool.or_eq_true_iff.mpr (.inl hupper))
    · exact .inl (Bool.and_eq_true_iff.mp h).1
  unfold mayContinueName isAsciiNameStart
  rcases hcase with h | h <;> rw [h] <;> simp

theorem EndsNumber.not_isDigitOf {c : Char} (h : EndsNumber c) : isDigitOf base c = false := by
  by_contra hdigit
  have hname := mayContinueName_of_isDigitOf (Bool.not_eq_false _ ▸ hdigit)
  rw [h.name] at hname
  exact nomatch hname

theorem EndsNumber.not_isDigit {c : Char} (h : EndsNumber c) : c.isDigit = false := by
  by_contra hdigit
  have hname := h.name
  unfold mayContinueName at hname
  rw [show c.isDigit = true from Bool.not_eq_false _ ▸ hdigit] at hname
  simp at hname

theorem digitRun_tail (h : NumberTail tail) : digitRun base afterDigit (cs ++ tail)
    = (digitRun base afterDigit cs).map (Cut.before tail) := by
  obtain ⟨e, rest, rfl, he⟩ := h
  have hdigit : isDigitOf base e = false := he.not_isDigitOf
  induction cs generalizing afterDigit with
  | nil =>
      have hunderscore : e ≠ '_' := fun heq => by
        have hname := he.name
        rw [heq] at hname
        exact absurd hname (by decide)
      simp [digitRun, hdigit, hunderscore, Cut.before]
  | cons c cs ih =>
      rw [List.cons_append]
      unfold digitRun
      split_ifs with hc hunderscore
      · rw [ih, Option.map_map, Option.map_map]
        rfl
      · cases cs with
        | nil => simp [hdigit]
        | cons d cs =>
            simp only [List.cons_append]
            split_ifs
            · rw [← List.cons_append, ih, Option.map_map, Option.map_map]
              rfl
            · rfl
      · rfl

theorem EndsNumber.ne {c d : Char} (h : EndsNumber c) (hd : mayContinueName d = true) : c ≠ d := by
  rintro rfl
  rw [h.name] at hd
  exact nomatch hd

/-- Whether a word stands at the start of a text is not a matter of a tail. -/
theorem isPrefixOf_tail (h : NumberTail tail) {w : List Char} (hw : ∀ c ∈ w, mayContinueName c = true) :
    w.isPrefixOf (cs ++ tail) = w.isPrefixOf cs := by
  obtain ⟨e, rest, rfl, he⟩ := h
  induction w generalizing cs with
  | nil => rfl
  | cons c w ih =>
      rw [List.forall_mem_cons] at hw
      cases cs with
      | nil =>
          rw [List.nil_append, List.isPrefixOf_cons_cons, beq_eq_false_iff_ne.mpr (he.ne hw.1).symm]
          rfl
      | cons d cs =>
          rw [List.cons_append, List.isPrefixOf_cons_cons, List.isPrefixOf_cons_cons, ih hw.2]

theorem startsFollower_tail (h : NumberTail tail) : startsFollower (cs ++ tail) = startsFollower cs := by
  have hwords : (["and", "else", "for", "if", "in", "is", "or", "not"].all fun w =>
      w.toList.all mayContinueName) = true := by decide
  unfold startsFollower
  rw [Bool.eq_iff_iff, List.any_eq_true, List.any_eq_true]
  exact exists_congr fun w => and_congr_right fun hw => by
    rw [isPrefixOf_tail h (List.all_eq_true.mp (List.all_eq_true.mp hwords w hw))]

variable {taken : List Char}

theorem endsHere_tail (h : NumberTail tail) :
    endsHere (taken, cs ++ tail) = (endsHere (taken, cs)).map (Cut.before tail) := by
  cases cs with
  | nil =>
      obtain ⟨e, rest, rfl, he⟩ := h
      simp [endsHere, Cut.before, he.name]
  | cons c cs =>
      have hfollower : startsFollower (c :: (cs ++ tail)) = startsFollower (c :: cs) := by
        rw [← List.cons_append]
        exact startsFollower_tail h
      simp only [endsHere, List.cons_append]
      rw [hfollower]
      split_ifs <;> rfl

theorem imaginaryTail_tail (h : NumberTail tail) :
    imaginaryTail (taken, cs ++ tail) = (imaginaryTail (taken, cs)).map (Cut.before tail) := by
  have hhere : endsHere (taken, cs ++ tail) = _ := endsHere_tail h
  cases cs with
  | nil =>
      obtain ⟨e, rest, rfl, he⟩ := h
      have hj : ¬ (e = 'j' ∨ e = 'J') := by
        rintro (heq | heq)
        · exact he.ne (by decide) heq
        · exact he.ne (by decide) heq
      simp only [imaginaryTail, List.nil_append, if_neg hj]
      exact hhere
  | cons c cs =>
      simp only [imaginaryTail, List.cons_append]
      split_ifs
      · rw [endsHere_tail h, Option.map_map, Option.map_map]
        rfl
      · exact hhere

/-- A scanner that goes on after another one, in front of a tail. -/
theorem bind_tail {f : Cut → Option Cut} (k : List Char → List Char) (o : Option Cut)
    (hf : ∀ taken cs, f (taken, cs ++ tail) = (f (taken, cs)).map (Cut.before tail)) :
    (o.map (Cut.before tail)).bind (fun u => f (k u.1, u.2))
      = (o.bind fun u => f (k u.1, u.2)).map (Cut.before tail) := by
  cases o with
  | none => rfl
  | some u => exact hf (k u.1) u.2

theorem isDigitOf_ten (c : Char) : isDigitOf 10 c = c.isDigit := by
  unfold isDigitOf
  rw [if_neg (by decide)]
  cases hdigit : c.isDigit with
  | false => rfl
  | true =>
      unfold Char.isDigit at hdigit
      simp only [Bool.and_eq_true, decide_eq_true_eq] at hdigit
      have hupper : c.toNat ≤ '9'.toNat := hdigit.2
      have hten : c.toNat - '0'.toNat < 10 :=
        Nat.lt_of_le_of_lt (Nat.sub_le_sub_right hupper _) (by decide)
      rw [Bool.true_and, decide_eq_true hten]

theorem exponentTail_tail (h : NumberTail tail) :
    exponentTail (taken, cs ++ tail) = (exponentTail (taken, cs)).map (Cut.before tail) := by
  have hhere : endsHere (taken, cs ++ tail) = _ := endsHere_tail h
  have himaginary : imaginaryTail (taken, cs ++ tail) = _ := imaginaryTail_tail h
  cases cs with
  | nil =>
      obtain ⟨e, rest, rfl, he⟩ := h
      have hexponent : ¬ (e = 'e' ∨ e = 'E') := by
        rintro (heq | heq)
        · exact he.ne (by decide) heq
        · exact he.ne (by decide) heq
      simp only [exponentTail, List.nil_append, if_neg hexponent]
      exact himaginary
  | cons c cs =>
      simp only [exponentTail, List.cons_append]
      split_ifs
      · match cs with
        | [] =>
            obtain ⟨e, rest, rfl, he⟩ := h
            cases rest with
            | nil =>
                simp only [List.nil_append, he.not_isDigit, Bool.false_eq_true, if_false,
                  if_neg (not_or.mpr he.sign)]
                exact hhere
            | cons d rest =>
                show (if e = '+' ∨ e = '-' then _ else if e.isDigit = true then _ else _) = _
                rw [if_neg (not_or.mpr he.sign), if_neg (by rw [he.not_isDigit]; decide)]
                exact hhere
        | [s] =>
            have hrun : digitRun 10 false ([s] ++ tail) = _ := digitRun_tail h
            obtain ⟨e, rest, rfl, he⟩ := h
            simp only [List.cons_append, List.nil_append, he.not_isDigit, Bool.false_eq_true,
              if_false] at hrun ⊢
            split_ifs with hsign hdigit hdigit
            · rcases hsign with rfl | rfl <;> exact absurd hdigit (by decide)
            · rfl
            · have hten : isDigitOf 10 s = true := (isDigitOf_ten s).trans hdigit
              rw [hrun, digitRun, if_pos hten]
              show imaginaryTail (taken ++ [c, s], [] ++ e :: rest) = _
              exact imaginaryTail_tail ⟨e, rest, rfl, he⟩
            · exact hhere
        | s :: d :: more =>
            have hmore : digitRun 10 false (d :: more ++ tail) = _ := digitRun_tail h
            have hall : digitRun 10 false (s :: d :: more ++ tail) = _ := digitRun_tail h
            simp only [List.cons_append] at hmore hall ⊢
            split_ifs
            · rw [hmore]
              exact bind_tail (fun x => taken ++ c :: s :: x) _ fun _ _ => imaginaryTail_tail h
            · rfl
            · rw [hall]
              exact bind_tail (fun x => taken ++ c :: x) _ fun _ _ => imaginaryTail_tail h
            · exact hhere
      · exact himaginary

theorem fractionTail_tail (h : NumberTail tail) :
    fractionTail (taken, cs ++ tail) = (fractionTail (taken, cs)).map (Cut.before tail) := by
  have hexponent : exponentTail (taken, cs ++ tail) = _ := exponentTail_tail h
  cases cs with
  | nil =>
      obtain ⟨e, rest, rfl, he⟩ := h
      simp only [fractionTail, List.nil_append, he.not_isDigit, Bool.false_eq_true, if_false]
      exact hexponent
  | cons c cs =>
      have hrun : digitRun 10 false (c :: cs ++ tail) = _ := digitRun_tail h
      simp only [fractionTail, List.cons_append] at hrun ⊢
      split_ifs
      · rw [hrun]
        exact bind_tail (taken ++ ·) _ fun _ _ => exponentTail_tail h
      · exact hexponent

theorem decimalTail_of_ne (h : ∀ rest, cs ≠ '.' :: rest) :
    decimalTail (taken, cs) = exponentTail (taken, cs) := by
  unfold decimalTail
  split
  · rename_i rest heq
    exact absurd heq (h rest)
  · rfl

theorem decimalTail_tail (h : NumberTail tail) :
    decimalTail (taken, cs ++ tail) = (decimalTail (taken, cs)).map (Cut.before tail) := by
  have hexponent : exponentTail (taken, cs ++ tail) = _ := exponentTail_tail h
  cases cs with
  | nil =>
      obtain ⟨e, rest, rfl, he⟩ := h
      have hpoint : ∀ more, [] ++ e :: rest ≠ '.' :: more :=
        fun more heq => he.point (List.cons.inj heq).1
      rw [decimalTail_of_ne hpoint, hexponent]
      rfl
  | cons c cs =>
      by_cases hpoint : c = '.'
      · subst hpoint
        exact fractionTail_tail h
      · have hne : ∀ (xs more : List Char), c :: xs ≠ '.' :: more :=
          fun xs more heq => hpoint (List.cons.inj heq).1
        rw [decimalTail_of_ne (hne cs), ← hexponent]
        exact decimalTail_of_ne (hne (cs ++ tail))

/-- The digits of a literal with a base mark. -/
def basedDigits (base : Nat) (cs : List Char) : Option Cut :=
  match cs with
  | '_' :: d :: _ => if isDigitOf base d then digitRun base true cs else none
  | d :: _ => if isDigitOf base d then digitRun base false cs else none
  | [] => none

/-- The end of a literal with a base mark. -/
def basedEnd (mark : List Char) (t : Cut) : Option Cut :=
  match t.2 with
  | c :: _ => if c.isDigit then none else (endsHere t).map (Cut.pushAll mark)
  | [] => some (mark ++ t.1, [])

theorem basedNumber_eq (mark cs : List Char) :
    basedNumber base mark cs = (basedDigits base cs).bind (basedEnd mark) := rfl

theorem basedEnd_tail (h : NumberTail tail) {mark : List Char} :
    basedEnd mark (taken, cs ++ tail) = (basedEnd mark (taken, cs)).map (Cut.before tail) := by
  have hends : endsHere (taken, cs ++ tail) = _ := endsHere_tail h
  cases cs with
  | nil =>
      obtain ⟨e, rest, rfl, he⟩ := h
      simp only [basedEnd, List.nil_append, he.not_isDigit, Bool.false_eq_true, if_false] at hends ⊢
      rw [hends]
      rfl
  | cons c cs =>
      simp only [basedEnd, List.cons_append] at hends ⊢
      split_ifs
      · rfl
      · rw [hends, Option.map_map, Option.map_map]
        rfl

theorem basedDigits_cons {c : Char} (hc : c ≠ '_') :
    basedDigits base (c :: cs) =
      if isDigitOf base c then digitRun base false (c :: cs) else none := by
  unfold basedDigits
  split
  · rename_i heq
    exact absurd (List.cons.inj heq).1 hc
  · rename_i heq
    obtain ⟨rfl, rfl⟩ := List.cons.inj heq
    rfl
  · rename_i heq
    exact nomatch heq

theorem basedDigits_tail (h : NumberTail tail) :
    basedDigits base (cs ++ tail) = (basedDigits base cs).map (Cut.before tail) := by
  have hrun (b : Bool) : digitRun base b (cs ++ tail) = _ := digitRun_tail h
  cases cs with
  | nil =>
      obtain ⟨e, rest, rfl, he⟩ := h
      rw [List.nil_append, basedDigits_cons (he.ne (by decide)), he.not_isDigitOf]
      rfl
  | cons c cs =>
      by_cases hc : c = '_'
      · subst hc
        cases cs with
        | nil =>
            have hunderscore : isDigitOf base '_' = false := by
              unfold isDigitOf
              split
              · decide
              · rfl
            obtain ⟨e, rest, rfl, he⟩ := h
            simp [basedDigits, he.not_isDigitOf, hunderscore]
        | cons d cs =>
            simp only [basedDigits, List.cons_append] at hrun ⊢
            rw [hrun]
            split_ifs <;> rfl
      · rw [basedDigits_cons hc, List.cons_append, basedDigits_cons hc, ← List.cons_append, hrun]
        split_ifs <;> rfl

theorem basedNumber_tail (h : NumberTail tail) {mark : List Char} :
    basedNumber base mark (cs ++ tail) = (basedNumber base mark cs).map (Cut.before tail) := by
  rw [basedNumber_eq, basedNumber_eq, basedDigits_tail h]
  exact bind_tail id _ fun _ _ => basedEnd_tail h

/-- The end of a number without a base mark that starts with zero. -/
def zeroEnd (t : Cut) : Option Cut :=
  (decimalTail t).bind fun u => if isWhole u.1 ∧ ¬ allZeros u.1 then none else some u

theorem zeroEnd_tail (h : NumberTail tail) :
    zeroEnd (taken, cs ++ tail) = (zeroEnd (taken, cs)).map (Cut.before tail) := by
  rw [zeroEnd, zeroEnd, decimalTail_tail h]
  cases decimalTail (taken, cs) with
  | none => rfl
  | some u =>
      simp only [Option.map_some, Option.bind_some, Cut.before]
      split_ifs <;> rfl

theorem scanNumber_zero {c : Char} : scanNumber ('0' :: c :: rest) =
    if c = 'x' ∨ c = 'X' then basedNumber 16 ['0', c] rest
    else if c = 'o' ∨ c = 'O' then basedNumber 8 ['0', c] rest
    else if c = 'b' ∨ c = 'B' then basedNumber 2 ['0', c] rest
    else (digitRun 10 false ('0' :: c :: rest)).bind zeroEnd := rfl

theorem scanNumber_digit {c : Char} (hzero : c ≠ '0' ∨ rest = []) (hpoint : c ≠ '.') :
    scanNumber (c :: rest) = (digitRun 10 false (c :: rest)).bind decimalTail := by
  unfold scanNumber
  split
  · rename_i heq
    obtain ⟨rfl, rfl⟩ := List.cons.inj heq
    exact hzero.elim (fun h => absurd rfl h) nofun
  · rename_i heq
    exact absurd (List.cons.inj heq).1 hpoint
  · rfl

/-- **NUMBERS** end in front of a tail where they end without it. -/
theorem scanNumber_tail (h : NumberTail tail) (hcs : cs ≠ []) :
    scanNumber (cs ++ tail) = (scanNumber cs).map (Cut.before tail) := by
  have hrun : digitRun 10 false (cs ++ tail) = _ := digitRun_tail h
  cases cs with
  | nil => exact absurd rfl hcs
  | cons c cs =>
      by_cases hpoint : c = '.'
      · subst hpoint
        exact fractionTail_tail h
      by_cases hzero : c = '0'
      · subst hzero
        cases cs with
        | nil =>
            obtain ⟨e, rest, rfl, he⟩ := h
            have hmark (d : Char) (hd : mayContinueName d = true) : e ≠ d := he.ne hd
            rw [List.singleton_append] at hrun ⊢
            rw [scanNumber_zero, if_neg, if_neg, if_neg, hrun]
            · show zeroEnd (['0'], [] ++ e :: rest) = _
              rw [zeroEnd_tail ⟨e, rest, rfl, he⟩]
              rfl
            · exact not_or.mpr ⟨hmark _ (by decide), hmark _ (by decide)⟩
            · exact not_or.mpr ⟨hmark _ (by decide), hmark _ (by decide)⟩
            · exact not_or.mpr ⟨hmark _ (by decide), hmark _ (by decide)⟩
        | cons d cs =>
            simp only [List.cons_append] at hrun ⊢
            rw [scanNumber_zero, scanNumber_zero, hrun, basedNumber_tail h, basedNumber_tail h,
              basedNumber_tail h]
            split_ifs
            · rfl
            · rfl
            · rfl
            · exact bind_tail id _ fun _ _ => zeroEnd_tail h
      · rw [scanNumber_digit (.inl hzero) hpoint, List.cons_append,
          scanNumber_digit (.inl hzero) hpoint, ← List.cons_append, hrun]
        exact bind_tail id _ fun _ _ => decimalTail_tail h

/-! ## Cuts -/

/-- `Extends t u`: the second cut takes the characters of the first one and perhaps some more. -/
def Extends (t u : Cut) : Prop := ∃ more, u.1 = t.1 ++ more ∧ t.2 = more ++ u.2

theorem Extends.refl (t : Cut) : Extends t t := ⟨[], (List.append_nil _).symm, rfl⟩

theorem Extends.trans {v : Cut} (h : Extends t u) (h' : Extends u v) : Extends t v := by
  obtain ⟨more, hu, ht⟩ := h
  obtain ⟨more', hv, hu'⟩ := h'
  exact ⟨more ++ more', by rw [hv, hu, List.append_assoc], by rw [ht, hu', List.append_assoc]⟩

theorem extends_push {c : Char} (h : Extends ([], cs) u) : Extends ([], c :: cs) (u.push c) := by
  obtain ⟨more, hu, hcs⟩ := h
  exact ⟨c :: more, congrArg (c :: ·) hu, congrArg (c :: ·) hcs⟩

theorem extends_pushAll (front : List Char) (h : Extends ([], cs) u) :
    Extends ([], front ++ cs) (u.pushAll front) := by
  obtain ⟨more, hu, hcs⟩ := h
  exact ⟨front ++ more, congrArg (front ++ ·) hu, by
    show front ++ cs = front ++ more ++ u.2
    rw [List.append_assoc]
    exact congrArg (front ++ ·) hcs⟩

/-- A cut that starts afresh goes on behind what was taken before. -/
theorem Extends.after (h : Extends ([], cs) u) (before : List Char) :
    Extends (before, cs) (before ++ u.1, u.2) := by
  obtain ⟨more, hu, hcs⟩ := h
  exact ⟨more, congrArg (before ++ ·) hu, hcs⟩

theorem Extends.append_eq (h : Extends ([], cs) t) : t.1 ++ t.2 = cs := by
  obtain ⟨more, ht, hcs⟩ := h
  rw [ht]
  exact hcs.symm

theorem extends_digitRun (h : digitRun base afterDigit cs = some t) : Extends ([], cs) t := by
  induction cs generalizing afterDigit t with
  | nil =>
      obtain rfl := Option.some.inj h
      exact .refl _
  | cons c cs ih =>
      unfold digitRun at h
      split_ifs at h
      · obtain ⟨u, hu, rfl⟩ := Option.map_eq_some_iff.mp h
        exact extends_push (ih hu)
      · cases cs with
        | nil => exact nomatch h
        | cons d cs =>
            dsimp only at h
            split_ifs at h
            obtain ⟨u, hu, rfl⟩ := Option.map_eq_some_iff.mp h
            exact extends_push (ih hu)
      · obtain rfl := Option.some.inj h
        exact .refl _

theorem eq_of_endsHere (h : endsHere t = some u) : u = t := by
  unfold endsHere at h
  split at h
  · exact (Option.some.inj h).symm
  · split_ifs at h
    exact (Option.some.inj h).symm

theorem extends_endsHere (h : endsHere t = some u) : Extends t u :=
  eq_of_endsHere h ▸ .refl t

theorem extends_imaginaryTail (h : imaginaryTail t = some u) : Extends t u := by
  obtain ⟨taken, cs⟩ := t
  unfold imaginaryTail at h
  split at h
  · rename_i c rest hcs
    dsimp only at hcs
    subst hcs
    split_ifs at h
    · obtain ⟨v, hv, rfl⟩ := Option.map_eq_some_iff.mp h
      obtain rfl := eq_of_endsHere hv
      exact ⟨[c], List.append_nil _, rfl⟩
    · exact extends_endsHere h
  · exact Option.some.inj h ▸ .refl _

/-- The digits behind a mark, and what stands behind them. -/
theorem extends_digits (front : List Char) {f : Cut → Option Cut}
    (hf : ∀ t u, f t = some u → Extends t u)
    (h : ((digitRun 10 false cs).bind fun v => f (taken ++ (front ++ v.1), v.2)) = some u) :
    Extends (taken, front ++ cs) u := by
  obtain ⟨v, hv, hu⟩ := Option.bind_eq_some_iff.mp h
  have hfront : Extends (taken, front ++ cs) (taken ++ front, cs) := ⟨front, rfl, rfl⟩
  refine hfront.trans (.trans ?_ (hf _ _ hu))
  rw [← List.append_assoc]
  exact (extends_digitRun hv).after _

theorem extends_exponentTail (h : exponentTail t = some u) : Extends t u := by
  have himaginary (t u : Cut) (h : imaginaryTail t = some u) := extends_imaginaryTail h
  obtain ⟨taken, cs⟩ := t
  unfold exponentTail at h
  split at h
  · rename_i e rest hcs
    dsimp only at hcs
    subst hcs
    split_ifs at h
    · split at h
      · rename_i s d more
        split_ifs at h
        · exact extends_digits [e, s] himaginary h
        · exact extends_digits [e] himaginary h
        · exact extends_endsHere h
      · rename_i s
        split_ifs at h
        · exact .trans ⟨[e, s], rfl, rfl⟩ (extends_imaginaryTail h)
        · exact extends_endsHere h
      · exact extends_endsHere h
    · exact extends_imaginaryTail h
  · exact Option.some.inj h ▸ .refl _

theorem extends_fractionTail (h : fractionTail t = some u) : Extends t u := by
  have hexponent (t u : Cut) (h : exponentTail t = some u) := extends_exponentTail h
  obtain ⟨taken, cs⟩ := t
  unfold fractionTail at h
  split at h
  · split_ifs at h
    · exact extends_digits [] hexponent h
    · exact extends_exponentTail h
  · exact Option.some.inj h ▸ .refl _

theorem extends_decimalTail (h : decimalTail t = some u) : Extends t u := by
  obtain ⟨taken, cs⟩ := t
  unfold decimalTail at h
  split at h
  · rename_i rest hcs
    dsimp only at hcs
    subst hcs
    exact .trans ⟨['.'], rfl, rfl⟩ (extends_fractionTail h)
  · exact extends_exponentTail h

theorem extends_basedNumber {mark : List Char} (h : basedNumber base mark cs = some t) :
    Extends (mark, cs) t := by
  rw [basedNumber_eq] at h
  obtain ⟨u, hu, h⟩ := Option.bind_eq_some_iff.mp h
  have hdigits : Extends ([], cs) u := by
    unfold basedDigits at hu
    split at hu
    · exact extends_digitRun (Option.ite_none_right_eq_some.mp hu).2
    · exact extends_digitRun (Option.ite_none_right_eq_some.mp hu).2
    · exact nomatch hu
  unfold basedEnd at h
  split at h
  · split_ifs at h
    obtain ⟨v, hv, rfl⟩ := Option.map_eq_some_iff.mp h
    obtain rfl := eq_of_endsHere hv
    exact hdigits.after mark
  · rename_i hrest
    obtain rfl := Option.some.inj h
    have hafter := hdigits.after mark
    rwa [hrest] at hafter

theorem extends_zeroEnd (h : zeroEnd t = some u) : Extends t u := by
  obtain ⟨v, hv, hu⟩ := Option.bind_eq_some_iff.mp h
  split_ifs at hu
  exact Option.some.inj hu ▸ extends_decimalTail hv

/-- The digits of a number and what stands behind them. -/
theorem extends_digitRun_bind {c : Char} {f : Cut → Option Cut} (hc : c.isDigit = true)
    (hf : ∀ t u, f t = some u → Extends t u)
    (h : (digitRun 10 false (c :: cs)).bind f = some t) : Extends ([c], cs) t := by
  obtain ⟨u, hu, ht⟩ := Option.bind_eq_some_iff.mp h
  unfold digitRun at hu
  rw [if_pos ((isDigitOf_ten c).trans hc)] at hu
  obtain ⟨v, hv, rfl⟩ := Option.map_eq_some_iff.mp hu
  exact ((extends_digitRun hv).after [c]).trans (hf _ _ ht)

/-- A number is cut off with its first character. -/
theorem extends_scanNumber {c : Char} (hc : c.isDigit = true ∨ c = '.')
    (h : scanNumber (c :: cs) = some t) : Extends ([c], cs) t := by
  by_cases hpoint : c = '.'
  · subst hpoint
    exact extends_fractionTail h
  have hdigit : c.isDigit = true := hc.resolve_right hpoint
  have hdecimal (t u : Cut) (h : decimalTail t = some u) := extends_decimalTail h
  by_cases hzero : c ≠ '0' ∨ cs = []
  · rw [scanNumber_digit hzero hpoint] at h
    exact extends_digitRun_bind hdigit hdecimal h
  · obtain ⟨hzero, hcs⟩ := not_or.mp hzero
    rw [ne_eq, not_not] at hzero
    subst hzero
    cases cs with
    | nil => exact absurd rfl hcs
    | cons d cs =>
        have hmark : Extends (['0'], d :: cs) (['0', d], cs) := ⟨[d], rfl, rfl⟩
        rw [scanNumber_zero] at h
        split_ifs at h
        · exact hmark.trans (extends_basedNumber h)
        · exact hmark.trans (extends_basedNumber h)
        · exact hmark.trans (extends_basedNumber h)
        · exact extends_digitRun_bind hdigit (fun _ _ h => extends_zeroEnd h) h

end Covenant.Token
