import Covenant.Grammar.NumberLiteral
import Covenant.Proofs.Token.Walk

/-! # Whole numbers — a number is what its digits read as

    The text of a whole number is a minus sign, if it is negative, and the
    digits of its size.  Only zero has a zero in front (`head_toDigits`), and
    the digits give the number back (`foldl_toDigits`).

    The decimal digits of a number are one token, in front of whatever
    continues no token (`passes_toDigits`), and unless they are too many this
    token is read as the number (`numberConstant_toDigits`).  The sign of a
    negative number is a token of its own (`passes_minus`). -/

namespace Covenant.Text

/-! ## Decimal texts -/

theorem isDigit_of_mem_toDigits {n : Nat} {c : Char} (h : c ∈ Nat.toDigits 10 n) :
    c.isDigit = true :=
  Nat.isDigit_of_mem_toDigits (b := 10) (by decide) (by decide) h

/-- Digits that have been written give the number back. -/
theorem foldl_toDigits (n : Nat) :
    (Nat.toDigits 10 n).foldl (fun n c => n * 10 + (c.toNat - '0'.toNat)) 0 = n := by
  have h := Nat.ofDigitChars_toDigits (show 1 < 10 by decide) (Nat.le_refl 10) (n := n)
  unfold Nat.ofDigitChars at h
  simpa only [Nat.mul_comm 10] using h

theorem digitChar_ne_zero : ∀ n < 10, 0 < n → Nat.digitChar n ≠ '0' := by decide

/-- Only zero starts with a zero. -/
theorem head_toDigits {n : Nat} (hn : n ≠ 0) : ∀ c ∈ (Nat.toDigits 10 n).head?, c ≠ '0' := by
  induction n using Nat.strongRecOn with
  | _ n ih =>
    rw [Nat.toDigits_eq_if (by decide)]
    split
    next hlt =>
      intro c hc
      obtain rfl := Option.some.inj hc
      exact digitChar_ne_zero n hlt (Nat.pos_of_ne_zero hn)
    next hge =>
      rw [List.head?_append, Option.or_of_isSome (List.isSome_head?.mpr Nat.toDigits_ne_nil)]
      exact ih (n / 10) (by omega) (by omega)

theorem toList_toString_nat (n : Nat) : (toString n).toList = Nat.toDigits 10 n := Nat.toList_repr

theorem toList_toString_int (n : Int) :
    (toString n).toList = (if n < 0 then ['-'] else []) ++ Nat.toDigits 10 n.natAbs := by
  cases n with
  | ofNat m =>
    rw [if_neg (show ¬ Int.ofNat m < 0 from Int.not_lt.mpr (Int.natCast_nonneg m))]
    exact toList_toString_nat m
  | negSucc m =>
    rw [if_pos (Int.negSucc_lt_zero m)]
    show ("-" ++ Nat.repr (m + 1)).toList = _
    rw [String.toList_append, Nat.toList_repr]
    rfl

end Covenant.Text

namespace Covenant.Token

open Text Covenant.Tree

variable {c : Char} {cs tail rest b : List Char}

/-! ## Digits -/

theorem mayStartName_of_isDigit (h : c.isDigit = true) : mayStartName c = false := by
  have hcode : c.toNat ≤ 57 := of_decide_eq_true (Bool.and_eq_true_iff.mp h).2
  rw [Bool.eq_false_iff]
  intro hstart
  rcases Bool.or_eq_true_iff.mp hstart with hname | hwide
  · exact Bool.eq_false_iff.mp
      (isDigit_of_isNameStart (c := c) (Bool.or_eq_true_iff.mpr (.inl hname))) h
  · have hwide : 128 ≤ c.toNat := of_decide_eq_true hwide
    omega

theorem isDigit_ne {d : Char} (h : c.isDigit = true) (hd : d.isDigit = false) : c ≠ d := by
  rintro rfl
  rw [hd] at h
  exact nomatch h

/-- Digits alone are a run of digits. -/
theorem digitRun_digits (hcs : ∀ c ∈ cs, c.isDigit = true) {afterDigit : Bool} :
    digitRun 10 afterDigit cs = some (cs, []) := by
  induction cs generalizing afterDigit with
  | nil => rfl
  | cons c cs ih =>
      rw [List.forall_mem_cons] at hcs
      have hten : isDigitOf 10 c = true := (isDigitOf_ten c).trans hcs.1
      rw [digitRun.eq_def]
      dsimp only
      rw [if_pos hten, ih hcs.2]
      rfl

/-- **WHOLE NUMBERS** are scanned to their end. -/
theorem scanNumber_toDigits (n : Nat) :
    scanNumber (Nat.toDigits 10 n) = some (Nat.toDigits 10 n, []) := by
  by_cases hn : n = 0
  · subst hn
    rfl
  have hdigits : ∀ c ∈ Nat.toDigits 10 n, c.isDigit = true := fun c => isDigit_of_mem_toDigits
  have hhead := head_toDigits hn
  cases hlist : Nat.toDigits 10 n with
  | nil => exact absurd hlist Nat.toDigits_ne_nil
  | cons c cs =>
      rw [hlist] at hdigits hhead
      have hpoint : c ≠ '.' := isDigit_ne (hdigits c List.mem_cons_self) (by decide)
      rw [scanNumber_digit (.inl (hhead c rfl)) hpoint, digitRun_digits hdigits]
      rfl

theorem passes_toDigits (n : Nat) (h : Tail tail) :
    Passes (Nat.toDigits 10 n) tail [(.number, String.ofList (Nat.toDigits 10 n))] b b := by
  have hscan := scanNumber_toDigits n
  have hdigits : ∀ c ∈ Nat.toDigits 10 n, c.isDigit = true := fun c => isDigit_of_mem_toDigits
  cases hlist : Nat.toDigits 10 n with
  | nil => exact absurd hlist Nat.toDigits_ne_nil
  | cons c cs =>
      rw [hlist] at hscan hdigits
      have hdigit := hdigits c List.mem_cons_self
      have hne (d : Char) (hd : d.isDigit = false) : c ≠ d := isDigit_ne hdigit hd
      have hstarts : StartsToken c := ⟨hne _ (by decide), hne _ (by decide), hne _ (by decide),
        hne _ (by decide), hne _ (by decide), hne _ (by decide)⟩
      have htoken : scanToken (c :: cs) = some (.number, c :: cs, []) := by
        rw [scanToken, mayStartName_of_isDigit hdigit, if_neg Bool.false_ne_true,
          if_neg (not_or.mpr ⟨hne _ (by decide), hne _ (by decide)⟩), if_pos (.inl hdigit), hscan]
        rfl
      exact passes_token hstarts (turns_of_ne (by decide)) (scanToken_tail h htoken)

/-! ## Signs -/

theorem scanOperator_minus (hc : c ≠ '>' ∧ c ≠ '=') :
    scanOperator ('-' :: c :: rest) = some "-" := by
  simp [scanOperator, operators, List.isPrefixOf, hc.1.symm, hc.2.symm]

theorem passes_minus (hc : c ≠ '>' ∧ c ≠ '=') : Passes ['-'] (c :: rest) [(.op, "-")] b b := by
  refine passes_token (by decide) (turns_plain rfl (by decide)) ?_
  show (scanOperator ('-' :: c :: rest)).map _ = _
  rw [scanOperator_minus hc]
  rfl

end Covenant.Token

namespace Covenant.Grammar

open Text Token Covenant.Tree

/-- How many decimal digits a number has stays within the limit. -/
def HasFewDigits (n : Nat) : Prop := (Nat.toDigits 10 n).length ≤ maxDecimalDigits

instance (n : Nat) : Decidable (HasFewDigits n) :=
  inferInstanceAs (Decidable ((Nat.toDigits 10 n).length ≤ maxDecimalDigits))

theorem natOf_toDigits (n : Nat) : natOf 10 (Nat.toDigits 10 n) = n := by
  have hdigits : ∀ c ∈ Nat.toDigits 10 n, c.isDigit = true := fun c => isDigit_of_mem_toDigits
  refine Eq.trans ?_ (foldl_toDigits n)
  unfold natOf
  generalize Nat.toDigits 10 n = cs at hdigits
  generalize 0 = acc
  induction cs generalizing acc with
  | nil => rfl
  | cons c cs ih =>
      rw [List.forall_mem_cons] at hdigits
      rw [List.foldl_cons, List.foldl_cons, digitValue, if_pos hdigits.1, ih hdigits.2]

/-- **DIGITS** are read as the number that they were written for. -/
theorem numberConstant_toDigits {n : Nat} (h : HasFewDigits n) :
    numberConstant (Nat.toDigits 10 n) = some (.int n) := by
  by_cases hn : n = 0
  · subst hn
    decide
  have hdigits : ∀ c ∈ Nat.toDigits 10 n, c.isDigit = true := fun c => isDigit_of_mem_toDigits
  have hplain : (Nat.toDigits 10 n).filter (· != '_') = Nat.toDigits 10 n :=
    List.filter_eq_self.mpr fun c hc => bne_iff_ne.mpr (isDigit_ne (hdigits c hc) (by decide))
  -- the first digit is not that of a number with a base mark
  have hbase (mark : Prop) : ¬ ((Nat.toDigits 10 n).head? = some '0' ∧ mark) :=
    fun hzero => head_toDigits hn '0' hzero.1 rfl
  have himaginary (mark : Char) (hmark : mark.isDigit = false) (rest : List Char) :
      (Nat.toDigits 10 n).reverse ≠ mark :: rest := by
    intro heq
    have hmem : mark ∈ Nat.toDigits 10 n := List.mem_reverse.mp (heq ▸ List.mem_cons_self)
    exact isDigit_ne (hdigits mark hmem) hmark rfl
  unfold numberConstant
  dsimp only
  rw [hplain, if_neg (hbase _), if_neg (hbase _), if_neg (hbase _)]
  split
  · exact absurd ‹_› (himaginary 'j' (by decide) _)
  · exact absurd ‹_› (himaginary 'J' (by decide) _)
  · have hfew : (Nat.toDigits 10 n).length ≤ maxDecimalDigits := h
    rw [if_pos (List.all_eq_true.mpr hdigits), if_pos hfew, natOf_toDigits]

end Covenant.Grammar
