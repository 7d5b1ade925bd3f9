import Covenant.Proofs.Grammar.Literals
import Covenant.Proofs.Token.Walk
import Mathlib.Tactic.Ring

/-! # Quoted text — a text is what its literal reads as

    A text that is written as a literal is one string token, stays on its line,
    and is read back as it was.

    * One character at a time: how it is written is passed over
      (`scanQuoted_encodeChar`), is read back (`unescape_encodeChar`) and ends
      no line (`encodeChar_flat`).
    * The literal is the concatenation of these (`passes_quote`,
      `concatenated_quote`).
    * A text without quotes, escapes and ends of lines is put between three
      quotes as it is (`passes_tripled`, `concatenated_tripled`). -/

namespace Covenant.Text

open Token

variable {q c : Char} {cs rest : List Char} {alphabet : Alphabet}

/-! ## Digits -/

theorem hexValue_hexDigit : ∀ d < 16, hexValue (hexDigit d) = some d := by decide

/-- A character that means nothing inside quotes. -/
def IsInner (q c : Char) : Prop := c ≠ q ∧ c ≠ '\\' ∧ c ≠ '\n'

theorem isInner_hexDigit (hq : q = '\'' ∨ q = '"') : ∀ d < 16, IsInner q (hexDigit d) := by
  rcases hq with rfl | rfl <;> (unfold IsInner; decide)

theorem forall_hexDigits {P : Char → Prop} (h : ∀ d < 16, P (hexDigit d)) (width n : Nat) :
    ∀ c ∈ hexDigits width n, P c := by
  induction width generalizing n with
  | zero => exact nofun
  | succ width ih =>
      rw [hexDigits, List.forall_mem_append]
      exact ⟨ih _, List.forall_mem_singleton.mpr (h _ (Nat.mod_lt n (by decide)))⟩

/-- Digits that have been written are read back, and reading goes on behind them. -/
theorem readHex_hexDigits (width more n acc : Nat) (rest : List Char) :
    readHex (width + more) acc (hexDigits width n ++ rest)
      = readHex more (acc * 16 ^ width + n % 16 ^ width) rest := by
  induction width generalizing more n rest with
  | zero => simp [hexDigits, Nat.mod_one]
  | succ width ih =>
      have hdigit : n % 16 < 16 := Nat.mod_lt n (by decide)
      rw [hexDigits, List.append_assoc, Nat.add_assoc, Nat.add_comm 1 more, ih (more + 1) (n / 16),
        List.singleton_append, readHex, hexValue_hexDigit _ hdigit, Option.bind_some]
      have hvalue : (acc * 16 ^ width + n / 16 % 16 ^ width) * 16 + n % 16
          = acc * 16 ^ (width + 1) + n % 16 ^ (width + 1) := by
        rw [Nat.pow_succ, Nat.mul_comm (16 ^ width) 16, Nat.mod_mul]
        ring
      rw [hvalue]

theorem readHex_numeric {width n : Nat} (hn : n < 16 ^ width) :
    readHex width 0 (hexDigits width n ++ rest) = some (n, rest) := by
  have h := readHex_hexDigits width 0 n 0 rest
  rwa [Nat.add_zero, Nat.zero_mul, Nat.zero_add, Nat.mod_eq_of_lt hn] at h

/-! ## One character -/

/-- A character that neither ends a line nor is refused in program text. -/
def IsFlat (c : Char) : Prop := isLineBoundary c = false ∧ c ≠ '\x00'

instance (c : Char) : Decidable (IsFlat c) :=
  inferInstanceAs (Decidable (isLineBoundary c = false ∧ c ≠ '\x00'))

/-- What ends a line is not shown as itself. -/
theorem isFlat_of_isPrintable (h : isPrintable c = true) : IsFlat c := by
  constructor
  · rw [Bool.eq_false_iff]
    intro hboundary
    unfold isPrintable at h
    simp only [isLineBoundary, Bool.or_eq_true, Bool.and_eq_true, decide_eq_true_eq,
      beq_iff_eq] at hboundary
    split_ifs at h with hascii
    · simp only [Bool.and_eq_true, decide_eq_true_eq] at h
      omega
    · have hcases : c.toNat = 0x85 ∨ c.toNat = 0x2028 ∨ c.toNat = 0x2029 := by omega
      rcases hcases with heq | heq | heq <;> rw [heq] at h <;> exact absurd h (by decide +kernel)
  · rintro rfl
    exact absurd h (by decide)

theorem isFlat_hexDigit : ∀ d < 16, IsFlat (hexDigit d) := by
  unfold IsFlat
  decide

/-- The marks of escapes by number, each with the number of its digits. -/
def numericMarks : Alphabet → List (Char × Nat)
  | .text => [('x', 2), ('u', 4), ('U', 8)]
  | .bytes => [('x', 2)]

/-- The ways in which a character is written. -/
inductive Written (alphabet : Alphabet) (q c : Char) : List Char → Prop where
  | plain : IsInner q c → IsFlat c → Written alphabet q c [c]
  | simple (d : Char) : simpleEscape d = some c → IsFlat d → Written alphabet q c ['\\', d]
  | numeric (mark : Char) (width : Nat) : (mark, width) ∈ numericMarks alphabet →
      c.toNat < 16 ^ width → Written alphabet q c ('\\' :: mark :: hexDigits width c.toNat)

theorem toNat_lt (c : Char) : c.toNat < 0x110000 := by
  have h := c.valid
  unfold UInt32.isValidChar Nat.isValidChar at h
  unfold Char.toNat
  omega

theorem written_encodeChar (hq : q = '\'' ∨ q = '"') (c : Char) :
    Written .text q c (encodeChar q c) := by
  unfold encodeChar
  split_ifs with hquote htab hline hreturn hprint
  · rcases hquote with rfl | rfl
    · rcases hq with rfl | rfl
      · exact .simple _ rfl (by decide)
      · exact .simple _ rfl (by decide)
    · exact .simple _ rfl (by decide)
  · subst htab
    exact .simple _ rfl (by decide)
  · subst hline
    exact .simple _ rfl (by decide)
  · subst hreturn
    exact .simple _ rfl (by decide)
  · exact .plain ⟨fun h => hquote (.inl h), fun h => hquote (.inr h), hline⟩
      (isFlat_of_isPrintable hprint)
  · have hbound := toNat_lt c
    unfold numericEscape
    split_ifs with htwo hfour
    · exact .numeric 'x' 2 (by decide) htwo
    · exact .numeric 'u' 4 (by decide) hfour
    · exact .numeric 'U' 8 (by decide) (by omega)

/-- Characters without a meaning of their own are passed over. -/
theorem scanQuoted_inner (hcs : ∀ c ∈ cs, IsInner q c) :
    scanQuoted q false (cs ++ rest) = (scanQuoted q false rest).map (Cut.pushAll cs) := by
  induction cs with
  | nil =>
      show _ = (scanQuoted q false rest).map id
      rw [Option.map_id]
      rfl
  | cons c cs ih =>
      rw [List.forall_mem_cons] at hcs
      obtain ⟨⟨hquote, hescape, hline⟩, hcs⟩ := hcs
      rw [List.cons_append, scanQuoted_cons hescape, if_neg hquote, if_neg (by simp [hline]),
        ih hcs, Option.map_map]
      rfl

-- the equations for each escape are made here, once for the proofs that follow
attribute [local simp] unescape

theorem unescape_plain (hc : c ≠ '\\') (fuel : Nat) :
    unescape alphabet (fuel + 1) (c :: rest)
      = (unescape alphabet fuel rest).map (c.toNat :: ·) := by
  rw [unescape.eq_def]
  split
  · contradiction
  · rename_i heq
    exact nomatch heq
  · rename_i heq
    exact absurd (List.cons.inj heq).1 hc
  · rename_i hfuel heq
    obtain ⟨rfl, rfl⟩ := List.cons.inj heq
    rw [Nat.succ.inj hfuel]

theorem unescape_simple {d : Char} (h : simpleEscape d = some c) (fuel : Nat) :
    unescape alphabet (fuel + 1) ('\\' :: d :: rest)
      = (unescape alphabet fuel rest).map (c.toNat :: ·) := by
  rw [unescape, h]

theorem unescape_numeric {mark : Char} {width : Nat} (h : (mark, width) ∈ numericMarks alphabet)
    (hc : c.toNat < 16 ^ width) (fuel : Nat) :
    unescape alphabet (fuel + 1) ('\\' :: mark :: (hexDigits width c.toNat ++ rest))
      = (unescape alphabet fuel rest).map (c.toNat :: ·) := by
  cases alphabet with
  | text =>
      simp only [numericMarks, List.mem_cons, Prod.mk.injEq, List.not_mem_nil, or_false] at h
      rcases h with ⟨rfl, rfl⟩ | ⟨rfl, rfl⟩ | ⟨rfl, rfl⟩
      · simp [unescape, simpleEscape, readHex_numeric hc, toNat_lt c]
      · simp [unescape, simpleEscape, readHex_numeric hc, toNat_lt c]
      · simp [unescape, simpleEscape, readHex_numeric hc, toNat_lt c]
  | bytes =>
      simp only [numericMarks, List.mem_cons, Prod.mk.injEq, List.not_mem_nil, or_false] at h
      obtain ⟨rfl, rfl⟩ := h
      simp [unescape, simpleEscape, readHex_numeric hc, toNat_lt c]

namespace Written

variable {written : List Char}

theorem scan (h : Written alphabet q c written) (hq : q = '\'' ∨ q = '"') (rest : List Char) :
    scanQuoted q false (written ++ rest)
      = (scanQuoted q false rest).map (Cut.pushAll written) := by
  cases h with
  | plain hinner _ => exact scanQuoted_inner (List.forall_mem_singleton.mpr hinner)
  | simple d _ _ => rfl
  | numeric mark width _ _ =>
      show (scanQuoted q false (hexDigits width c.toNat ++ rest)).map _ = _
      rw [scanQuoted_inner (forall_hexDigits (isInner_hexDigit hq) width _), Option.map_map]
      rfl

theorem read (h : Written alphabet q c written) (fuel : Nat) (rest : List Char) :
    unescape alphabet (fuel + 1) (written ++ rest)
      = (unescape alphabet fuel rest).map (c.toNat :: ·) := by
  cases h with
  | plain hinner _ => exact unescape_plain hinner.2.1 fuel
  | simple d h _ => exact unescape_simple h fuel
  | numeric mark width h hc => exact unescape_numeric h hc fuel

theorem flat (h : Written alphabet q c written) : ∀ d ∈ written, IsFlat d := by
  have hescape : IsFlat '\\' := ⟨by decide, by decide⟩
  cases h with
  | plain _ hflat => exact List.forall_mem_singleton.mpr hflat
  | simple d _ hflat =>
      exact List.forall_mem_cons.mpr ⟨hescape, List.forall_mem_singleton.mpr hflat⟩
  | numeric mark width h _ =>
      have hmarks : ∀ m ∈ numericMarks alphabet, IsFlat m.1 := by cases alphabet <;> decide
      exact List.forall_mem_cons.mpr ⟨hescape, List.forall_mem_cons.mpr
        ⟨hmarks _ h, forall_hexDigits isFlat_hexDigit width _⟩⟩

/-- What is written starts with no quote. -/
theorem exists_cons (h : Written alphabet q c written) (hq : q = '\'' ∨ q = '"') :
    ∃ d more, written = d :: more ∧ d ≠ q := by
  have hescape : '\\' ≠ q := by rcases hq with rfl | rfl <;> decide
  cases h with
  | plain hinner _ => exact ⟨_, _, rfl, hinner.1⟩
  | simple _ _ _ => exact ⟨_, _, rfl, hescape⟩
  | numeric _ _ _ _ => exact ⟨_, _, rfl, hescape⟩

end Written

/-! ## Insides of literals -/

section Inside

variable {α : Type} {write : α → List Char} {char : α → Char} (hq : q = '\'' ∨ q = '"')
  (h : ∀ x, Written alphabet q (char x) (write x))
include h

theorem unescape_flatMap (xs : List α) {fuel : Nat} (hfuel : xs.length < fuel) :
    unescape alphabet fuel (xs.flatMap write) = some (xs.map fun x => (char x).toNat) := by
  induction xs generalizing fuel with
  | nil =>
      obtain ⟨fuel, rfl⟩ := Nat.exists_eq_succ_of_ne_zero (Nat.ne_of_gt hfuel)
      cases fuel <;> rfl
  | cons x xs ih =>
      obtain ⟨fuel, rfl⟩ := Nat.exists_eq_succ_of_ne_zero (Nat.ne_of_gt (Nat.zero_lt_of_lt hfuel))
      rw [List.flatMap_cons, (h x).read, ih (Nat.lt_of_succ_lt_succ hfuel)]
      rfl

theorem flat_flatMap (xs : List α) : ∀ d ∈ xs.flatMap write, IsFlat d := by
  intro d hd
  obtain ⟨x, -, hd⟩ := List.mem_flatMap.mp hd
  exact (h x).flat d hd

include hq

theorem scanQuoted_flatMap (xs : List α) :
    scanQuoted q false (xs.flatMap write ++ [q]) = some (xs.flatMap write ++ [q], []) := by
  induction xs with
  | nil =>
      have hescape : q ≠ '\\' := by rcases hq with rfl | rfl <;> decide
      show scanQuoted q false [q] = _
      rw [scanQuoted_cons hescape, if_pos rfl]
      rfl
  | cons x xs ih =>
      rw [List.flatMap_cons, List.append_assoc, (h x).scan hq, ih]
      rfl

/-- The inside of a literal does not start with its quote. -/
theorem head_flatMap (xs : List α) : ∀ c ∈ (xs.flatMap write).head?, c ≠ q := by
  cases xs with
  | nil => exact nofun
  | cons x xs =>
      obtain ⟨d, more, hwrite, hd⟩ := (h x).exists_cons hq
      rw [List.flatMap_cons, hwrite]
      intro c hc
      obtain rfl := Option.some.inj hc
      exact hd

theorem length_le_flatMap (xs : List α) : xs.length ≤ (xs.flatMap write).length := by
  induction xs with
  | nil => exact Nat.le_refl 0
  | cons x xs ih =>
      obtain ⟨d, more, hwrite, -⟩ := (h x).exists_cons hq
      rw [List.flatMap_cons, List.length_append, hwrite, List.length_cons, List.length_cons]
      omega

/-- **A LITERAL** is one string token. -/
theorem scanString_flatMap (xs : List α) : scanString (q :: (xs.flatMap write ++ [q]))
    = some (q :: (xs.flatMap write ++ [q]), []) := by
  have hbody := scanQuoted_flatMap hq h xs
  have hhead := head_flatMap hq h xs
  generalize xs.flatMap write = body at hbody hhead
  match body, hbody, hhead with
  | [], _, _ => exact if_pos rfl
  | [c], hbody, hhead =>
      have hc : c ≠ q := hhead c rfl
      show scanString (q :: c :: q :: []) = _
      rw [scanString_cons, if_neg fun h => hc h.1, if_neg hc]
      exact Option.map_eq_some_iff.mpr ⟨_, hbody, rfl⟩
  | c :: d :: body, hbody, hhead =>
      have hc : c ≠ q := hhead c rfl
      show scanString (q :: c :: d :: (body ++ [q])) = _
      rw [scanString_cons, if_neg fun h => hc h.1, if_neg hc]
      exact Option.map_eq_some_iff.mpr ⟨_, hbody, rfl⟩

end Inside

/-! ## Whole texts -/

theorem quoteFor_eq (hasSingle hasDouble : Bool) :
    quoteFor hasSingle hasDouble = '\'' ∨ quoteFor hasSingle hasDouble = '"' := by
  unfold quoteFor
  split_ifs
  · exact .inr rfl
  · exact .inl rfl

/-- The quote around a text. -/
def quoteOf (s : String) : Char := quoteFor (s.toList.contains '\'') (s.toList.contains '"')

theorem quoteOf_eq (s : String) : quoteOf s = '\'' ∨ quoteOf s = '"' := quoteFor_eq _ _

/-- The inside of the literal of a text. -/
def quotedBody (s : String) : List Char := s.toList.flatMap (encodeChar (quoteOf s))

theorem toList_quote (s : String) :
    (quote s).toList = quoteOf s :: (quotedBody s ++ [quoteOf s]) := by
  unfold quote
  rw [String.toList_ofList]
  rfl

/-- How the characters of a text are written in its literal. -/
theorem written_quoted (s : String) (c : Char) :
    Written .text (quoteOf s) c (encodeChar (quoteOf s) c) := written_encodeChar (quoteOf_eq s) c

theorem flat_quote (s : String) : ∀ d ∈ (quote s).toList, IsFlat d := by
  have hquote : IsFlat (quoteOf s) := by
    rcases quoteOf_eq s with h | h <;> rw [h] <;> exact ⟨by decide, by decide⟩
  rw [toList_quote, List.forall_mem_cons, List.forall_mem_append]
  exact ⟨hquote, flat_flatMap (written_quoted s) s.toList, List.forall_mem_singleton.mpr hquote⟩

/-- **A TEXT AS A LITERAL** is one string token. -/
theorem scanString_quote (s : String) :
    scanString (quote s).toList = some ((quote s).toList, []) := by
  rw [toList_quote]
  exact scanString_flatMap (quoteOf_eq s) (written_quoted s) s.toList

/-- In front of a tail the lexer passes over the literal of a text. -/
theorem scanToken_quote (s : String) : ∃ c more, (quote s).toList = c :: more ∧ StartsToken c ∧
    scanToken (c :: more) = some (.string, c :: more, []) := by
  have hscan := scanString_quote s
  rw [toList_quote] at hscan ⊢
  refine ⟨_, _, rfl, ?_, ?_⟩
  · rcases quoteOf_eq s with h | h <;> rw [h] <;> decide
  · have hname : mayStartName (quoteOf s) = false := by
      rcases quoteOf_eq s with h | h <;> rw [h] <;> decide
    rw [scanToken, hname, if_neg Bool.false_ne_true, if_pos (quoteOf_eq s), hscan]
    rfl

theorem passes_quote (s : String) {tail b : List Char} (h : Tail tail) :
    Passes (quote s).toList tail [(.string, quote s)] b b := by
  obtain ⟨c, more, hlist, hc, hscan⟩ := scanToken_quote s
  have hpasses : Passes (c :: more) tail [(.string, String.ofList (c :: more))] b b :=
    passes_token hc (turns_of_ne (by decide)) (scanToken_tail h hscan)
  rwa [← hlist, String.ofList_toList] at hpasses

theorem charOf_toNat (c : Char) : charOf c.toNat = c := by
  have hvalid : c.toNat.isValidChar := c.valid
  rw [charOf, if_pos hvalid, Char.ofNat_toNat]

/-- The inside of a literal is read back. -/
theorem readText_quotedBody (s : String) : readText (quotedBody s) = some s.toList := by
  have hfuel : s.toList.length < (quotedBody s).length + 1 :=
    Nat.lt_succ_of_le (length_le_flatMap (quoteOf_eq s) (written_quoted s) _)
  have hread : unescape .text ((quotedBody s).length + 1) (quotedBody s) = _ :=
    unescape_flatMap (written_quoted s) _ hfuel
  rw [readText, hread, Option.map_some, List.map_map]
  simp [Function.comp_def, charOf_toNat]

section Tripled

variable {cs tail b : List Char} {s : String}

/-- A text between three quotes. -/
def tripled (s : String) : String := "\"\"\"" ++ s ++ "\"\"\""

theorem toList_tripled (s : String) :
    (tripled s).toList = '"' :: '"' :: '"' :: (s.toList ++ ['"', '"', '"']) := by
  rw [tripled, String.toList_append, String.toList_append, List.append_assoc]
  rfl

/-- Characters without a meaning of their own are passed over up to three quotes. -/
theorem scanQuoted_tripled (hcs : ∀ c ∈ cs, IsInner '"' c) :
    scanQuoted '"' true (cs ++ ['"', '"', '"']) = some (cs ++ ['"', '"', '"'], []) := by
  induction cs with
  | nil => rfl
  | cons c cs ih =>
      rw [List.forall_mem_cons] at hcs
      obtain ⟨⟨hquote, hescape, hline⟩, hcs⟩ := hcs
      rw [List.cons_append, scanQuoted_cons hescape, if_neg hquote, if_neg (by simp [hline]), ih hcs]
      rfl

/-- **A TEXT BETWEEN THREE QUOTES** is one string token. -/
theorem passes_tripled (hs : ∀ c ∈ s.toList, IsInner '"' c) (h : Tail tail) :
    Passes (tripled s).toList tail [(.string, tripled s)] b b := by
  have hscan : scanToken ('"' :: '"' :: '"' :: (s.toList ++ ['"', '"', '"']))
      = some (.string, '"' :: '"' :: '"' :: (s.toList ++ ['"', '"', '"']), []) := by
    show (scanString ('"' :: '"' :: '"' :: (s.toList ++ ['"', '"', '"']))).map _ = _
    rw [scanString_cons, if_pos ⟨rfl, rfl⟩, scanQuoted_tripled hs]
    rfl
  have hpasses : Passes ('"' :: '"' :: '"' :: (s.toList ++ ['"', '"', '"'])) tail
      [(.string, String.ofList ('"' :: '"' :: '"' :: (s.toList ++ ['"', '"', '"'])))] b b :=
    passes_token (by decide) (turns_of_ne (by decide)) (scanToken_tail h hscan)
  rwa [← toList_tripled, String.ofList_toList] at hpasses

theorem unescape_all_plain (hcs : ∀ c ∈ cs, IsInner '"' c) {fuel : Nat} (hfuel : cs.length < fuel) :
    unescape .text fuel cs = some (cs.map Char.toNat) := by
  induction cs generalizing fuel with
  | nil =>
      obtain ⟨fuel, rfl⟩ := Nat.exists_eq_succ_of_ne_zero (Nat.ne_of_gt hfuel)
      rfl
  | cons c cs ih =>
      rw [List.forall_mem_cons] at hcs
      obtain ⟨fuel, rfl⟩ := Nat.exists_eq_succ_of_ne_zero (Nat.ne_of_gt (Nat.zero_lt_of_lt hfuel))
      rw [unescape_plain hcs.1.2.1, ih hcs.2 (Nat.lt_of_succ_lt_succ hfuel)]
      rfl

theorem readText_plain (hcs : ∀ c ∈ cs, IsInner '"' c) : readText cs = some cs := by
  have hread : unescape .text (cs.length + 1) cs = _ :=
    unescape_all_plain hcs (Nat.lt_succ_self cs.length)
  rw [readText, hread, Option.map_some, List.map_map]
  simp [Function.comp_def, charOf_toNat]

end Tripled

end Covenant.Text

namespace Covenant.Grammar

open Text Covenant.Tree

/-- A literal taken apart: its marks, and as its inside what stands between the quotes. -/
theorem bareString_of_marked {text : String} {marks : List Char} {q : Char} {body : List Char}
    (h : text.toList = marks ++ q :: (body ++ [q])) (hq : q = '\'' ∨ q = '"')
    (hmarks : ∀ c ∈ marks, c ≠ '\'' ∧ c ≠ '"') (hhead : ∀ c ∈ body.head?, c ≠ q) :
    (bareString text).marks = marks.map Char.toLower ∧ (bareString text).body = body := by
  have htake : (marks ++ q :: (body ++ [q])).takeWhile (fun c => c != '\'' && c != '"') = marks := by
    have hquote : ¬ (q != '\'' && q != '"') = true := by
      rcases hq with rfl | rfl <;> decide
    rw [List.takeWhile_append_of_pos fun c hc => by simpa using hmarks c hc, List.takeWhile_cons,
      if_neg hquote, List.append_nil]
  refine ⟨by simp only [bareString, StringToken.ofToken, h, htake], ?_⟩
  simp only [bareString, StringToken.ofToken, h, htake, List.drop_left]
  split
  · rename_i q' r d e rest heq
    -- a literal of one quote at each end is not taken for one of three
    obtain ⟨rfl, htail⟩ := List.cons.inj heq
    have hr : ¬ (q = r ∧ r = d) := by
      rintro ⟨rfl, -⟩
      cases body with
      | nil => exact nomatch (List.cons.inj htail).2
      | cons c body => exact hhead c rfl (List.cons.inj htail).1
    rw [if_neg hr]
    simp
  · simp

theorem bareString_of_quoted {text : String} {q : Char} {body : List Char}
    (h : text.toList = q :: (body ++ [q])) (hq : q = '\'' ∨ q = '"')
    (hhead : ∀ c ∈ body.head?, c ≠ q) :
    (bareString text).marks = [] ∧ (bareString text).body = body :=
  bareString_of_marked (show text.toList = [] ++ q :: (body ++ [q]) from h) hq nofun hhead

section Bare

variable {text s : String} (hmarks : (bareString text).marks = [])
include hmarks

/-- A literal without marks is read as the text that its inside is read as. -/
theorem constantOf_bare (hbody : readText (bareString text).body = some s.toList)
    (hmarked : text.startsWith "u" = false) : constantOf [text] = some (.str s false) := by
  have hbytes : (bareString text).isBytes = false := by
    rw [StringToken.isBytes, hmarks]
    rfl
  have hraw : (bareString text).isRaw = false := by
    rw [StringToken.isRaw, hmarks]
    rfl
  have hpieces : piecesOf text = some (if s.toList.isEmpty then [] else [.text s.toList]) := by
    rw [piecesOf, hraw]
    show (readText (bareString text).body).map _ = _
    rw [hbody]
    rfl
  have hlead : leadingText (mergeTexts (if s.toList.isEmpty then [] else [.text s.toList])) = s := by
    cases hs : s.toList with
    | nil =>
        show "" = s
        exact (String.toList_eq_nil_iff.mp hs).symm
    | cons c cs =>
        show String.ofList (c :: cs) = s
        rw [← hs, String.ofList_toList]
  simp only [constantOf, allBytes, List.all_cons, List.all_nil, List.any_cons, List.any_nil, hbytes,
    List.mapM_cons, List.mapM_nil, hpieces, List.headD_cons, hmarked]
  show some (Constant.str (leadingText (mergeTexts (_ ++ []))) false) = _
  rw [List.append_nil, hlead]

/-- A token without marks is read as the constant that its text is. -/
theorem concatenated_bare {t : Token} {k : Constant} (h : t.text = text)
    (hconstant : constantOf [text] = some k) (read : EmbeddedReader) :
    ∃ place, concatenated read [t] = some (.constant place k) := by
  have hformat : anyFormat [text] = false := by
    simp [anyFormat, StringToken.isFormat, hmarks]
  obtain ⟨place, hread⟩ := concatenated_eq read (List.cons_ne_nil t [])
    (.inr (show anyFormat [t.text] = false from h ▸ hformat))
  refine ⟨place, hread.trans ?_⟩
  show (constantOf [t.text]).map _ = _
  rw [h, hconstant]
  rfl

end Bare

theorem bareString_quote (s : String) :
    (bareString (quote s)).marks = [] ∧ (bareString (quote s)).body = quotedBody s :=
  bareString_of_quoted (toList_quote s) (quoteOf_eq s) (head_flatMap (quoteOf_eq s) (written_quoted s) _)

/-- **A TEXT AS A LITERAL** is read back as the constant that it is. -/
theorem constantOf_quote (s : String) : constantOf [quote s] = some (.str s false) := by
  obtain ⟨hmarks, hbody⟩ := bareString_quote s
  refine constantOf_bare hmarks (hbody ▸ readText_quotedBody s) ?_
  rw [String.startsWith_string_eq_false_iff, toList_quote]
  rintro ⟨rest, heq⟩
  have hhead : 'u' = quoteOf s := (List.cons.inj heq).1
  rcases quoteOf_eq s with h | h <;> rw [h] at hhead <;> exact absurd hhead (by decide)

/-- A token that is a text as a literal is read as this text. -/
theorem concatenated_quote {t : Token} {s : String} (h : t.text = quote s)
    (read : EmbeddedReader) : ∃ place, concatenated read [t] = some (.constant place (.str s false)) :=
  concatenated_bare (bareString_quote s).1 h (constantOf_quote s) read

section Tripled

variable {s : String}

/-- A text between three quotes taken apart. -/
theorem bareString_tripled (s : String) :
    (bareString (tripled s)).marks = [] ∧ (bareString (tripled s)).body = s.toList := by
  refine ⟨by simp [bareString, StringToken.ofToken, toList_tripled], ?_⟩
  cases hs : s.toList with
  | nil => simp [bareString, StringToken.ofToken, toList_tripled, hs]
  | cons c cs => simp [bareString, StringToken.ofToken, toList_tripled, hs]

/-- A token that is a text between three quotes is read as this text. -/
theorem concatenated_tripled (hs : ∀ c ∈ s.toList, IsInner '"' c) {t : Token} (h : t.text = tripled s)
    (read : EmbeddedReader) : ∃ place, concatenated read [t] = some (.constant place (.str s false)) := by
  obtain ⟨hmarks, hbody⟩ := bareString_tripled s
  have hmarked : (tripled s).startsWith "u" = false := by
    rw [String.startsWith_string_eq_false_iff, toList_tripled]
    rintro ⟨rest, heq⟩
    exact absurd (List.cons.inj heq).1 (by decide)
  have hread : readText (bareString (tripled s)).body = some s.toList := by
    rw [hbody]
    exact readText_plain hs
  exact concatenated_bare hmarks h (constantOf_bare hmarks hread hmarked) read

end Tripled

end Covenant.Grammar
