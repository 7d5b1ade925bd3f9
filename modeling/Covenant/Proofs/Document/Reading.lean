import Covenant.Document.Json
import Covenant.Proofs.Grammar.WholeNumbers
import Covenant.Proofs.Text.Quoted

/-! # Reading documents — a compact text is read back as its document

    The writer of compact texts and the reader are inverses for documents
    without floating numbers whose keys differ, whether characters beyond
    ASCII are escaped or not.

    * A character inside a string is read back from its escape, a character
      beyond sixteen bits from both halves (`readString_escapeChar`).
    * A whole number ends where its digits end, since a comma, a bracket or
      nothing stands behind it (`Stops`, `readNumber_int`).
    * A value is read back with what stands behind it left over
      (`readValue_compactWith`), by induction on the document.

    So no document's text is that of another one (`compactWith_injective`). -/

namespace Covenant.Document.Json

open Text

variable {asciiOnly : Bool} {c : Char} {cs rest : List Char} {fuel : Nat}

-- the equations of the readers and of the printer are made here, once for all the proofs
attribute [local simp] readString readValue readItems readFields compactWith

/-! ## Strings -/

/-- What reading a string gives behind one more character. -/
def pushChar (c : Char) (r : List Char × List Char) : List Char × List Char := (c :: r.1, r.2)

/-- A letter behind a backslash is read as the character that it stands for. -/
theorem readString_letter {d : Char} (hd : letterEscape d = some c) :
    readString (fuel + 1) ('\\' :: d :: rest) = (readString fuel rest).map (pushChar c) := by
  rw [readString.eq_def]
  split
  · contradiction
  · contradiction
  · rename_i heq
    exact nomatch heq
  · rename_i heq
    obtain ⟨rfl, -⟩ := List.cons.inj (List.cons.inj heq).2
    exact nomatch hd
  · rename_i hfuel heq
    obtain ⟨rfl, rfl⟩ := List.cons.inj (List.cons.inj heq).2
    rw [hd, Nat.succ.inj hfuel, Option.map_eq_bind]
    rfl
  · rename_i hother _ heq
    obtain ⟨rfl, rfl⟩ := List.cons.inj heq
    exact absurd rfl (hother d rest rfl)

/-- A character that means nothing inside a string is read as itself. -/
theorem readString_plain (hquote : c ≠ '"') (hescape : c ≠ '\\') (hshown : 32 ≤ c.toNat) :
    readString (fuel + 1) (c :: rest) = (readString fuel rest).map (pushChar c) := by
  rw [readString.eq_def]
  split
  · contradiction
  · contradiction
  · rename_i heq
    exact absurd (List.cons.inj heq).1 hquote
  · rename_i heq
    exact absurd (List.cons.inj heq).1 hescape
  · rename_i heq
    exact absurd (List.cons.inj heq).1 hescape
  · rename_i hfuel heq
    obtain ⟨rfl, rfl⟩ := List.cons.inj heq
    rw [Nat.succ.inj hfuel, if_neg (Nat.not_lt.mpr hshown)]
    rfl

/-- An escape by number is read as the character of this number, unless it is the first half of
    a pair. -/
theorem readString_unit (hc : c.toNat < 0x10000) :
    readString (fuel + 1) ('\\' :: 'u' :: (hexDigits 4 c.toNat ++ rest)) =
      (readString fuel rest).map (pushChar c) := by
  have hvalid : c.toNat.isValidChar := c.valid
  have hhalf : ¬ (0xD800 ≤ c.toNat ∧ c.toNat < 0xDC00) := by
    unfold Nat.isValidChar at hvalid
    omega
  have hread : readHex 4 0 (hexDigits 4 c.toNat ++ rest) = some (c.toNat, rest) :=
    readHex_numeric hc
  rw [readString.eq_def]
  simp only [bind, hread, Option.bind_some, if_neg hhalf, Option.getD_none, charOf_toNat]
  rw [Option.map_eq_bind]
  rfl

/-- Two halves are read as the character beyond sixteen bits that they stand for. -/
theorem readString_pair {high low : Nat} (hhigh : 0xD800 ≤ high ∧ high < 0xDC00)
    (hlow : 0xDC00 ≤ low ∧ low < 0xE000)
    (hc : 0x10000 + (high - 0xD800) * 0x400 + (low - 0xDC00) = c.toNat) :
    readString (fuel + 1)
        ('\\' :: 'u' :: (hexDigits 4 high ++ '\\' :: 'u' :: (hexDigits 4 low ++ rest))) =
      (readString fuel rest).map (pushChar c) := by
  have hfirst (more : List Char) : readHex 4 0 (hexDigits 4 high ++ more) = some (high, more) :=
    readHex_numeric (by omega)
  have hsecond : readHex 4 0 (hexDigits 4 low ++ rest) = some (low, rest) :=
    readHex_numeric (by omega)
  rw [readString.eq_def]
  simp only [bind, hfirst, Option.bind_some, if_pos hhigh, hsecond, if_pos hlow,
    Option.getD_some, hc, charOf_toNat]
  rw [Option.map_eq_bind]
  rfl

/-- The ways in which a character is written inside a string. -/
inductive Escaped (c : Char) : List Char → Prop where
  | letter (d : Char) : letterEscape d = some c → Escaped c ['\\', d]
  | unit : c.toNat < 0x10000 → Escaped c ('\\' :: 'u' :: hexDigits 4 c.toNat)
  | pair (high low : Nat) : 0xD800 ≤ high ∧ high < 0xDC00 → 0xDC00 ≤ low ∧ low < 0xE000 →
      0x10000 + (high - 0xD800) * 0x400 + (low - 0xDC00) = c.toNat →
      Escaped c ('\\' :: 'u' :: hexDigits 4 high ++ '\\' :: 'u' :: hexDigits 4 low)
  | plain : c ≠ '"' → c ≠ '\\' → 32 ≤ c.toNat → Escaped c [c]

theorem escaped_escapeChar (asciiOnly : Bool) (c : Char) : Escaped c (escapeChar asciiOnly c) := by
  have hbound := toNat_lt c
  unfold escapeChar
  refine iteInduction (fun h => h ▸ .letter '"' rfl) fun hquote => ?_
  refine iteInduction (fun h => h ▸ .letter '\\' rfl) fun hescape => ?_
  refine iteInduction (fun h => h ▸ .letter 'n' rfl) fun _ => ?_
  refine iteInduction (fun h => h ▸ .letter 'r' rfl) fun _ => ?_
  refine iteInduction (fun h => h ▸ .letter 't' rfl) fun _ => ?_
  refine iteInduction (fun h => h ▸ .letter 'b' rfl) fun _ => ?_
  refine iteInduction (fun h => h ▸ .letter 'f' rfl) fun _ => ?_
  refine iteInduction (fun h => .unit (by omega)) fun hcontrol => ?_
  refine iteInduction (fun _ => iteInduction (fun h => .unit h) fun hunit => ?_) fun _ =>
    .plain hquote hescape (Nat.not_lt.mp hcontrol)
  exact .pair _ _ (by omega) (by omega) (by omega)

/-- **A CHARACTER IS READ BACK** from what stands for it inside a string. -/
theorem readString_escapeChar (asciiOnly : Bool) (c : Char) (fuel : Nat) (rest : List Char) :
    readString (fuel + 1) (escapeChar asciiOnly c ++ rest) =
      (readString fuel rest).map (pushChar c) := by
  have hescaped := escaped_escapeChar asciiOnly c
  generalize escapeChar asciiOnly c = written at hescaped
  cases hescaped with
  | letter d hd => exact readString_letter hd
  | unit hc => exact readString_unit hc
  | pair high low hhigh hlow hc =>
    simp only [List.cons_append, List.append_assoc]
    exact readString_pair hhigh hlow hc
  | plain hquote hescape hshown => exact readString_plain hquote hescape hshown

theorem readString_flatMap (s : List Char) (hfuel : s.length < fuel) :
    readString fuel (s.flatMap (escapeChar asciiOnly) ++ '"' :: rest) = some (s, rest) := by
  induction s generalizing fuel with
  | nil =>
    obtain ⟨fuel, rfl⟩ := Nat.exists_eq_succ_of_ne_zero (Nat.ne_of_gt hfuel)
    rfl
  | cons c s ih =>
    obtain ⟨fuel, rfl⟩ := Nat.exists_eq_succ_of_ne_zero (Nat.ne_of_gt (Nat.zero_lt_of_lt hfuel))
    rw [List.flatMap_cons, List.append_assoc, readString_escapeChar,
      ih (Nat.lt_of_succ_lt_succ hfuel)]
    rfl

/-! ## Numbers -/

/-- What can stand behind a value in a document: nothing, a comma or a closing bracket. -/
def Stops (rest : List Char) : Prop := ∀ c ∈ rest.head?, c = ',' ∨ c = ']' ∨ c = '\x7d'

theorem Stops.head_ne {d : Char} (h : Stops rest) (hd : d ≠ ',' ∧ d ≠ ']' ∧ d ≠ '\x7d') :
    ∀ more, rest ≠ d :: more := by
  rintro more rfl
  rcases h d rfl with rfl | rfl | rfl
  · exact hd.1 rfl
  · exact hd.2.1 rfl
  · exact hd.2.2 rfl

theorem Stops.takeWhile_digits (h : Stops rest) {digits : List Char}
    (hdigits : ∀ c ∈ digits, c.isDigit = true) :
    (digits ++ rest).takeWhile Char.isDigit = digits := by
  rw [List.takeWhile_append_of_pos hdigits]
  cases rest with
  | nil => simp
  | cons c rest =>
    have hc : c.isDigit = false := by
      rcases h c rfl with rfl | rfl | rfl <;> rfl
    rw [List.takeWhile_cons_of_neg (by simp [hc]), List.append_nil]

theorem Stops.readExponent (h : Stops rest) : readExponent rest = none := by
  cases rest with
  | nil => rfl
  | cons c rest =>
    have hc : ¬ (c = 'e' ∨ c = 'E') := by
      rcases h c rfl with rfl | rfl | rfl <;> decide
    exact if_neg hc

theorem Stops.fractionDigits (h : Stops rest) : fractionDigits rest = [] := by
  unfold Json.fractionDigits
  split
  next ds => exact absurd rfl (h.head_ne (by decide) ds)
  next => rfl

theorem Stops.wholeDigits (h : Stops rest) (n : Nat) :
    wholeDigits (Nat.toDigits 10 n ++ rest) = Nat.toDigits 10 n := by
  by_cases hn : n = 0
  · subst hn
    rfl
  · have hhead : ∀ more, Nat.toDigits 10 n ++ rest ≠ '0' :: more := by
      intro more heq
      refine absurd rfl (head_toDigits hn '0' ?_)
      have hsome := List.isSome_head?.mpr (Nat.toDigits_ne_nil (b := 10) (n := n))
      rw [← Option.or_of_isSome hsome, ← List.head?_append, heq]
      rfl
    rw [Json.wholeDigits]
    · exact h.takeWhile_digits fun c => isDigit_of_mem_toDigits
    · exact hhead

theorem readUnsigned_toDigits (h : Stops rest) (negative : Bool) (n : Nat) :
    readUnsigned negative (Nat.toDigits 10 n ++ rest) =
      some (.int (if negative then -n else n), rest) := by
  have hvalue : natOfDigits (Nat.toDigits 10 n) = n := foldl_toDigits n
  have hempty : (Nat.toDigits 10 n).isEmpty = false :=
    List.isEmpty_eq_false_iff.mpr Nat.toDigits_ne_nil
  unfold readUnsigned
  simp only [h.wholeDigits, hempty, Bool.false_eq_true, if_false, List.drop_left,
    h.fractionDigits, List.isEmpty_nil, if_true, h.readExponent, hvalue]

/-- A whole number starts with a digit, or with a minus sign and a digit. -/
theorem head_int (n : Int) : ∃ d ds, d.isDigit = true ∧
    ((toString n).toList = d :: ds ∨ (toString n).toList = '-' :: d :: ds) := by
  obtain ⟨d, ds, hdigits⟩ :=
    List.exists_cons_of_ne_nil (Nat.toDigits_ne_nil (b := 10) (n := n.natAbs))
  refine ⟨d, ds, isDigit_of_mem_toDigits (hdigits ▸ List.mem_cons_self), ?_⟩
  rw [toList_toString_int, hdigits]
  split
  · exact .inr rfl
  · exact .inl rfl

/-- **A WHOLE NUMBER IS READ BACK** from its text. -/
theorem readNumber_int (h : Stops rest) (n : Int) :
    readNumber ((toString n).toList ++ rest) = some (.int n, rest) := by
  rw [toList_toString_int, List.append_assoc]
  by_cases hn : n < 0
  · have hvalue : -(n.natAbs : Int) = n := by omega
    rw [if_pos hn, List.singleton_append, readNumber, readUnsigned_toDigits h, if_pos rfl, hvalue]
  · have hvalue : (n.natAbs : Int) = n := by omega
    have hhead : ∀ more, Nat.toDigits 10 n.natAbs ++ rest ≠ '-' :: more := by
      intro more heq
      obtain ⟨d, ds, hdigits⟩ :=
        List.exists_cons_of_ne_nil (Nat.toDigits_ne_nil (b := 10) (n := n.natAbs))
      have hdigit := isDigit_of_mem_toDigits (hdigits ▸ List.mem_cons_self)
      rw [hdigits] at heq
      obtain rfl : d = '-' := (List.cons.inj heq).1
      exact absurd hdigit (by decide)
    rw [if_neg hn, List.nil_append, readNumber]
    · rw [readUnsigned_toDigits h, if_neg Bool.false_ne_true, hvalue]
    · exact hhead

/-! ## Values -/

mutual

/-- A document without floating numbers whose keys differ at every level. -/
def Exact : Json → Prop
  | .float _ => False
  | .arr items => ExactAll items
  | .obj fields => (fields.map (·.1)).Nodup ∧ ExactFields fields
  | .null | .bool _ | .int _ | .str _ => True

/-- Several such documents. -/
def ExactAll : List Json → Prop
  | [] => True
  | j :: js => j.Exact ∧ ExactAll js

/-- Fields with such documents. -/
def ExactFields : List (String × Json) → Prop
  | [] => True
  | (_, v) :: fs => v.Exact ∧ ExactFields fs

end

theorem toList_stringText (s : String) :
    (stringText asciiOnly s).toList = '"' :: (s.toList.flatMap (escapeChar asciiOnly) ++ ['"']) := by
  rw [stringText, String.toList_ofList]
  rfl

theorem length_le_flatMap_escapeChar (asciiOnly : Bool) (s : List Char) :
    s.length ≤ (s.flatMap (escapeChar asciiOnly)).length := by
  induction s with
  | nil => exact Nat.le_refl 0
  | cons c s ih =>
    have hone : 1 ≤ (escapeChar asciiOnly c).length := by
      have hescaped := escaped_escapeChar asciiOnly c
      generalize escapeChar asciiOnly c = written at hescaped
      cases hescaped <;> exact Nat.succ_le_succ (Nat.zero_le _)
    rw [List.flatMap_cons, List.length_append, List.length_cons]
    omega

/-- A string in its quotes is read back from behind the first one. -/
theorem readString_stringText (s : String) :
    readString ((s.toList.flatMap (escapeChar asciiOnly) ++ '"' :: rest).length + 1)
      (s.toList.flatMap (escapeChar asciiOnly) ++ '"' :: rest) = some (s.toList, rest) := by
  refine readString_flatMap s.toList ?_
  have hlength := length_le_flatMap_escapeChar asciiOnly s.toList
  rw [List.length_append]
  omega

/-- A character that a value can start with. -/
def Opens (c : Char) : Prop := isGap c = false ∧ c ≠ ']' ∧ c ≠ '\x7d'

instance (c : Char) : Decidable (Opens c) :=
  inferInstanceAs (Decidable (isGap c = false ∧ c ≠ ']' ∧ c ≠ '\x7d'))

/-- No digit is one of some other characters. -/
theorem ne_of_isDigit {d e : Char} (hd : d.isDigit = true) (he : e.isDigit = false) : d ≠ e := by
  rintro rfl
  rw [hd] at he
  exact nomatch he

theorem opens_of_isDigit (h : c.isDigit = true) : Opens c := by
  refine ⟨?_, ne_of_isDigit h rfl, ne_of_isDigit h rfl⟩
  simp only [isGap, Bool.or_eq_false_iff, decide_eq_false_iff_not]
  exact ⟨⟨⟨ne_of_isDigit h rfl, ne_of_isDigit h rfl⟩, ne_of_isDigit h rfl⟩, ne_of_isDigit h rfl⟩

theorem toList_arr (items : List Json) : ((Json.arr items).compactWith asciiOnly).toList =
    '[' :: ([','].intercalate ((compactAll asciiOnly items).map String.toList) ++ [']']) := by
  rw [compactWith, String.toList_append, String.toList_append, String.toList_intercalate]
  rfl

theorem toList_obj (fields : List (String × Json)) :
    ((Json.obj fields).compactWith asciiOnly).toList = '\x7b' ::
      ([','].intercalate ((compactFields asciiOnly fields).map String.toList) ++ ['\x7d']) := by
  rw [compactWith, String.toList_append, String.toList_append, String.toList_intercalate]
  rfl

/-- Parts with commas between them. -/
theorem intercalate_comma (t u : List Char) (ts : List (List Char)) :
    [','].intercalate (t :: u :: ts) = t ++ ',' :: [','].intercalate (u :: ts) := rfl

theorem head_compactWith (asciiOnly : Bool) (j : Json) (hj : j.Exact) :
    ∃ c cs, (j.compactWith asciiOnly).toList = c :: cs ∧ Opens c := by
  cases j with
  | null => exact ⟨'n', ['u', 'l', 'l'], by rw [compactWith]; rfl, by decide⟩
  | bool b =>
    cases b with
    | true => exact ⟨'t', ['r', 'u', 'e'], by rw [compactWith]; rfl, by decide⟩
    | false => exact ⟨'f', ['a', 'l', 's', 'e'], by rw [compactWith]; rfl, by decide⟩
  | int n =>
    rw [compactWith]
    obtain ⟨d, ds, hd, h | h⟩ := head_int n
    · exact ⟨d, ds, h, opens_of_isDigit hd⟩
    · exact ⟨'-', d :: ds, h, by decide⟩
  | float x => exact absurd hj id
  | str s => exact ⟨'"', _, by rw [compactWith, toList_stringText], by decide⟩
  | arr items => exact ⟨'[', _, toList_arr items, by decide⟩
  | obj fields => exact ⟨'\x7b', _, toList_obj fields, by decide⟩

theorem skipGap_of_opens (h : Opens c) : skipGap (c :: cs) = c :: cs :=
  List.dropWhile_cons_of_neg (by simp [h.1])

/-- The words are read as the values that they are. -/
theorem readValue_word {w : String} {j : Json}
    (h : (w, j) ∈ [("null", Json.null), ("true", .bool true), ("false", .bool false)])
    (fuel : Nat) (rest : List Char) :
    readValue (fuel + 1) (w.toList ++ rest) = some (j, rest) := by
  simp only [List.mem_cons, Prod.mk.injEq, List.not_mem_nil, or_false] at h
  rcases h with ⟨rfl, rfl⟩ | ⟨rfl, rfl⟩ | ⟨rfl, rfl⟩ <;> rfl

/-- What a whole number starts with is the start of no word. -/
theorem find?_words {d : Char} (hd : d.isDigit = true)
    (hcs : cs = d :: rest ∨ cs = '-' :: d :: rest) :
    (words.find? fun w => w.1.toList.isPrefixOf cs) = none := by
  have hne {e : Char} (he : e.isDigit = false) : ¬ e = d := (ne_of_isDigit hd he).symm
  have hletters : 'n' ≠ d ∧ 't' ≠ d ∧ 'f' ≠ d ∧ 'N' ≠ d ∧ 'I' ≠ d ∧ '-' ≠ d :=
    ⟨hne rfl, hne rfl, hne rfl, hne rfl, hne rfl, hne rfl⟩
  rcases hcs with rfl | rfl <;> simp [words, hletters]

/-- What starts with no bracket, quote or word is read as a number. -/
theorem readValue_number {d : Char} (hd : d ≠ '"' ∧ d ≠ '[' ∧ d ≠ '\x7b')
    (hwords : (words.find? fun w => w.1.toList.isPrefixOf (d :: cs)) = none) :
    readValue (fuel + 1) (d :: cs) = readNumber (d :: cs) := by
  rw [readValue.eq_def]
  split
  · contradiction
  · contradiction
  · rename_i heq
    exact absurd (List.cons.inj heq).1 hd.1
  · rename_i heq
    exact absurd (List.cons.inj heq).1 hd.2.1
  · rename_i heq
    exact absurd (List.cons.inj heq).1 hd.2.2
  · rw [hwords]

theorem readValue_int (h : Stops rest) (fuel : Nat) (n : Int) :
    readValue (fuel + 1) ((toString n).toList ++ rest) = some (.int n, rest) := by
  have hnumber := readNumber_int h n
  obtain ⟨d, ds, hd, hlist | hlist⟩ := head_int n
  · rw [hlist, List.cons_append] at hnumber ⊢
    rw [readValue_number ⟨ne_of_isDigit hd rfl, ne_of_isDigit hd rfl, ne_of_isDigit hd rfl⟩
      (find?_words hd (.inl rfl)), hnumber]
  · rw [hlist, List.cons_append, List.cons_append] at hnumber ⊢
    rw [readValue_number (by decide) (find?_words hd (.inr rfl)), hnumber]

theorem readValue_quote : readValue (fuel + 1) ('"' :: cs) =
    (readString (cs.length + 1) cs).map fun r => (.str (String.ofList r.1), r.2) := by
  rw [readValue.eq_def]
  rfl

theorem readValue_square (h : Opens c) : readValue (fuel + 1) ('[' :: c :: cs) =
    (readItems fuel (c :: cs)).map fun r => (.arr r.1, r.2) := by
  rw [readValue.eq_def]
  simp only [skipGap_of_opens h]
  split
  · rename_i heq
    exact absurd (List.cons.inj heq).1 h.2.1
  · rfl

theorem readValue_curly (h : Opens c) : readValue (fuel + 1) ('\x7b' :: c :: cs) =
    (readFields fuel [] (c :: cs)).map fun r => (.obj r.1, r.2) := by
  rw [readValue.eq_def]
  simp only [skipGap_of_opens h]
  split
  · rename_i heq
    exact absurd (List.cons.inj heq).1 h.2.2
  · rfl

/-- A last item is the one in front of the bracket. -/
theorem readItems_last {j : Json} (h : readValue fuel cs = some (j, ']' :: rest)) :
    readItems (fuel + 1) cs = some ([j], rest) := by
  rw [readItems.eq_def]
  simp only [h, bind, Option.bind_some]
  rfl

/-- Behind an item and a comma the others follow. -/
theorem readItems_more {j : Json} {js : List Json} {more : List Char} (hc : Opens c)
    (h : readValue fuel cs = some (j, ',' :: c :: more))
    (hmore : readItems fuel (c :: more) = some (js, rest)) :
    readItems (fuel + 1) cs = some (j :: js, rest) := by
  rw [readItems.eq_def]
  simp only [h, bind, Option.bind_some]
  show (readItems fuel (skipGap (c :: more))).map _ = _
  rw [skipGap_of_opens hc, hmore]
  rfl

/-- The text of a field: its key, a colon and its value. -/
theorem readFields_field {k : String} {v : Json} {seen : List (String × Json)} (hc : Opens c)
    (h : readValue fuel (c :: cs) = some (v, rest)) :
    readFields (fuel + 1) seen ((stringText asciiOnly k).toList ++ ':' :: c :: cs) =
      match skipGap rest with
      | '\x7d' :: more => some (setField seen k v, more)
      | ',' :: more => readFields fuel (setField seen k v) (skipGap more)
      | _ => none := by
  rw [toList_stringText, List.cons_append, List.append_assoc, List.singleton_append,
    readFields.eq_def]
  simp only [readString_stringText, bind, Option.bind_some]
  show (readValue fuel (skipGap (c :: cs))).bind _ = _
  rw [String.ofList_toList, skipGap_of_opens hc, h]
  rfl

theorem setField_new {seen : List (String × Json)} {k : String} (v : Json)
    (h : k ∉ seen.map (·.1)) : setField seen k v = seen ++ [(k, v)] := by
  have hnew : seen.any (·.1 == k) = false := by
    rw [List.any_eq_false]
    intro p hp heq
    exact h (beq_iff_eq.mp heq ▸ List.mem_map_of_mem hp)
  rw [setField, hnew, if_neg Bool.false_ne_true]

/-- The text of a field as characters. -/
theorem toList_field (k : String) (v : Json) :
    (stringText asciiOnly k ++ ":" ++ v.compactWith asciiOnly).toList =
      (stringText asciiOnly k).toList ++ ':' :: (v.compactWith asciiOnly).toList := by
  rw [String.toList_append, String.toList_append, List.append_assoc]
  rfl

/-- The items of an array behind one another. -/
def itemChars (asciiOnly : Bool) (js : List Json) : List Char :=
  [','].intercalate ((compactAll asciiOnly js).map String.toList)

/-- The fields of an object behind one another. -/
def fieldChars (asciiOnly : Bool) (fs : List (String × Json)) : List Char :=
  [','].intercalate ((compactFields asciiOnly fs).map String.toList)

/-- A document that is read back from its text, whatever stands behind it. -/
def ReadsBack (asciiOnly : Bool) (j : Json) : Prop :=
  ∀ fuel rest, (j.compactWith asciiOnly).toList.length < fuel → Stops rest →
    readValue fuel ((j.compactWith asciiOnly).toList ++ rest) = some (j, rest)

theorem ReadsBack.intro {j : Json}
    (h : ∀ fuel rest, (j.compactWith asciiOnly).toList.length ≤ fuel → Stops rest →
      readValue (fuel + 1) ((j.compactWith asciiOnly).toList ++ rest) = some (j, rest)) :
    ReadsBack asciiOnly j := by
  intro fuel rest hfuel hrest
  obtain ⟨fuel, rfl⟩ := Nat.exists_eq_succ_of_ne_zero (Nat.ne_of_gt (Nat.zero_lt_of_lt hfuel))
  exact h fuel rest (Nat.lt_succ_iff.mp hfuel) hrest

theorem stops_comma : Stops (',' :: rest) := by
  rintro c ⟨⟩
  exact .inl rfl

theorem stops_square : Stops (']' :: rest) := by
  rintro c ⟨⟩
  exact .inr (.inl rfl)

theorem stops_curly : Stops ('\x7d' :: rest) := by
  rintro c ⟨⟩
  exact .inr (.inr rfl)

theorem itemChars_cons (j k : Json) (js : List Json) : itemChars asciiOnly (j :: k :: js) =
    (j.compactWith asciiOnly).toList ++ ',' :: itemChars asciiOnly (k :: js) := by
  unfold itemChars
  rw [compactAll, compactAll]
  rfl

theorem itemChars_singleton (j : Json) :
    itemChars asciiOnly [j] = (j.compactWith asciiOnly).toList := by
  unfold itemChars
  rw [compactAll, compactAll, List.map_singleton, List.intercalate_singleton]

/-- Items start as the first of them does. -/
theorem head_itemChars (asciiOnly : Bool) (j : Json) (js : List Json) (hj : j.Exact) :
    ∃ c cs, itemChars asciiOnly (j :: js) = c :: cs ∧ Opens c := by
  obtain ⟨c, cs, hlist, hc⟩ := head_compactWith asciiOnly j hj
  cases js with
  | nil => exact ⟨c, cs, (itemChars_singleton j).trans hlist, hc⟩
  | cons k js => exact ⟨c, _, by rw [itemChars_cons, hlist, List.cons_append], hc⟩

/-- Items that are read back one by one are so together, up to the bracket. -/
theorem readItems_itemChars (js : List Json) (fuel : Nat) (rest : List Char)
    (hjs : ∀ j ∈ js, j.Exact ∧ ReadsBack asciiOnly j) (hne : js ≠ [])
    (hfuel : (itemChars asciiOnly js).length + 1 < fuel) :
    readItems fuel (itemChars asciiOnly js ++ ']' :: rest) = some (js, rest) := by
  induction js generalizing fuel with
  | nil => exact absurd rfl hne
  | cons j js ih =>
    obtain ⟨fuel, rfl⟩ := Nat.exists_eq_succ_of_ne_zero (Nat.ne_of_gt (Nat.zero_lt_of_lt hfuel))
    obtain ⟨⟨hj, hread⟩, hjs⟩ := List.forall_mem_cons.mp hjs
    cases js with
    | nil =>
      rw [itemChars_singleton] at hfuel ⊢
      exact readItems_last (hread fuel _ (by omega) stops_square)
    | cons k js =>
      have hrest := ih fuel hjs (List.cons_ne_nil k js)
      obtain ⟨c, cs, hlist, hc⟩ := head_itemChars asciiOnly k js (hjs k (by simp)).1
      rw [itemChars_cons, List.length_append, List.length_cons] at hfuel
      rw [itemChars_cons, List.append_assoc, List.cons_append]
      rw [hlist] at hrest hfuel ⊢
      exact readItems_more hc (hread fuel _ (by omega) stops_comma) (hrest (by omega))

theorem fieldChars_cons (k l : String) (v w : Json) (fs : List (String × Json)) :
    fieldChars asciiOnly ((k, v) :: (l, w) :: fs) = (stringText asciiOnly k).toList ++
      ':' :: ((v.compactWith asciiOnly).toList ++ ',' :: fieldChars asciiOnly ((l, w) :: fs)) := by
  unfold fieldChars
  rw [compactFields, compactFields, List.map_cons, List.map_cons, intercalate_comma, toList_field,
    List.append_assoc, List.cons_append]

theorem fieldChars_singleton (k : String) (v : Json) :
    fieldChars asciiOnly [(k, v)] =
      (stringText asciiOnly k).toList ++ ':' :: (v.compactWith asciiOnly).toList := by
  unfold fieldChars
  rw [compactFields, compactFields, List.map_singleton, List.intercalate_singleton, toList_field]

/-- Fields start with the quote of a key. -/
theorem head_fieldChars (asciiOnly : Bool) (f : String × Json) (fs : List (String × Json)) :
    ∃ cs, fieldChars asciiOnly (f :: fs) = '"' :: cs := by
  obtain ⟨k, v⟩ := f
  cases fs with
  | nil => exact ⟨_, by rw [fieldChars_singleton, toList_stringText, List.cons_append]⟩
  | cons g fs => exact ⟨_, by rw [fieldChars_cons, toList_stringText, List.cons_append]⟩

/-- Fields with values that are read back one by one are so together, up to the bracket and
    behind those seen before. -/
theorem readFields_fieldChars (fs : List (String × Json)) (fuel : Nat) (rest : List Char)
    (hfs : ∀ f ∈ fs, f.2.Exact ∧ ReadsBack asciiOnly f.2) (hne : fs ≠ [])
    (seen : List (String × Json)) (hkeys : ((seen ++ fs).map (·.1)).Nodup)
    (hfuel : (fieldChars asciiOnly fs).length + 1 < fuel) :
    readFields fuel seen (fieldChars asciiOnly fs ++ '\x7d' :: rest) =
      some (seen ++ fs, rest) := by
  induction fs generalizing fuel seen with
  | nil => exact absurd rfl hne
  | cons f fs ih =>
    obtain ⟨k, v⟩ := f
    obtain ⟨fuel, rfl⟩ := Nat.exists_eq_succ_of_ne_zero (Nat.ne_of_gt (Nat.zero_lt_of_lt hfuel))
    obtain ⟨⟨hv, hread⟩, hfs⟩ := List.forall_mem_cons.mp hfs
    change ReadsBack asciiOnly v at hread
    obtain ⟨c, cs, hlist, hc⟩ := head_compactWith asciiOnly v hv
    have hnew : setField seen k v = seen ++ [(k, v)] := by
      refine setField_new v fun hk => ?_
      rw [List.map_append, List.nodup_append] at hkeys
      exact hkeys.2.2 k hk k List.mem_cons_self rfl
    cases fs with
    | nil =>
      rw [fieldChars_singleton, List.length_append, List.length_cons] at hfuel
      have hvalue := hread fuel ('\x7d' :: rest) (by omega) stops_curly
      rw [fieldChars_singleton, List.append_assoc, List.cons_append]
      rw [hlist] at hvalue ⊢
      rw [List.cons_append] at hvalue ⊢
      rw [readFields_field hc hvalue, hnew]
      rfl
    | cons g fs =>
      obtain ⟨l, w⟩ := g
      obtain ⟨ds, hds⟩ := head_fieldChars asciiOnly (l, w) fs
      rw [fieldChars_cons, List.length_append, List.length_cons, List.length_append,
        List.length_cons] at hfuel
      have hrest := ih fuel hfs (List.cons_ne_nil _ _) (seen ++ [(k, v)])
        (by rwa [List.append_assoc]) (by omega)
      have hvalue := hread fuel (',' :: (fieldChars asciiOnly ((l, w) :: fs) ++ '\x7d' :: rest))
        (by omega) stops_comma
      rw [fieldChars_cons, List.append_assoc, List.cons_append, List.append_assoc,
        List.cons_append]
      rw [hlist] at hvalue ⊢
      rw [List.cons_append] at hvalue ⊢
      rw [readFields_field hc hvalue, hnew]
      rw [hds] at hrest ⊢
      rw [List.append_assoc] at hrest
      exact hrest

/-- The texts of an array and of an object, with the bracket behind them apart. -/
theorem toList_arr_cons (asciiOnly : Bool) (j : Json) (js : List Json) (rest : List Char) :
    ((Json.arr (j :: js)).compactWith asciiOnly).toList ++ rest =
      '[' :: (itemChars asciiOnly (j :: js) ++ ']' :: rest) := by
  rw [toList_arr, List.cons_append, List.append_assoc, List.singleton_append]
  rfl

theorem toList_obj_cons (asciiOnly : Bool) (f : String × Json) (fs : List (String × Json))
    (rest : List Char) :
    ((Json.obj (f :: fs)).compactWith asciiOnly).toList ++ rest =
      '\x7b' :: (fieldChars asciiOnly (f :: fs) ++ '\x7d' :: rest) := by
  rw [toList_obj, List.cons_append, List.append_assoc, List.singleton_append]
  rfl

theorem readsBack_arr (js : List Json) (hjs : ∀ j ∈ js, j.Exact ∧ ReadsBack asciiOnly j) :
    ReadsBack asciiOnly (.arr js) := by
  refine .intro fun fuel rest hfuel _ => ?_
  cases js with
  | nil =>
    rw [toList_arr, readValue.eq_def]
    rfl
  | cons j js =>
    have hlength := congrArg List.length (toList_arr_cons asciiOnly j js [])
    rw [List.append_nil, List.length_cons, List.length_append, List.length_singleton] at hlength
    have hitems := readItems_itemChars (j :: js) fuel rest hjs (List.cons_ne_nil j js)
      (by omega)
    obtain ⟨c, cs, hlist, hc⟩ := head_itemChars asciiOnly j js (hjs j List.mem_cons_self).1
    rw [toList_arr_cons]
    rw [hlist, List.cons_append] at hitems ⊢
    rw [readValue_square hc, hitems, Option.map_some]

theorem readsBack_obj (fs : List (String × Json)) (hkeys : (fs.map (·.1)).Nodup)
    (hfs : ∀ f ∈ fs, f.2.Exact ∧ ReadsBack asciiOnly f.2) : ReadsBack asciiOnly (.obj fs) := by
  refine .intro fun fuel rest hfuel _ => ?_
  cases fs with
  | nil =>
    rw [toList_obj, readValue.eq_def]
    rfl
  | cons f fs =>
    have hlength := congrArg List.length (toList_obj_cons asciiOnly f fs [])
    rw [List.append_nil, List.length_cons, List.length_append, List.length_singleton] at hlength
    have hfields := readFields_fieldChars (f :: fs) fuel rest hfs (List.cons_ne_nil f fs)
      [] hkeys (by omega)
    obtain ⟨cs, hlist⟩ := head_fieldChars asciiOnly f fs
    rw [toList_obj_cons]
    rw [hlist, List.cons_append] at hfields ⊢
    rw [readValue_curly (by decide), hfields, Option.map_some, List.nil_append]

mutual

/-- **A VALUE IS READ BACK** from its text: by induction on the document. -/
theorem readsBack (asciiOnly : Bool) : (j : Json) → j.Exact → ReadsBack asciiOnly j
  | .null, _ => by
      refine .intro fun fuel rest _ _ => ?_
      rw [compactWith]
      exact readValue_word (by simp) fuel rest
  | .bool b, _ => by
      refine .intro fun fuel rest _ _ => ?_
      rw [compactWith]
      cases b with
      | true => exact readValue_word (by simp) fuel rest
      | false => exact readValue_word (by simp) fuel rest
  | .int n, _ => by
      refine .intro fun fuel rest _ hrest => ?_
      rw [compactWith]
      exact readValue_int hrest fuel n
  | .float x, hj => absurd hj id
  | .str s, _ => by
      refine .intro fun fuel rest _ _ => ?_
      rw [compactWith, toList_stringText, List.cons_append, List.append_assoc,
        List.singleton_append, readValue_quote, readString_stringText, Option.map_some,
        String.ofList_toList]
  | .arr items, hj => readsBack_arr items (readsBackAll asciiOnly items hj)
  | .obj fields, hj => readsBack_obj fields hj.1 (readsBackFields asciiOnly fields hj.2)

theorem readsBackAll (asciiOnly : Bool) : (js : List Json) → ExactAll js →
    ∀ j ∈ js, j.Exact ∧ ReadsBack asciiOnly j
  | [], _ => nofun
  | j :: js, hjs =>
      List.forall_mem_cons.mpr ⟨⟨hjs.1, readsBack asciiOnly j hjs.1⟩,
        readsBackAll asciiOnly js hjs.2⟩

theorem readsBackFields (asciiOnly : Bool) : (fs : List (String × Json)) → ExactFields fs →
    ∀ f ∈ fs, f.2.Exact ∧ ReadsBack asciiOnly f.2
  | [], _ => nofun
  | (_, v) :: fs, hfs =>
      List.forall_mem_cons.mpr ⟨⟨hfs.1, readsBack asciiOnly v hfs.1⟩,
        readsBackFields asciiOnly fs hfs.2⟩

end

/-- **A DOCUMENT IS READ BACK** from its compact text. -/
theorem parse?_compactWith (asciiOnly : Bool) {j : Json} (hj : j.Exact) :
    parse? (j.compactWith asciiOnly) = some j := by
  obtain ⟨c, cs, hlist, hc⟩ := head_compactWith asciiOnly j hj
  have hread := readsBack asciiOnly j hj (2 * (j.compactWith asciiOnly).toList.length + 2) []
    (by omega) nofun
  unfold parse?
  rw [hlist, List.append_nil] at hread
  simp only [hlist, skipGap_of_opens hc, hread, bind, Option.bind_some]
  rfl

/-- Different documents have different texts. -/
theorem compactWith_injective {asciiOnly : Bool} {j k : Json} (hj : j.Exact) (hk : k.Exact)
    (h : j.compactWith asciiOnly = k.compactWith asciiOnly) : j = k := by
  have hread := parse?_compactWith asciiOnly hj
  rw [h, parse?_compactWith asciiOnly hk] at hread
  exact (Option.some.inj hread).symm

end Covenant.Document.Json
