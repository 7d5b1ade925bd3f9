import Covenant.Proofs.Text.Quoted

/-! # Quoted bytes — bytes are what their literal reads as

    Bytes are written like texts, with a mark in front and with no characters
    beyond ASCII.

    * One byte at a time: `written_encodeByte`, `ascii_encodeByte`.
    * The literal is one token with a mark (`passes_quoteBytes`), and is read
      back as the bytes (`concatenated_quoteBytes`). -/

namespace Covenant.Text

open Token

variable {q : Char}

/-! ## One byte -/

/-- The character with the number of a byte. -/
def charOfByte (b : UInt8) : Char := Char.ofNat b.toNat

theorem toNat_charOfByte (b : UInt8) : (charOfByte b).toNat = b.toNat := by
  have hvalid : b.toNat.isValidChar := .inl (Nat.lt_trans b.toNat_lt (by decide))
  rw [charOfByte, Char.ofNat, dif_pos hvalid]
  rfl

theorem written_encodeByte (hq : q = '\'' ∨ q = '"') (b : UInt8) :
    Written .bytes q (charOfByte b) (encodeByte q b) := by
  have hnumber := toNat_charOfByte b
  unfold encodeByte
  rw [← hnumber, Char.ofNat_toNat]
  generalize charOfByte b = c at hnumber
  dsimp only
  split_ifs with hquote htab hline hreturn hshown
  · rcases hquote with rfl | rfl
    · rcases hq with rfl | rfl
      · exact .simple _ rfl (by decide)
      · exact .simple _ rfl (by decide)
    · exact .simple _ rfl (by decide)
  · subst htab
    exact .simple _ rfl (by decide)
  · subst hline
    exact .simple _ rfl (by decide)
  · subst hreturn
    exact .simple _ rfl (by decide)
  · refine .plain ⟨fun h => hquote (.inl h), fun h => hquote (.inr h), hline⟩ ⟨?_, ?_⟩
    · simp [isLineBoundary]
      omega
    · rintro rfl
      exact absurd hshown (by decide)
  · refine .numeric 'x' 2 List.mem_cons_self ?_
    rw [hnumber]
    exact b.toNat_lt

theorem ascii_hexDigit : ∀ d < 16, (hexDigit d).toNat < 128 := by decide

theorem ascii_encodeByte (hq : q = '\'' ∨ q = '"') (b : UInt8) :
    ∀ c ∈ encodeByte q b, c.toNat < 128 := by
  have hquote : q.toNat < 128 := by rcases hq with rfl | rfl <;> decide
  have hescape {c : Char} (hc : c.toNat < 128) : ∀ d ∈ ['\\', c], d.toNat < 128 :=
    List.forall_mem_cons.mpr ⟨by decide, List.forall_mem_singleton.mpr hc⟩
  unfold encodeByte
  dsimp only
  split_ifs with h htab hline hreturn hshown
  · refine hescape ?_
    rcases h with h | h <;> rw [h]
    · exact hquote
    · decide
  · exact hescape (by decide)
  · exact hescape (by decide)
  · exact hescape (by decide)
  · refine List.forall_mem_singleton.mpr ?_
    have hnumber : (Char.ofNat b.toNat).toNat = b.toNat := toNat_charOfByte b
    omega
  · exact List.forall_mem_cons.mpr ⟨by decide, List.forall_mem_cons.mpr
      ⟨by decide, forall_hexDigits ascii_hexDigit 2 _⟩⟩

/-! ## Whole literals -/

/-- The quote around bytes. -/
def byteQuoteOf (bs : List UInt8) : Char := quoteFor (bs.contains 39) (bs.contains 34)

theorem byteQuoteOf_eq (bs : List UInt8) : byteQuoteOf bs = '\'' ∨ byteQuoteOf bs = '"' :=
  quoteFor_eq _ _

/-- The inside of the literal of bytes. -/
def quotedBytes (bs : List UInt8) : List Char := bs.flatMap (encodeByte (byteQuoteOf bs))

theorem toList_quoteBytes (bs : List UInt8) : (quoteBytes bs).toList
    = 'b' :: byteQuoteOf bs :: (quotedBytes bs ++ [byteQuoteOf bs]) := by
  unfold quoteBytes
  rw [String.toList_ofList]
  rfl

/-- How the bytes are written in their literal. -/
theorem written_quotedBytes (bs : List UInt8) (b : UInt8) :
    Written .bytes (byteQuoteOf bs) (charOfByte b) (encodeByte (byteQuoteOf bs) b) :=
  written_encodeByte (byteQuoteOf_eq bs) b

theorem flat_quoteBytes (bs : List UInt8) : ∀ d ∈ (quoteBytes bs).toList, IsFlat d := by
  have hquote : IsFlat (byteQuoteOf bs) := by
    rcases byteQuoteOf_eq bs with h | h <;> rw [h] <;> exact ⟨by decide, by decide⟩
  rw [toList_quoteBytes, List.forall_mem_cons, List.forall_mem_cons, List.forall_mem_append]
  exact ⟨⟨by decide, by decide⟩, hquote, flat_flatMap (written_quotedBytes bs) bs,
    List.forall_mem_singleton.mpr hquote⟩

/-- **BYTES AS A LITERAL** are one string token. -/
theorem scanToken_quoteBytes (bs : List UInt8) :
    scanToken (quoteBytes bs).toList = some (.string, (quoteBytes bs).toList, []) := by
  have hscan := scanString_flatMap (byteQuoteOf_eq bs) (written_quotedBytes bs) bs
  have hmarks (rest : List Char) : scanMarks {} ('b' :: byteQuoteOf bs :: rest)
      = some (['b'], byteQuoteOf bs :: rest) := by
    rcases byteQuoteOf_eq bs with h | h <;> rw [h] <;> rfl
  rw [toList_quoteBytes, scanToken, if_pos (by decide), scanWord, hmarks]
  dsimp only
  rw [quotedBytes, hscan]
  rfl

theorem passes_quoteBytes (bs : List UInt8) {tail b : List Char} (h : Tail tail) :
    Passes (quoteBytes bs).toList tail [(.string, quoteBytes bs)] b b := by
  have hscan := scanToken_tail h (scanToken_quoteBytes bs)
  have hlist := toList_quoteBytes bs
  rw [hlist] at hscan
  have hturns : Turns .string 'b' b b := turns_of_ne (by decide)
  have hpasses := passes_token (by decide) hturns hscan
  rwa [← hlist, String.ofList_toList] at hpasses

/-- The inside of a literal is read back. -/
theorem readBytes_quotedBytes (bs : List UInt8) : readBytes (quotedBytes bs) = some bs := by
  have hascii : (quotedBytes bs).all (·.toNat < 128) = true := by
    rw [List.all_eq_true]
    intro c hc
    obtain ⟨b, -, hc⟩ := List.mem_flatMap.mp hc
    exact decide_eq_true (ascii_encodeByte (byteQuoteOf_eq bs) b c hc)
  have hfuel : bs.length < (quotedBytes bs).length + 1 :=
    Nat.lt_succ_of_le (length_le_flatMap (byteQuoteOf_eq bs) (written_quotedBytes bs) _)
  have hread : unescape .bytes ((quotedBytes bs).length + 1) (quotedBytes bs) = _ :=
    unescape_flatMap (written_quotedBytes bs) _ hfuel
  rw [readBytes, if_pos hascii, hread, Option.map_some, List.map_map]
  simp [Function.comp_def, toNat_charOfByte]

end Covenant.Text

namespace Covenant.Grammar

open Text Covenant.Tree

theorem bareString_quoteBytes (bs : List UInt8) :
    (bareString (quoteBytes bs)).marks = ['b'] ∧ (bareString (quoteBytes bs)).body = quotedBytes bs :=
  bareString_of_marked (show (quoteBytes bs).toList = ['b'] ++ _ from toList_quoteBytes bs)
    (byteQuoteOf_eq bs) (List.forall_mem_singleton.mpr (by decide))
    (head_flatMap (byteQuoteOf_eq bs) (written_quotedBytes bs) bs)

theorem allBytes_quoteBytes (bs : List UInt8) : allBytes [quoteBytes bs] = true := by
  simp [allBytes, StringToken.isBytes, (bareString_quoteBytes bs).1]

/-- **BYTES AS A LITERAL** are read back as the constant that they are. -/
theorem constantOf_quoteBytes (bs : List UInt8) : constantOf [quoteBytes bs] = some (.bytes bs) := by
  obtain ⟨hmarks, hbody⟩ := bareString_quoteBytes bs
  have hraw : (bareString (quoteBytes bs)).isRaw = false := by
    simp [StringToken.isRaw, hmarks]
  have hinside : bytesOf (quoteBytes bs) = some bs := by
    rw [bytesOf, hraw, hbody]
    exact readBytes_quotedBytes bs
  rw [constantOf, if_pos (allBytes_quoteBytes bs), List.mapM_cons, hinside]
  simp

/-- A token that is bytes as a literal is read as these bytes. -/
theorem concatenated_quoteBytes {t : Token} {bs : List UInt8} (h : t.text = quoteBytes bs)
    (read : EmbeddedReader) : ∃ place, concatenated read [t] = some (.constant place (.bytes bs)) := by
  have hbytes : allBytes [t.text] = true := h ▸ allBytes_quoteBytes bs
  obtain ⟨place, hread⟩ := concatenated_eq read (List.cons_ne_nil t []) (.inl hbytes)
  refine ⟨place, hread.trans ?_⟩
  show (constantOf [t.text]).map _ = _
  rw [h, constantOf_quoteBytes]
  rfl

end Covenant.Grammar
