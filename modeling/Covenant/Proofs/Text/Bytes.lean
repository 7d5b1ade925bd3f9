import Mathlib.Data.List.Basic

/-! # Bytes — texts as they are stored

    A text is stored in UTF-8, character by character.

    * `toList_toUTF8` gives the bytes of a text as a list, and
      `fromUTF8?_bytes` reads them back.
    * `ten_not_mem_utf8EncodeChar`: only the line feed is stored with the byte
      of the line feed. -/

namespace Covenant.Text

/-- The bytes of some characters. -/
def bytesOf (cs : List Char) : List UInt8 := cs.flatMap String.utf8EncodeChar

@[simp] theorem bytesOf_append (xs ys : List Char) :
    bytesOf (xs ++ ys) = bytesOf xs ++ bytesOf ys := List.flatMap_append

theorem length_bytesOf_cons (c : Char) (cs : List Char) :
    (bytesOf (c :: cs)).length = c.utf8Size + (bytesOf cs).length := by
  rw [bytesOf, List.flatMap_cons, List.length_append, String.length_utf8EncodeChar]
  rfl

/-! ## Storage -/

/-- The bytes from an index on, one by one. -/
theorem toList_loop (b : ByteArray) (i : Nat) (acc : List UInt8) :
    ByteArray.toList.loop b i acc = acc.reverse ++ b.data.toList.drop i := by
  fun_induction ByteArray.toList.loop b i acc with
  | case1 i acc hi ih =>
      have hbyte : b.data.toList.drop i = b.get! i :: b.data.toList.drop (i + 1) := by
        have hlength : i < b.data.toList.length := hi
        rw [List.drop_eq_getElem_cons hlength]
        congr 1
        show b.data.toList[i] = b.data[i]!
        rw [getElem!_pos b.data i hi]
        rfl
      rw [ih, hbyte, List.reverse_cons, List.append_assoc]
      rfl
  | case2 i acc hi =>
      have hend : b.data.toList.drop i = [] := by
        rw [List.drop_eq_nil_iff]
        exact Nat.le_of_not_lt hi
      rw [hend, List.append_nil]

/-- The bytes of a text, as the text is stored. -/
theorem toUTF8_toList (s : String) : ByteArray.mk s.toUTF8.toList.toArray = s.toUTF8 := by
  show ByteArray.mk (ByteArray.toList.loop s.toUTF8 0 []).toArray = _
  rw [toList_loop]
  rfl

/-- The bytes of a text are those of its characters. -/
theorem toList_toUTF8 (s : String) : s.toUTF8.toList = bytesOf s.toList := by
  show ByteArray.toList.loop s.toUTF8 0 [] = _
  rw [toList_loop, String.toUTF8_eq_toByteArray, ← String.utf8Encode_toList, List.utf8Encode,
    List.data_toByteArray]
  rfl

theorem fromUTF8?_toUTF8 (s : String) : String.fromUTF8? s.toUTF8 = some s :=
  (dif_pos s.isValidUTF8).trans rfl

/-- Some characters are read back from their bytes. -/
theorem fromUTF8?_bytesOf (cs : List Char) :
    String.fromUTF8? (ByteArray.mk (bytesOf cs).toArray) = some (String.ofList cs) := by
  have hbytes : bytesOf cs = (String.ofList cs).toUTF8.toList := by
    rw [toList_toUTF8, String.toList_ofList]
  rw [hbytes, toUTF8_toList, fromUTF8?_toUTF8]

/-! ## Line feeds -/

/-- A byte with the mark of a longer character is no line feed. -/
theorem or_ne_ten (b : UInt8) : ∀ mark ∈ [0x80, 0xc0, 0xe0, 0xf0], b ||| mark ≠ 10 := by
  -- the marks have the highest bit, which the line feed has not
  have hhigh : ∀ mark ∈ ([0x80, 0xc0, 0xe0, 0xf0] : List UInt8),
      mark.toNat.testBit 7 = true := by
    simp only [List.forall_mem_cons]
    exact ⟨by decide, by decide, by decide, by decide, nofun⟩
  intro mark hmark h
  have hbit : (b.toNat ||| mark.toNat).testBit 7 = true := by
    rw [Nat.testBit_or, hhigh mark hmark, Bool.or_true]
  rw [← UInt8.toNat_or, h] at hbit
  exact absurd hbit (by decide)

/-- Only the line feed is stored with the byte of the line feed. -/
theorem ten_not_mem_utf8EncodeChar {c : Char} (h : c ≠ '\n') : 10 ∉ String.utf8EncodeChar c := by
  intro hmem
  rcases Char.utf8Size_eq c with hsize | hsize | hsize | hsize
  · rw [String.utf8EncodeChar_eq_singleton hsize, List.mem_singleton] at hmem
    have hsmall := Char.utf8Size_eq_one_iff.mp hsize
    have hten : c.val.toNat % 256 = 10 := (congrArg UInt8.toNat hmem).symm
    have hle : c.val.toNat ≤ 127 := UInt32.le_iff_toNat_le.mp hsmall
    refine h (Char.ext (UInt32.toNat_inj.mp ?_))
    show c.val.toNat = 10
    omega
  · rw [String.utf8EncodeChar_eq_cons_cons hsize] at hmem
    simp only [List.mem_cons, List.not_mem_nil, or_false] at hmem
    rcases hmem with hmem | hmem
    · exact or_ne_ten _ 0xc0 (by decide) hmem.symm
    · exact or_ne_ten _ 0x80 (by decide) hmem.symm
  · rw [String.utf8EncodeChar_eq_cons_cons_cons hsize] at hmem
    simp only [List.mem_cons, List.not_mem_nil, or_false] at hmem
    rcases hmem with hmem | hmem | hmem
    · exact or_ne_ten _ 0xe0 (by decide) hmem.symm
    · exact or_ne_ten _ 0x80 (by decide) hmem.symm
    · exact or_ne_ten _ 0x80 (by decide) hmem.symm
  · rw [String.utf8EncodeChar_eq_cons_cons_cons_cons hsize] at hmem
    simp only [List.mem_cons, List.not_mem_nil, or_false] at hmem
    rcases hmem with hmem | hmem | hmem | hmem
    · exact or_ne_ten _ 0xf0 (by decide) hmem.symm
    · exact or_ne_ten _ 0x80 (by decide) hmem.symm
    · exact or_ne_ten _ 0x80 (by decide) hmem.symm
    · exact or_ne_ten _ 0x80 (by decide) hmem.symm

end Covenant.Text
