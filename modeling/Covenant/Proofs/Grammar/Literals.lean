import Covenant.Grammar.StringLiteral

/-! # Literals — what string tokens mean, wherever they stand

    A literal without interpolation is a constant that depends on the texts of
    its tokens alone (`concatenated_eq`).  With interpolation it is no constant
    (`constant_of_concatenated`). -/

namespace Covenant.Grammar

open Text Covenant.Tree

variable {ts us : List Token} {e : Expr} {c : Constant}

/-- A step on string tokens that looks at their texts only. -/
theorem mapM_ofToken {α : Type} {f : StringToken → Option α} {g : String → Option α}
    (h : ∀ t ∈ ts, f (.ofToken t) = g t.text) :
    (ts.map StringToken.ofToken).mapM f = (ts.map (·.text)).mapM g := by
  induction ts with
  | nil => rfl
  | cons t ts ih =>
      rw [List.forall_mem_cons] at h
      rw [List.map_cons, List.map_cons, List.mapM_cons, List.mapM_cons, h.1, ih h.2]

/-- A string token of which only the text matters. -/
def bareString (text : String) : StringToken := .ofToken ⟨.string, text, nowhere⟩

/-- The bytes of a literal. -/
def bytesOf (text : String) : Option (List UInt8) :=
  let t := bareString text
  if t.isRaw then
    if t.body.all (·.toNat < 128) then some (t.body.map fun c => c.toNat.toUInt8) else none
  else readBytes t.body

/-- The pieces of a literal without interpolation. -/
def piecesOf (text : String) : Option (List Piece) :=
  let t := bareString text
  let text? := if t.isRaw then some t.body else readText t.body
  text?.map fun text => if text.isEmpty then [] else [.text text]

/-- Whether all literals are of bytes. -/
def allBytes (texts : List String) : Bool := texts.all fun s => (bareString s).isBytes

/-- Whether any literal is interpolated. -/
def anyFormat (texts : List String) : Bool := texts.any fun s => (bareString s).isFormat

/-- The text that pieces start with. -/
def leadingText : List Piece → String
  | .text cs :: _ => String.ofList cs
  | _ => ""

/-- The constant that literals without interpolation form. -/
def constantOf (texts : List String) : Option Constant :=
  if allBytes texts then
    (texts.mapM bytesOf).map fun bytes => .bytes bytes.flatten
  else if texts.any fun s => (bareString s).isBytes then none
  else
    (texts.mapM piecesOf).map fun pieces =>
      .str (leadingText (mergeTexts pieces.flatten)) ((texts.headD "").startsWith "u")

theorem all_isBytes : (ts.map StringToken.ofToken).all StringToken.isBytes
    = allBytes (ts.map (·.text)) := by
  rw [allBytes, List.all_map, List.all_map]
  rfl

theorem any_isBytes : (ts.map StringToken.ofToken).any StringToken.isBytes
    = (ts.map (·.text)).any fun s => (bareString s).isBytes := by
  rw [List.any_map, List.any_map]
  rfl

theorem any_isFormat : (ts.map StringToken.ofToken).any StringToken.isFormat
    = anyFormat (ts.map (·.text)) := by
  rw [anyFormat, List.any_map, List.any_map]
  rfl

/-- The pieces of a token that is not interpolated. -/
theorem tokenPieces_eq {whole : Span} {read : EmbeddedReader} {t : Token}
    (h : (bareString t.text).isFormat = false) :
    tokenPieces whole read (.ofToken t) = piecesOf t.text := by
  have hnot : ¬ (StringToken.ofToken t).isFormat = true := Bool.eq_false_iff.mp h
  rw [tokenPieces, if_neg hnot]
  show _ = (unescaped (StringToken.ofToken t).isRaw (StringToken.ofToken t).body).map _
  cases unescaped (StringToken.ofToken t).isRaw (StringToken.ofToken t).body <;> rfl

/-- **A LITERAL WITHOUT INTERPOLATION** is a constant of its texts. -/
theorem concatenated_eq (read : EmbeddedReader) (hne : ts ≠ [])
    (h : allBytes (ts.map (·.text)) = true ∨ anyFormat (ts.map (·.text)) = false) :
    ∃ place, concatenated read ts = (constantOf (ts.map (·.text))).map (.constant place) := by
  have hlast := List.getLast?_eq_some_getLast hne
  have hfirst := List.head?_eq_some_head hne
  have hmarks : (ts.map (·.text)).headD "" = (ts.head hne).text := by
    rw [List.headD_eq_head?_getD, List.head?_map, hfirst]
    rfl
  refine ⟨⟨(ts.head hne).span.start, (ts.getLast hne).span.stop⟩, ?_⟩
  rw [concatenated, hlast, hfirst, constantOf]
  simp only [bind, Option.bind_some, all_isBytes, any_isBytes, any_isFormat, hmarks]
  split
  · rw [mapM_ofToken (g := bytesOf) fun t _ => rfl]
    cases (ts.map (·.text)).mapM bytesOf <;> rfl
  · rename_i hbytes
    have hformat : anyFormat (ts.map (·.text)) = false := h.resolve_left hbytes
    split
    · rfl
    · have hpieces : ∀ t ∈ ts, tokenPieces ⟨(ts.head hne).span.start, (ts.getLast hne).span.stop⟩
          read (.ofToken t) = piecesOf t.text := by
        intro t ht
        refine tokenPieces_eq (Bool.eq_false_iff.mpr fun hf => ?_)
        have hany : anyFormat (ts.map (·.text)) = true :=
          List.any_eq_true.mpr ⟨t.text, List.mem_map.mpr ⟨t, ht, rfl⟩, hf⟩
        rw [hformat] at hany
        exact nomatch hany
      rw [mapM_ofToken hpieces, hformat]
      cases (ts.map (·.text)).mapM piecesOf with
      | none => rfl
      | some pieces =>
          simp only [Option.bind_some, Option.map_some, Bool.false_eq_true, if_false]
          cases mergeTexts pieces.flatten with
          | nil => rfl
          | cons p ps => cases p <;> rfl

/-- What literals form is a constant of their texts, or an interpolated string. -/
theorem constant_of_concatenated {read : EmbeddedReader} (h : concatenated read ts = some e) :
    (∃ place ps, e = .compound place .joinedStr ps) ∨
      ∃ place c, e = .constant place c ∧
        ∀ read us, us.map (·.text) = ts.map (·.text) →
          ∃ place, concatenated read us = some (.constant place c) := by
  have hne : ts ≠ [] := by
    rintro rfl
    exact nomatch h
  by_cases hplain : allBytes (ts.map (·.text)) = true ∨ anyFormat (ts.map (·.text)) = false
  · obtain ⟨place, heq⟩ := concatenated_eq read hne hplain
    rw [heq] at h
    obtain ⟨c, hc, rfl⟩ := Option.map_eq_some_iff.mp h
    refine .inr ⟨place, c, rfl, fun read us hus => ?_⟩
    have hne' : us ≠ [] := by
      rintro rfl
      exact hne (List.map_eq_nil_iff.mp hus.symm)
    obtain ⟨place', heq'⟩ := concatenated_eq read hne' (hus ▸ hplain)
    exact ⟨place', by rw [heq', hus, hc]; rfl⟩
  · obtain ⟨hbytes, hformat⟩ := not_or.mp hplain
    rw [Bool.not_eq_false] at hformat
    rw [concatenated, List.getLast?_eq_some_getLast hne, List.head?_eq_some_head hne] at h
    simp only [bind, Option.bind_some, all_isBytes, any_isBytes, any_isFormat, hformat,
      if_neg hbytes, if_true] at h
    split at h
    · exact nomatch h
    · obtain ⟨pieces, -, h⟩ := Option.bind_eq_some_iff.mp h
      exact .inl ⟨_, _, (Option.some.inj h).symm⟩

end Covenant.Grammar
