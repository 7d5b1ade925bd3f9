import Covenant.Proofs.Emission.Bodies
import Covenant.Proofs.Signature.Declared

/-! # Parameters — how an emitted wrapper declares them

    A parameter is declared with its stars, its name, its type and its
    default, where a placeholder stands for a default that is no literal.

    * Types and literal defaults are texts of the source; what is asked of
      them is what is asked of clauses (`Inset`).
    * A parameter with such texts is written as a part of a parameter list
      that stands for it (`Stated.writes`). -/

namespace Covenant.Wrapper

open Text Token Grammar Signature Declaration Covenant.Tree Reader
open Covenant.Value (Datum)

variable {cs tail : List Char} {text : String} {b : List Char} {p : Parameter Datum}
  {ps : List (Parameter Datum)} {part : Part} {parts : List Part}

/-! ## Texts of the source -/

/-- A text of one line that can be put between other tokens, where no comment swallows what stands
    behind it, and that is read as one expression. -/
structure Inset (s : String) : Prop where
  flat : FlatText s.toList
  starts : ∃ ch ∈ s.toList.head?, StartsToken ch ∧ ch ≠ '='
  bracketed : (lexBracketed Pos.start s.toList).isSome
  reads : ∃ e, readSingle? s.toList = some e ∧ e.Plain anyCall

theorem Inset.passes (h : Inset text) : ∃ fs, (∃ e, Spells fs e) ∧ ∀ around, Around around →
    ∀ tail, Tail tail → Token.Passes text.toList tail fs around around := by
  have hline : OneLine text.toList := by
    obtain ⟨ch, hhead, hch, -⟩ := h.starts
    obtain ⟨more, hmore⟩ := List.head?_eq_some_iff.mp hhead
    exact ⟨⟨ch, more, hmore, hch⟩, fun hmem => absurd (h.flat _ hmem).1 (by decide),
      fun hmem => absurd (h.flat _ hmem).1 (by decide)⟩
  obtain ⟨e, hread, hplain⟩ := h.reads
  obtain ⟨ts, hts, hpasses⟩ := passes_of_readSingle? hline hread hplain h.bracketed
  exact ⟨faces ts, ⟨e, .of_derives hts⟩, hpasses⟩

theorem ends_blank : Ends ' ' := ⟨by decide, by decide, by decide, by decide, by decide⟩

theorem ends_colon : Ends ':' := ⟨by decide, by decide, by decide, by decide, by decide⟩

/-! ## Parameters -/

/-- The characters of a part, in front of a comma or the closing bracket. -/
def WritesPart (cs : List Char) (part : Part) : Prop :=
  part.Spelled ∧ FlatText cs ∧
    ∀ tail, Tail tail → Token.Passes cs tail part.faces [')'] [')']

/-- The texts of a parameter can be put into the head of a function. -/
structure Stated (p : Parameter Datum) : Prop where
  name : IsName p.name
  hint : ∀ t ∈ present p.typeText, Inset t
  default : p.kind.isOptional = true → hasLiteralDefault p = true → Inset (defaultText p)

/-- The type of a parameter with the sign in front of it. -/
def hintText (p : Parameter Datum) : String :=
  match present p.typeText with
  | some a => ": " ++ a
  | none => ""

/-- The default of a parameter; a placeholder stands for one that is no literal. -/
def defaultValue (p : Parameter Datum) : String :=
  if hasLiteralDefault p then defaultText p else placeholder

/-- The default of a parameter with the sign in front of it. -/
def defaultPart (p : Parameter Datum) : String :=
  if p.kind.isOptional then
    (if (present p.typeText).isSome then " = " else "=")
      ++ defaultValue p
  else ""

/-- The stars in front of a parameter. -/
def starsOf (k : ParameterKind) : String :=
  match k with
  | .variadicPositional => "*"
  | .variadicNamed => "**"
  | _ => ""

theorem parameterText_eq (p : Parameter Datum) :
    parameterText (some placeholder) p = starsOf p.kind ++ p.name ++ hintText p ++ defaultPart p := by
  have hplaceholder : present (some placeholder) = some placeholder := rfl
  unfold parameterText defaultPart defaultValue
  rw [hplaceholder]
  rfl

theorem Stated.writes_value (h : Stated p) (hoptional : p.kind.isOptional = true) :
    ∃ fs, (∃ e, Spells fs e) ∧ FlatText (defaultValue p).toList ∧
      (∃ c more, (defaultValue p).toList = c :: more ∧ c ≠ '=') ∧
      ∀ tail, Tail tail → Token.Passes (defaultValue p).toList tail fs [')'] [')'] := by
  rw [defaultValue]
  split_ifs with hliteral
  · have hinset := h.default hoptional hliteral
    obtain ⟨fs, hspells, hpasses⟩ := hinset.passes
    obtain ⟨c, hhead, -, hc⟩ := hinset.starts
    obtain ⟨more, hmore⟩ := List.head?_eq_some_iff.mp hhead
    exact ⟨fs, hspells, hinset.flat, ⟨c, more, hmore, hc⟩, hpasses _ (.inr rfl)⟩
  · exact ⟨[wordFace placeholder], ⟨_, spells_name (by decide)⟩, by decide,
      ⟨'U', _, rfl, by decide⟩,
      fun tail htail => passes_text (by decide) (endsName_of_tail htail)⟩

/-- The default of a parameter is written behind its sign. -/
theorem Stated.writes_default (h : Stated p) : ∃ default : Option (List Face),
    default.isSome = p.kind.isOptional ∧ (∀ fs ∈ default, ∃ e, Spells fs e) ∧
      FlatText (defaultPart p).toList ∧
      (∀ c ∈ (defaultPart p).toList.head?, c = ' ' ∨ c = '=' ∧ present p.typeText = none) ∧
      ∀ tail, Tail tail →
        Token.Passes (defaultPart p).toList tail (Part.signed "=" default) [')'] [')'] := by
  rw [defaultPart]
  cases hoptional : p.kind.isOptional with
  | false =>
      rw [if_neg Bool.false_ne_true]
      exact ⟨none, rfl, nofun, by decide, nofun, fun _ _ => passes_nil⟩
  | true =>
      obtain ⟨fs, hspells, hflat, ⟨c, more, hlist, hc⟩, hpasses⟩ := h.writes_value hoptional
      rw [if_pos rfl, String.toList_append]
      refine ⟨some fs, rfl, ?_, ?_, ?_, fun tail htail => ?_⟩
      · rintro _ ⟨⟩
        exact hspells
      · rw [flatText_append]
        refine ⟨?_, hflat⟩
        split_ifs <;> decide
      · cases hhint : present p.typeText with
        | none =>
            intro c hc
            obtain rfl : '=' = c := Option.some.inj hc
            exact .inr ⟨rfl, rfl⟩
        | some a =>
            intro c hc
            rw [Option.isSome_some, if_pos rfl] at hc
            obtain rfl : ' ' = c := Option.some.inj hc
            exact .inl rfl
      · have hvalue := hpasses tail htail
        cases present p.typeText with
        | none =>
            have hsign : Token.Passes ['='] ((defaultValue p).toList ++ tail) [signFace "="]
                [')'] [')'] := by
              rw [hlist]
              exact passes_equals hc
            exact hsign.append hvalue
        | some a =>
            have hblank {rest : List Char} : Token.Passes [' '] rest [] [')'] [')'] :=
              passes_blank (.inl rfl)
            have hsign {rest : List Char} : Token.Passes " = ".toList rest [signFace "="]
                [')'] [')'] :=
              hblank.append ((passes_equals (by decide)).append hblank)
            exact hsign.append hvalue

/-- **THE DECLARED TYPE AND THE DEFAULT** of a parameter are written behind its name. -/
theorem Stated.writes_rest (h : Stated p) : ∃ hint default : Option (List Face),
    (∀ fs ∈ hint, ∃ e, Spells fs e) ∧ default.isSome = p.kind.isOptional ∧
      (∀ fs ∈ default, ∃ e, Spells fs e) ∧ FlatText (hintText p ++ defaultPart p).toList ∧
      ∀ tail, Tail tail → EndsName ((hintText p ++ defaultPart p).toList ++ tail) ∧
        Token.Passes (hintText p ++ defaultPart p).toList tail
          (Part.signed ":" hint ++ Part.signed "=" default) [')'] [')'] := by
  obtain ⟨default, hsome, hdefault, hflat, hhead, hpasses⟩ := h.writes_default
  rw [hintText, String.toList_append]
  cases hhint : present p.typeText with
  | none =>
      refine ⟨none, default, nofun, hsome, hdefault, hflat, fun tail htail => ⟨?_, hpasses tail htail⟩⟩
      show EndsName ((defaultPart p).toList ++ tail)
      cases hlist : (defaultPart p).toList with
      | nil => exact endsName_of_tail htail
      | cons c cs =>
          rcases hhead c (by rw [hlist]; rfl) with rfl | ⟨rfl, -⟩ <;>
            exact endsName_cons (by decide)
  | some a =>
      have hinset : Inset a := h.hint a hhint
      obtain ⟨fs, hspells, hhintPasses⟩ := hinset.passes
      refine ⟨some fs, default, ?_, hsome, hdefault, ?_, fun tail htail => ⟨?_, ?_⟩⟩
      · rintro _ ⟨⟩
        exact hspells
      · rw [String.toList_append, flatText_append, flatText_append]
        exact ⟨⟨by decide, hinset.flat⟩, hflat⟩
      · rw [String.toList_append]
        exact endsName_cons (by decide)
      · -- behind the type there is a blank or what stands behind the parameter
        have htail' : Tail ((defaultPart p).toList ++ tail) := by
          cases hlist : (defaultPart p).toList with
          | nil => exact htail
          | cons c cs =>
              rcases hhead c (by rw [hlist]; rfl) with rfl | ⟨-, hnone⟩
              · exact ⟨' ', _, rfl, ends_blank⟩
              · rw [hhint] at hnone
                cases hnone
        have hblank {rest : List Char} : Token.Passes [' '] rest [] [')'] [')'] :=
          passes_blank (.inl rfl)
        have hsign {rest : List Char} : Token.Passes ": ".toList rest [signFace ":"] [')'] [')'] :=
          (passes_colon (by decide)).append hblank
        rw [String.toList_append, List.append_assoc]
        exact hsign.append ((hhintPasses _ (.inr rfl) _ htail').append (hpasses tail htail))

/-- **A PARAMETER** is written as the part that stands for it. -/
theorem Stated.writes (h : Stated p) :
    ∃ part, StandsFor p part ∧ WritesPart (parameterText (some placeholder) p).toList part := by
  obtain ⟨hint, default, hhint, hsome, hdefault, hflat, hrest⟩ := h.writes_rest
  obtain ⟨c, more, hlist, hstar, hequals⟩ := exists_cons_of_isIdentifier h.name.1
  have htext : (parameterText (some placeholder) p).toList
      = (starsOf p.kind).toList ++ (p.name.toList ++ (hintText p ++ defaultPart p).toList) := by
    rw [parameterText_eq]
    simp
  have hname {tail : List Char} (htail : Tail tail) :
      Token.Passes (p.name.toList ++ (hintText p ++ defaultPart p).toList) tail
        (wordFace p.name :: (Part.signed ":" hint ++ Part.signed "=" default)) [')'] [')'] :=
    (passes_text h.name.1 (hrest tail htail).1).append (hrest tail htail).2
  refine ⟨partFor p hint default, ⟨hint, default, rfl, hsome⟩, ?_, ?_, fun tail htail => ?_⟩
  · unfold partFor
    split <;> first | exact ⟨h.name.2, hhint⟩ | exact ⟨h.name.2, hhint, hdefault⟩
  · rw [htext, flatText_append, flatText_append]
    refine ⟨?_, h.name.flat, hflat⟩
    unfold starsOf
    split <;> decide
  · have hname := hname htail
    have hstars : ∃ signs, Token.Passes (starsOf p.kind).toList
        (p.name.toList ++ (hintText p ++ defaultPart p).toList ++ tail) signs [')'] [')'] ∧
        (partFor p hint default).faces = signs
          ++ wordFace p.name :: (Part.signed ":" hint ++ Part.signed "=" default) := by
      rw [hlist]
      unfold partFor starsOf
      cases hkind : p.kind with
      | variadicPositional =>
          rw [hkind] at hsome
          obtain rfl := Option.not_isSome_iff_eq_none.mp (Bool.eq_false_iff.mp hsome)
          refine ⟨[signFace "*"], passes_star ⟨hstar, hequals⟩, ?_⟩
          rw [Part.faces, Part.signed, List.append_nil]
          rfl
      | variadicNamed =>
          rw [hkind] at hsome
          obtain rfl := Option.not_isSome_iff_eq_none.mp (Bool.eq_false_iff.mp hsome)
          refine ⟨[signFace "**"], passes_stars hequals, ?_⟩
          rw [Part.faces, Part.signed, List.append_nil]
          rfl
      | requiredPositional | optionalPositional | requiredNamed | optionalNamed =>
          exact ⟨[], passes_nil, rfl⟩
    obtain ⟨signs, hsigns, hfaces⟩ := hstars
    rw [htext, hfaces]
    exact hsigns.append hname

end Covenant.Wrapper
