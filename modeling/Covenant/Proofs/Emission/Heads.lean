import Covenant.Proofs.Emission.Parameters
import Covenant.Source.Reader

/-! # Heads — the definitions of an emitted module

    The head of an emitted wrapper declares its receiver and the parameters of
    the implementation, with marks between their groups, and may declare what
    it returns.

    * The parts of the declaration are written one behind the other
      (`writes_declaration`).
    * The line of the head is read with the name of the wrapper
      (`Declarable.lineText`), and a definition with its block below it
      (`Printed.function`).
    * A type that stood in brackets over several lines is written without them,
      and such a line is not read. -/

namespace Covenant.Wrapper

open Text Token Grammar Signature Declaration Covenant.Tree Reader
open Covenant.Value (Datum)

variable {cs tail rest : List Char} {text : String} {p : Parameter Datum}
  {ps : List (Parameter Datum)} {part : Part} {parts : List Part} {texts : List String}
  {n : Nat} {lines : List (List Char)} {Ps : List (Stmt → Prop)} {d : Descriptor Datum}

/-! ## Declarations -/

/-- A sign of one character between parameters. -/
theorem writesPart_sign {c : Char} {sign : String} (hflat : IsFlat c)
    (hpart : part.Spelled ∧ part.faces = [signFace sign])
    (hpasses : ∀ {e rest}, Ends e → Token.Passes [c] (e :: rest) [signFace sign] [')'] [')']) :
    WritesPart [c] part := by
  refine ⟨hpart.1, List.forall_mem_singleton.mpr hflat, fun tail htail => ?_⟩
  obtain ⟨e, rest, rfl, he⟩ := htail
  rw [hpart.2]
  exact hpasses he

theorem writesPart_loneStar : WritesPart ['*'] .loneStar :=
  writesPart_sign (by decide) ⟨trivial, rfl⟩ fun he => passes_star
    ⟨fun h => he.operator "**" (by decide) (h ▸ by decide),
      fun h => he.operator "==" (by decide) (h ▸ by decide)⟩

theorem writesPart_slash : WritesPart ['/'] .slash :=
  writesPart_sign (by decide) ⟨trivial, rfl⟩ fun he => passes_slash
    ⟨fun h => he.operator "//" (by decide) (h ▸ by decide),
      fun h => he.operator "==" (by decide) (h ▸ by decide)⟩

/-- The characters of several parts. -/
def WritesParts : List String → List Part → Prop :=
  List.Forall₂ fun text part => WritesPart text.toList part

/-- The parts of a declaration are written as they are placed. -/
theorem writesParts_declaration {partOf : Parameter Datum → Part} {slash : Nat} {starred : Bool}
    (h : ∀ p ∈ ps, WritesPart (parameterText (some placeholder) p).toList (partOf p)) :
    WritesParts (declarationParts (some placeholder) slash starred ps)
      (placedParts partOf slash starred ps) := by
  induction ps generalizing slash starred with
  | nil => exact .nil
  | cons p ps ih =>
      rw [List.forall_mem_cons] at h
      have hstar : WritesParts (if p.kind.isNamed && !starred then ["*"] else [])
          (loneStarFor p starred) := by
        rw [loneStarFor]
        split_ifs
        · exact .cons writesPart_loneStar .nil
        · exact .nil
      have hslash : WritesParts (if slash = 1 then ["/"] else []) (slashBehind slash) := by
        rw [slashBehind]
        split_ifs
        · exact .cons writesPart_slash .nil
        · exact .nil
      rw [declarationParts, placedParts]
      exact List.rel_append (List.rel_append (List.rel_append hstar (.cons h.1 .nil)) hslash)
        (ih h.2)

/-- Parts with commas between them are passed over up to the closing bracket. -/
theorem WritesParts.passes (h : WritesParts texts parts) (rest : List Char) :
    Token.Passes (", ".intercalate texts).toList (')' :: rest) (partFaces parts) [')'] [')'] := by
  rw [String.toList_intercalate]
  induction h with
  | nil => exact passes_nil
  | cons hone hmore ih =>
      rename_i text part texts parts
      obtain ⟨-, -, hone⟩ := hone
      cases hmore with
      | nil =>
          rw [List.map_singleton, List.intercalate_singleton, partFaces, moreFaces, List.flatMap_nil,
            List.append_nil]
          exact hone _ ⟨_, _, rfl, ends_round⟩
      | cons hnext hmore =>
          rename_i next part' texts parts
          have hblank {rest : List Char} : Token.Passes [' '] rest [] [')'] [')'] :=
            passes_blank (.inl rfl)
          have hcomma {rest : List Char} : Token.Passes ", ".toList rest [signFace ","] [')'] [')'] :=
            passes_comma.append hblank
          rw [List.map_cons, List.map_cons, List.intercalate_cons_cons, List.append_assoc, partFaces,
            moreFaces, List.flatMap_cons]
          exact (hone _ ⟨_, _, rfl, ends_comma⟩).append (hcomma.append ih)

theorem WritesParts.flat (h : WritesParts texts parts) :
    FlatText (", ".intercalate texts).toList := by
  refine flatText_intercalate (by decide) ?_
  induction h with
  | nil => exact nofun
  | cons hone _ ih => exact List.forall_mem_cons.mpr ⟨hone.2.1, ih⟩

theorem WritesParts.spelled (h : WritesParts texts parts) : ∀ part ∈ parts, part.Spelled := by
  induction h with
  | nil => exact nofun
  | cons hone _ ih => exact List.forall_mem_cons.mpr ⟨hone.1, ih⟩

/-- What the head of a wrapper is made of can be declared. -/
structure Declarable (d : Descriptor Datum) : Prop where
  name : IsName d.publicName
  parameters : ∀ p ∈ d.signature.declaration, Stated p
  order : d.signature.declaration.Pairwise Behind
  positional : ∀ p ∈ d.signature.declaration, p.positionalOnly = true →
    rank p.kind < rank .variadicPositional
  receiver : ∀ r ∈ present d.signature.receiver, IsName r
  typeParameters : d.signature.typeParameters = []
  returns : ∀ t ∈ present d.returns, Inset t

/-- The parameters of a wrapper: its receiver, then those of the implementation. -/
def Descriptor.declaredNames (d : Descriptor Datum) : List String :=
  (present d.signature.receiver).toList ++ d.signature.declaration.map (·.name)

/-- **THE DECLARATION** is written as a parameter list that is read. -/
theorem Declarable.writes_declaration (h : Declarable d) : ∃ texts parts,
    d.signature.declarationText true (some placeholder) = ", ".intercalate texts ∧
      WritesParts texts parts ∧ parts.flatMap Part.names = d.declaredNames ∧
      ∃ m, Marks.enterAll {} parts = some m ∧ m.needsNamed = false := by
  have hparts : ∀ p ∈ d.signature.declaration, ∃ part, StandsFor p part ∧
      WritesPart (parameterText (some placeholder) p).toList part :=
    fun p hp => (h.parameters p hp).writes
  have : Nonempty Part := ⟨.slash⟩
  choose! partOf hpartOf using hparts
  let slash := slashAfter d.signature.declaration
  let starred := d.signature.declaration.any (·.kind = .variadicPositional)
  have hplaced : WritesParts
      (declarationParts (some placeholder) slash starred d.signature.declaration)
      (placedParts partOf slash starred d.signature.declaration) :=
    writesParts_declaration fun p hp => (hpartOf p hp).2
  have hnames : (placedParts partOf slash starred d.signature.declaration).flatMap Part.names
      = d.signature.declaration.map (·.name) := names_placedParts fun p hp => (hpartOf p hp).1
  have hstarts {m : Grammar.Marks} (hm : m = { positional := m.positional }) :
      Awaits m slash starred d.signature.declaration := by
    rw [hm]
    exact ⟨rfl, fun hclosed => Bool.noConfusion hclosed, fun hdefaulted => Bool.noConfusion hdefaulted,
      fun hstarred => Bool.noConfusion hstarred, rfl,
      positional_of_slashAfter h.order h.positional, fun _ => rfl⟩
  have hall {m : Grammar.Marks} (hm : m = { positional := m.positional }) :=
    enterAll_placedParts (hstarts hm) h.order fun p hp => (hpartOf p hp).1
  cases hreceiver : present d.signature.receiver with
  | none =>
      refine ⟨_, _, ?_, hplaced, ?_, hall rfl⟩
      · rw [declarationText, if_pos rfl, hreceiver]
        rfl
      · rw [hnames, Descriptor.declaredNames, hreceiver]
        rfl
  | some r =>
      have hr : IsName r := h.receiver r hreceiver
      have hpart : WritesPart r.toList (.plain r none none) :=
        ⟨⟨hr.2, nofun, nofun⟩, hr.flat, fun tail htail => passes_text hr.1 (endsName_of_tail htail)⟩
      refine ⟨_, _, ?_, .cons hpart hplaced, ?_, ?_⟩
      · rw [declarationText, if_pos rfl, hreceiver]
        rfl
      · rw [List.flatMap_cons, hnames, Descriptor.declaredNames, hreceiver]
        rfl
      · obtain ⟨m, henter, hm⟩ := hall (m := { positional := true }) rfl
        exact ⟨m, henter, hm⟩

/-! ## Lines -/

/-- What a wrapper is declared to return. -/
def Descriptor.returnsText (d : Descriptor Datum) : String :=
  match present d.returns with
  | some r => " -> " ++ r
  | none => ""

/-- The line that declares a wrapper. -/
def Descriptor.definitionText (d : Descriptor Datum) : String :=
  (if d.isAsync then "async def " else "def ") ++ d.publicName ++ d.signature.typeParameterText ++ "("
    ++ d.signature.declarationText true (some placeholder) ++ ")" ++ d.returnsText ++ ":"

theorem headLines_eq (d : Descriptor Datum) :
    d.headLines = (if d.isFactory then ["@classmethod"] else []) ++ [d.definitionText] := rfl

theorem Declarable.writes_returns (h : Declarable d) : ∃ returns : Option (List Face),
    (∀ fs ∈ returns, ∃ e, Spells fs e) ∧ FlatText d.returnsText.toList ∧
      ∀ rest, Token.Passes d.returnsText.toList (':' :: rest) (Part.signed "->" returns) [] [] := by
  rw [Descriptor.returnsText]
  cases hreturns : present d.returns with
  | none => exact ⟨none, nofun, by decide, fun _ => passes_nil⟩
  | some r =>
      have hinset : Inset r := h.returns r hreturns
      obtain ⟨fs, hspells, hpasses⟩ := hinset.passes
      have hblank {rest : List Char} : Token.Passes [' '] rest [] [] [] := passes_blank (.inl rfl)
      have harrow {rest : List Char} : Token.Passes " -> ".toList rest [signFace "->"] [] [] :=
        hblank.append (passes_arrow.append hblank)
      refine ⟨some fs, ?_, ?_, fun rest => ?_⟩
      · rintro _ ⟨⟩
        exact hspells
      · rw [String.toList_append, flatText_append]
        exact ⟨by decide, hinset.flat⟩
      · rw [String.toList_append]
        exact harrow.append (hpasses _ (.inl rfl) _ ⟨_, _, rfl, ends_colon⟩)

/-- **THE LINE** that declares a wrapper is read as a head with its name. -/
theorem Declarable.lineText (h : Declarable d) : ∃ parts returns,
    Head.Readable ⟨d.isAsync, d.publicName, parts, returns⟩ ∧
      LineText d.definitionText.toList (Head.faces ⟨d.isAsync, d.publicName, parts, returns⟩) ∧
      FlatText d.definitionText.toList ∧ parts.flatMap Part.names = d.declaredNames := by
  obtain ⟨texts, parts, htexts, hparts, hnames, horder⟩ := h.writes_declaration
  obtain ⟨returns, hspells, hreturnsFlat, hreturns⟩ := h.writes_returns
  have hline : d.definitionText.toList = (if d.isAsync then "async def " else "def ").toList
      ++ (d.publicName.toList ++ ('(' :: ((", ".intercalate texts).toList
        ++ (')' :: (d.returnsText.toList ++ [':']))))) := by
    rw [Descriptor.definitionText, typeParameterText, h.typeParameters, htexts]
    simp
  refine ⟨parts, returns, ⟨h.name.2, hparts.spelled, horder, hspells⟩, ?_, ?_, hnames⟩
  · have hclose {rest : List Char} : Token.Passes (')' :: (d.returnsText.toList ++ [':']))
        ('\n' :: rest) (signFace ")" :: (Part.signed "->" returns ++ [signFace ":"])) [')'] [] :=
      passes_close.append ((hreturns _).append (passes_colon (by decide)))
    have hopen {rest : List Char} : Token.Passes ['('] rest [signFace "("] [] [')'] :=
      passes_open (by decide)
    have hround (rest : List Char) := hopen.append ((hparts.passes _).append (@hclose rest))
    have hname {rest : List Char} : Token.Passes d.publicName.toList ('(' :: rest)
        [wordFace d.publicName] [] [] := passes_text h.name.1 (endsName_cons (by decide))
    have hdef {rest : List Char} : Token.Passes "def ".toList rest [wordFace "def"] [] [] :=
      passes_keyword (w := "def") (by decide)
    have hwords {rest : List Char} : Token.Passes (if d.isAsync then "async def " else "def ").toList
        rest ((if d.isAsync then [wordFace "async"] else []) ++ [wordFace "def"]) [] [] := by
      cases d.isAsync with
      | false => exact hdef
      | true =>
          have hasync {rest : List Char} : Token.Passes "async ".toList rest [wordFace "async"] [] [] :=
            passes_keyword (w := "async") (by decide)
          exact hasync.append hdef
    rw [hline]
    refine ⟨?_, fun rest => ?_⟩
    · cases d.isAsync <;> exact ⟨_, _, rfl, by decide⟩
    · have hwhole := hwords.append (hname.append (hround rest))
      rw [List.append_assoc] at hwhole
      exact hwhole
  · have hwordsFlat : FlatText (if d.isAsync then "async def " else "def ").toList := by
      cases d.isAsync <;> decide
    rw [hline]
    simp only [flatText_append, flatText_cons]
    exact ⟨hwordsFlat, h.name.flat, by decide, hparts.flat, by decide, hreturnsFlat, by decide⟩

/-! ## Declarations without brackets -/

/-- The line that declares the parameters of a callable and what it returns. -/
def declarationLine (c : Callable Datum) : String :=
  "def f(" ++ (reconstruct c.parameters [] none).declarationText false none ++ ")"
    ++ (match c.returns with
      | some r => " -> " ++ r
      | none => "") ++ ": pass"

/-- The declaration of a callable is read again as what it was made from. -/
def DeclaresAgain (c : Callable Datum) : Prop :=
  ∃ h body, readProgram? (declarationLine c).toList = some [.function h body] ∧
    Source.parametersOf (declarationLine c).toList h.formals false = c.parameters ∧
    h.returns.map (Source.written (declarationLine c).toList) = c.returns

/-- A function that returns a type in brackets over two lines. -/
def foldedSource : String :=
  "@function_contract(\x7b'True': 'x'\x7d)\ndef _f() -> (int\n| None):\n    pass\n"

/-- The text of the type has lost the brackets around it, and the line ends in the middle. -/
theorem declares_again_fails : ∃ t c, Source.readTable none foldedSource = .ok t ∧
    t.errors = [] ∧ t.functions = [c] ∧ c.parameters = [] ∧ c.returns = some "int\n| None" ∧
      readProgram? (declarationLine c).toList = none ∧ ¬ DeclaresAgain c := by
  have hread : ((Source.readTable none foldedSource).toOption.map fun t =>
      (t.errors.length, t.functions.map fun c => (c.parameters.length, c.returns)))
        = some (0, [(0, some "int\n| None")]) := by
    have hchars : foldedSource.toList = _ := String.toList_ofList
    unfold Source.readTable
    rw [hchars]
    decide +kernel
  obtain ⟨t, ht, hseen⟩ := Option.map_eq_some_iff.mp hread
  obtain ⟨herrors, hfunctions⟩ := Prod.mk.inj hseen
  obtain ⟨c, hc, hparts⟩ := List.map_eq_singleton_iff.mp hfunctions
  obtain ⟨hparameters, hreturns⟩ := Prod.mk.inj hparts
  have hparameters : c.parameters = [] := List.length_eq_zero_iff.mp hparameters
  have hline : declarationLine c = "def f() -> int\n| None: pass" := by
    rw [declarationLine, hparameters, hreturns]
    decide +kernel
  have hnone : readProgram? (declarationLine c).toList = none := by
    rw [hline]
    decide +kernel
  refine ⟨t, c, toOption_eq_some.mp ht, List.length_eq_zero_iff.mp herrors, hc, hparameters,
    hreturns, hnone, ?_⟩
  -- what is not read declares nothing
  rintro ⟨h, body, hsome, -⟩
  rw [hnone] at hsome
  exact nomatch hsome

/-! ## Definitions -/

/-- The decorators of a wrapper. -/
def Descriptor.decorator (d : Descriptor Datum) : Option String :=
  if d.isFactory then some "classmethod" else none

/-- The definition of a wrapper with what its statements are. -/
def IsDefinition (d : Descriptor Datum) (Ps : List (Stmt → Prop)) (s : Stmt) : Prop :=
  ∃ ps ds returns body, s = .function ⟨d.isAsync, d.publicName, ps, ds, returns⟩ body ∧
    ds.map Expr.unplaced = d.decorator.toList.map nameAt ∧ Each Ps body

/-- A definition that has the parameters of a wrapper. -/
def HasParameters (d : Descriptor Datum) (s : Stmt) : Prop :=
  ∃ head body, s = .function head body ∧ ∀ x, x ∈ head.formals.names ↔ x ∈ d.declaredNames

theorem sits_decorator (d : Descriptor Datum) :
    Sits n (d.decorator.toList.map fun w => '@' :: w.toList) (decoratorFaces d.decorator) := by
  rw [Descriptor.decorator]
  split_ifs
  · have hword {rest : List Char} : Token.Passes "classmethod".toList ('\n' :: rest)
        [wordFace "classmethod"] [] [] := passes_text (by decide) (endsName_cons (by decide))
    have hat {rest : List Char} : Token.Passes ['@'] ('c' :: rest) [signFace "@"] [] [] :=
      passes_at (by decide)
    have htext : LineText ('@' :: "classmethod".toList) [signFace "@", wordFace "classmethod"] :=
      ⟨⟨'@', _, rfl, by decide⟩, fun rest => hat.append hword⟩
    exact sits_line htext (all_isBlank_of_mem (c := '@') List.mem_cons_self (by decide))
  · exact sits_nil

/-- **DEFINITIONS**: below its head, what is printed is read as the body of the wrapper. -/
theorem Printed.function (h : Printed n lines Ps) (hne : Ps ≠ []) (hd : Declarable d) :
    Printed (n + 1) (d.headLines.map String.toList ++ lines.map indented)
      [fun s => IsDefinition d Ps s ∧ HasParameters d s] := by
  obtain ⟨parts, returns, hreadable, htext, hflat, hnames⟩ := hd.lineText
  obtain ⟨fs, hfs, hsits, hblock⟩ := h.prints.reads hne
  have hblank : d.definitionText.toList.all isBlank = false :=
    all_isBlank_of_mem (c := ':') (by simp [Descriptor.definitionText]) (by decide)
  have hlines : d.headLines.map String.toList ++ lines.map indented
      = (d.decorator.toList.map fun w => '@' :: w.toList)
        ++ d.definitionText.toList :: lines.map indented := by
    rw [headLines_eq, Descriptor.decorator]
    cases d.isFactory <;> rfl
  have hdecorator : ∀ w ∈ d.decorator, keywords.contains w = false := by
    intro w hw
    rw [Descriptor.decorator] at hw
    obtain ⟨-, hw⟩ := Option.ite_none_right_eq_some.mp hw
    obtain rfl := Option.some.inj hw
    decide
  rw [hlines]
  constructor
  · refine Prints.imp ⟨[_], ?_, .cons (reads_function hdecorator hreadable hblock hfs) .nil⟩
      fun s hs => ?_
    · rw [List.flatten_singleton]
      exact (sits_decorator d).append (hsits.block hfs htext hblank)
    · obtain ⟨ps, ds, returns, body, rfl, hds, hbody, hps⟩ := hs
      exact ⟨⟨ps, ds, returns, body, rfl, hds, hbody⟩, _, body, rfl, fun x => hnames ▸ hps x⟩
  · rw [Flat, List.forall_mem_append, List.forall_mem_cons]
    refine ⟨?_, hflat, ?_⟩
    · show ∀ line ∈ d.decorator.toList.map fun w => '@' :: w.toList, FlatText line
      rw [Descriptor.decorator]
      cases d.isFactory <;> decide
    · exact h.flat.indented

/-- **CLASSES**: below its head, what is printed is read as the body of the class. -/
theorem Printed.cls (h : Printed n lines Ps) (hne : Ps ≠ []) {name : String} (hname : IsName name) :
    Printed (n + 1) (("class " ++ name ++ ":").toList :: lines.map indented)
      [fun s => ∃ body, s = .cls ⟨name, [], [], []⟩ body ∧ Each Ps body] := by
  have hline : ("class " ++ name ++ ":").toList = "class ".toList ++ (name.toList ++ [':']) := by
    rw [String.toList_append, String.toList_append, List.append_assoc]
    rfl
  have hclass {rest : List Char} : Token.Passes "class ".toList rest [wordFace "class"] [] [] :=
    passes_keyword (w := "class") (by decide)
  have htext : LineText ("class ".toList ++ (name.toList ++ [':']))
      [wordFace "class", wordFace name, signFace ":"] :=
    ⟨⟨'c', _, rfl, by decide⟩, fun rest => hclass.append
      ((passes_text hname.1 (endsName_cons (by decide))).append (passes_colon (by decide)))⟩
  rw [hline]
  refine ⟨h.prints.cls hne hname.2 htext (all_isBlank_of_mem (c := ':') (by simp) (by decide)), ?_⟩
  rw [Flat, List.forall_mem_cons]
  refine ⟨?_, h.flat.indented⟩
  exact flatText_append.mpr ⟨by decide, flatText_append.mpr ⟨hname.flat, by decide⟩⟩

end Covenant.Wrapper
