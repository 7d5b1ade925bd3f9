import Covenant.Proofs.Emission.Heads
import Covenant.Proofs.Emission.Imports
import Covenant.Source.Reader
import Covenant.Weaving

/-! # Modules — an emitted module is read as its wrappers

    The text of an emitted module is put together from the texts of wrappers,
    which are indented as bodies of definitions and again as members of
    classes.

    * What is asked of a descriptor is that its texts of the source can be put
      into lines of their own (`Emittable`).
    * Its wrapper is then printed with the statements of its body
      (`Emittable.renders`), a class with its wrappers (`renderType_printed`),
      and a module with all of them (`renderModule_reads`). -/

namespace Covenant.Wrapper

open Text Token Grammar Signature Declaration Covenant.Tree Reader
open Covenant.Value (Datum)

variable {n : Nat} {d : Descriptor Datum} {ds : List (Descriptor Datum)} {owner name : String}

/-! ## Wrappers -/

/-- A descriptor whose names are names, and whose clauses, types and defaults are texts that can be
    put into the text of a module. -/
structure Emittable (d : Descriptor Datum) : Prop where
  internalName : IsName d.internalName
  publicName : IsName d.publicName
  owned : d.role ≠ .function → d.owner.isSome
  owner : ∀ o ∈ d.owner, IsName o
  fields : ∀ f ∈ d.capturedFields, IsName f
  clauses : ∀ c ∈ d.clauses, Pasteable c
  parameters : ∀ p ∈ d.signature.declaration, Stated p
  order : d.signature.declaration.Pairwise Behind
  positional : ∀ p ∈ d.signature.declaration, p.positionalOnly = true →
    rank p.kind < rank .variadicPositional
  receiver : ∀ r ∈ present d.signature.receiver, IsName r
  typeParameters : d.signature.typeParameters = []
  returns : ∀ t ∈ present d.returns, Inset t

namespace Emittable

variable (h : Emittable d)
include h

theorem named : Named d where
  internalName := h.internalName
  publicName := h.publicName
  owner := h.owner
  parameters p hp := (h.parameters p hp).name
  fields := h.fields

theorem declarable : Declarable d where
  name := h.publicName
  parameters := h.parameters
  order := h.order
  positional := h.positional
  receiver := h.receiver
  typeParameters := h.typeParameters
  returns := h.returns

theorem grouped : Grouped d.signature.declaration := h.order.imp fun hpq => hpq.1

theorem exists_implementationText : ∃ text, d.implementationText = .ok text := by
  rw [Descriptor.implementationText]
  split_ifs with hrole
  · exact ⟨_, rfl⟩
  · obtain ⟨o, ho⟩ := Option.isSome_iff_exists.mp (h.owned hrole)
    rw [ho]
    exact ⟨_, rfl⟩
  · exact ⟨_, rfl⟩

/-- The lines of every statement can be written. -/
theorem exists_statementLines (s : Statement) : ∃ texts, d.statementLines s = .ok texts := by
  obtain ⟨called, hcalled⟩ := h.exists_implementationText
  have hcall : d.invocationText = .ok _ := bind_eq_ok.mpr ⟨called, hcalled, rfl⟩
  cases s with
  | resolveDefault name => exact ⟨_, bind_eq_ok.mpr ⟨called, hcalled, rfl⟩⟩
  | invoke bind => cases bind <;> exact ⟨_, bind_eq_ok.mpr ⟨_, hcall, rfl⟩⟩
  | _ => exact ⟨_, rfl⟩

end Emittable

/-- What describes a wrapper. -/
def Descriptor.description (d : Descriptor Datum) : String :=
  "Contract-checked entry point for " ++ d.internalName ++ "."

/-- The definition of a wrapper with the statements of its body in their order. -/
def IsWrapper (d : Descriptor Datum) : Stmt → Prop :=
  IsDefinition d (IsEvaluation (literal d.description) :: d.body.flatMap d.readAs)

/-- The lines of statements are printed in their order. -/
theorem printed_statements (h : Emittable d) {ss : List Statement} {textss : List (List String)}
    (hss : ∀ s ∈ ss, d.Knows s)
    (htextss : List.Forall₂ (fun s texts => d.statementLines s = .ok texts) ss textss) :
    Printed 1 (textss.flatten.map String.toList) (ss.flatMap d.readAs) := by
  induction htextss with
  | nil => exact ⟨prints_nil, nofun⟩
  | cons hone _ ih =>
      rw [List.forall_mem_cons] at hss
      rw [List.flatten_cons, List.map_append, List.flatMap_cons]
      exact (printed_statement h.named h.grouped h.clauses hss.1 hone).append (ih hss.2)

/-- The first line of the body of a wrapper. -/
def openingLine (d : Descriptor Datum) : List Char := (tripled d.description).toList

/-- The lines of a wrapper, if those of its body hold no further ends of lines. -/
theorem render_lines {textss : List (List String)} (hbody : d.body.mapM d.statementLines = .ok textss)
    (hflat : Flat (openingLine d :: textss.flatten.map String.toList)) :
    ∃ text, d.render = .ok text ∧ LinesOf text (d.headLines.map String.toList
      ++ (openingLine d :: textss.flatten.map String.toList).map indented) := by
  have hblock := linesOf_texts (List.cons_ne_nil (tripled d.description) textss.flatten)
  have hopening : tripled d.description
      = "\"\"\"Contract-checked entry point for " ++ d.internalName ++ ".\"\"\"" :=
    tripled_description _ _
  refine ⟨_, bind_eq_ok.mpr ⟨textss, hbody, rfl⟩, ?_⟩
  have hlines := linesOf_intercalate (List.append_ne_nil_of_right_ne_nil _ (List.cons_ne_nil _ _))
    (List.rel_append (forall₂_linesOf d.headLines) (.cons (hblock.indentBlock hflat) .nil))
  rw [List.flatten_append, List.flatten_singleton, ← List.flatMap_def, ← List.map_eq_flatMap]
    at hlines
  rw [← hopening]
  exact hlines

/-- The text of a wrapper is printed as a statement of which something holds. -/
def Renders (W : Descriptor Datum → Stmt → Prop) (d : Descriptor Datum) : Prop :=
  ∃ text lines, d.render = .ok text ∧ LinesOf text lines ∧ Printed 2 lines [W d]

theorem Renders.imp {V W : Descriptor Datum → Stmt → Prop} (h : Renders V d)
    (hVW : ∀ s, V d s → W d s) : Renders W d := by
  obtain ⟨text, lines, htext, hlines, hprinted⟩ := h
  exact ⟨text, lines, htext, hlines, hprinted.prints.imp hVW, hprinted.flat⟩

/-- The definition of a wrapper with its parameters and with the statements of its body. -/
def IsEntryPoint (d : Descriptor Datum) (s : Stmt) : Prop := IsWrapper d s ∧ HasParameters d s

/-- **WRAPPERS** are printed as definitions with their parameters and the statements of their
    bodies. -/
theorem Emittable.renders (h : Emittable d) : Renders IsEntryPoint d := by
  obtain ⟨textss, htextss⟩ := mapM_ok_iff.mpr fun s (_ : s ∈ d.body) => h.exists_statementLines s
  have hstatements := printed_statements h (fun s => knows_of_mem_body) (mapM_eq_ok.mp htextss)
  have hdescription : Printed 1 [openingLine d] [IsEvaluation (literal d.description)] :=
    printed_named "Contract-checked entry point for " h.internalName (by decide)
      (by decide)
  have hbody := hdescription.append hstatements
  obtain ⟨text, htext, hlines⟩ := render_lines htextss hbody.flat
  exact ⟨text, _, htext, hlines, hbody.function (List.cons_ne_nil _ _) h.declarable⟩

/-! ## Texts below each other -/

section Below

variable {α ε : Type} {gap : List (List Char)}

/-- A list is gone through with the lines of all texts. -/
theorem exists_lines {f : α → Except ε String} {Q : α → Stmt → Prop} (as : List α)
    (h : ∀ a ∈ as, ∃ text lines, f a = .ok text ∧ LinesOf text lines ∧ Printed n lines [Q a]) :
    ∃ texts lss, as.mapM f = .ok texts ∧
      List.Forall₂ (fun text ls => LinesOf text ls ∧ Flat ls) texts lss ∧
      List.Forall₂ (fun a ls => Printed n ls [Q a]) as lss := by
  induction as with
  | nil => exact ⟨[], [], rfl, .nil, .nil⟩
  | cons a as ih =>
      rw [List.forall_mem_cons] at h
      obtain ⟨text, lines, htext, hlines, hprinted⟩ := h.1
      obtain ⟨texts, lss, htexts, hlss, hmore⟩ := ih h.2
      refine ⟨text :: texts, lines :: lss, ?_, .cons ⟨hlines, hprinted.flat⟩ hlss,
        .cons hprinted hmore⟩
      rw [List.mapM_cons, htext, htexts]
      rfl

/-- Printed lines stay so with empty lines above them. -/
theorem printed_below {Q : α → Stmt → Prop} {as : List α} {lss : List (List (List Char))}
    (hgap : Printed n gap [])
    (h : List.Forall₂ (fun a ls => Printed n ls [Q a]) as lss) :
    Printed n (lss.flatMap (gap ++ ·)) (as.map Q) := by
  induction h with
  | nil => exact ⟨prints_nil, nofun⟩
  | cons hone _ ih => exact (hgap.append hone).append ih

theorem Printed.mono {m : Nat} {lines : List (List Char)} {Ps : List (Stmt → Prop)}
    (h : Printed n lines Ps) (hle : n ≤ m) : Printed m lines Ps := ⟨h.prints.mono hle, h.flat⟩

theorem printed_gap : Printed n [[]] [] := ⟨prints_gap, List.forall_mem_singleton.mpr nofun⟩

end Below

/-! ## Classes -/

/-- What describes the class with the wrappers of a type. -/
def typeDescription (owner : String) : String :=
  "Contract-checked public entry points for " ++ owner ++ "."

/-- The class with wrappers of a type, in their order, of each of which something holds. -/
def IsMixinOf (W : Descriptor Datum → Stmt → Prop) (ds : List (Descriptor Datum)) (owner : String)
    (s : Stmt) : Prop :=
  ∃ body, s = .cls ⟨mixinName owner, [], [], []⟩ body ∧
    Each (IsEvaluation (literal (typeDescription owner))
      :: (ds.filter (·.owner == some owner)).map W) body

/-- The class with wrappers of a type, in their order. -/
def IsMixin (ds : List (Descriptor Datum)) (owner : String) (s : Stmt) : Prop :=
  ∃ body, s = .cls ⟨mixinName owner, [], [], []⟩ body ∧
    Each (IsEvaluation (literal (typeDescription owner))
      :: (ds.filter (·.owner == some owner)).map IsWrapper) body

theorem isName_mixinName (h : IsName owner) : IsName (mixinName owner) := by
  refine ⟨?_, ?_⟩
  · rw [mixinName, String.toList_append]
    exact isIdentifier_append h.1 (List.all_eq_true.mp (by decide))
  · -- no keyword is that long
    have hshort : keywords.all (fun k => decide (k.toList.length < 9)) = true := by decide
    rw [Bool.eq_false_iff]
    intro hmem
    have hlength := of_decide_eq_true
      (List.all_eq_true.mp hshort _ (List.contains_iff_mem.mp hmem))
    rw [mixinName, String.toList_append, List.length_append] at hlength
    exact absurd hlength (Nat.not_lt_of_le (Nat.le_add_left 9 _))

/-- Members of a class are indented like the empty lines above them. -/
theorem flatten_members (lss : List (List (List Char))) :
    (lss.flatMap fun ls => [[[]], ls.map indented]).flatten
      = (lss.flatMap ([[]] ++ ·)).map indented := by
  induction lss with
  | nil => rfl
  | cons ls lss ih =>
      rw [List.flatMap_cons, List.flatten_append, ih, List.flatMap_cons, List.map_append,
        List.map_append, List.flatten_cons, List.flatten_singleton]
      rfl

/-- **CLASSES** are printed with the wrappers of their type. -/
theorem renderType_printed {W : Descriptor Datum → Stmt → Prop} (howner : IsName owner)
    (h : ∀ d ∈ ds, Renders W d) :
    ∃ text lines, renderType owner (ds.filter (·.owner == some owner)) = .ok text ∧
      LinesOf text lines ∧ Printed 3 lines [IsMixinOf W ds owner] := by
  obtain ⟨texts, lss, htexts, hlines, hprinted⟩ :=
    exists_lines (ds.filter (·.owner == some owner)) fun d hd =>
      h d (List.mem_filter.mp hd).1
  have hdescription : Printed 2 [(tripled (typeDescription owner)).toList]
      [IsEvaluation (literal (typeDescription owner))] :=
    printed_named "Contract-checked public entry points for " howner (by decide)
      (by decide)
  have hbody := hdescription.append (printed_below printed_gap hprinted)
  have hclass := hbody.cls (List.cons_ne_nil _ _) (isName_mixinName howner)
  refine ⟨_, _, bind_eq_ok.mpr ⟨texts, htexts, rfl⟩, ?_, hclass⟩
  have hopening : tripled (typeDescription owner)
      = "\"\"\"Contract-checked public entry points for " ++ owner ++ ".\"\"\"" :=
    tripled_description _ _
  have hmembers : List.Forall₂ LinesOf (texts.flatMap fun m => ["", indentBlock m])
      (lss.flatMap fun ls => [[[]], ls.map indented]) :=
    List.rel_flatMap hlines fun _ _ h => .cons (linesOf_line "") (.cons (h.1.indentBlock h.2) .nil)
  have hall := linesOf_intercalate (List.cons_ne_nil _ _) (.cons (linesOf_line ("class "
    ++ mixinName owner ++ ":")) (.cons ((linesOf_line _).indentBlock hdescription.flat) hmembers))
  rw [List.flatten_cons, List.flatten_cons, flatten_members] at hall
  rw [← hopening, List.map_append]
  exact hall

/-! ## Modules -/

/-- The implementations of functions that a module of wrappers imports. -/
def sourceImports (ds : List (Descriptor Datum)) (sourceModule : Option String) :
    List (String × List String) :=
  match present sourceModule with
  | some m =>
    if (ds.filter (·.owner.isNone)).isEmpty then []
    else [(m, (ds.filter (·.owner.isNone)).map (·.internalName))]
  | none => []

/-- What every module of wrappers imports from where. -/
def headerImports : List (String × List String) :=
  [("__future__", ["annotations"]),
    ("contractweave.core.errors",
      ["InvariantViolation", "PostconditionViolation", "PreconditionViolation"]),
    ("contractweave.runtime", ["UNSET", "CaptureStore", "implementation_default"])]

/-- What imports are read as. -/
def importsReadAs (imports : List (String × List String)) : List (Stmt → Prop) :=
  imports.map fun i => IsImport i.1 i.2

/-- What the statements of a module of wrappers are, of each of which something holds: imports, then
    a class for each owner, then the wrappers of functions. -/
def moduleReadBy (W : Descriptor Datum → Stmt → Prop) (ds : List (Descriptor Datum))
    (sourceModule : Option String) : List (Stmt → Prop) :=
  importsReadAs headerImports ++ importsReadAs (sourceImports ds sourceModule)
    ++ ((owners ds).map (IsMixinOf W ds) ++ (ds.filter (·.owner.isNone)).map W)

/-- What the statements of a module of wrappers are: imports, then a class for each owner, then the
    wrappers of functions. -/
def moduleReadAs (ds : List (Descriptor Datum)) (sourceModule : Option String) :
    List (Stmt → Prop) :=
  importsReadAs headerImports ++ importsReadAs (sourceImports ds sourceModule)
    ++ ((owners ds).map (IsMixin ds) ++ (ds.filter (·.owner.isNone)).map IsWrapper)

theorem mem_owners {o : String} : o ∈ owners ds ↔ ∃ d ∈ ds, d.owner = some o := by
  have hfold (os : List String) : ∀ seen, o ∈ os.foldl
      (fun (seen : List String) o => if seen.contains o then seen else seen ++ [o]) seen
        ↔ o ∈ seen ∨ o ∈ os := by
    induction os with
    | nil => exact fun seen => ⟨.inl, fun h => h.resolve_right List.not_mem_nil⟩
    | cons o' os ih =>
        intro seen
        dsimp only [List.foldl_cons]
        rw [ih, List.mem_cons]
        split_ifs with hseen
        · -- a name that has come up is not added
          constructor
          · exact Or.imp_right .inr
          · rintro (hmem | rfl | hmem)
            · exact .inl hmem
            · exact .inl (List.contains_iff_mem.mp hseen)
            · exact .inr hmem
        · rw [List.mem_append, List.mem_singleton, or_assoc]
  rw [owners, hfold, List.mem_filterMap]
  exact ⟨fun h => h.resolve_left List.not_mem_nil, .inr⟩

theorem importText_ofList (m : List Char) (names : List (List Char)) :
    importText (String.ofList m) (names.map String.ofList)
      = String.ofList (['f', 'r', 'o', 'm', ' '] ++ m ++ [' ', 'i', 'm', 'p', 'o', 'r', 't', ' ']
          ++ [',', ' '].intercalate names) := by
  have hfrom : "from ".toList = _ := String.toList_ofList
  have himport : " import ".toList = _ := String.toList_ofList
  have hcomma : ", ".toList = _ := String.toList_ofList
  have hnames : (names.map String.ofList).map String.toList = names := by
    simp only [List.map_map, Function.comp_def, String.toList_ofList, List.map_id']
  apply String.toList_injective
  rw [importText, String.toList_append, String.toList_append, String.toList_append,
    String.toList_intercalate, hnames, hfrom, himport, hcomma, String.toList_ofList,
    String.toList_ofList]

/-- The first lines of a module. -/
theorem moduleHeader_eq : moduleHeader
    = ["# Generated by contractweave. Do not edit by hand.", "",
      importText "__future__" ["annotations"], "",
      importText "contractweave.core.errors"
        ["InvariantViolation", "PostconditionViolation", "PreconditionViolation"],
      importText "contractweave.runtime" ["UNSET", "CaptureStore", "implementation_default"]] := by
  have hfuture : importText "__future__" ["annotations"] = _ := importText_ofList _ [_]
  have herrors : importText "contractweave.core.errors"
      ["InvariantViolation", "PostconditionViolation", "PreconditionViolation"] = _ :=
    importText_ofList _ [_, _, _]
  have hruntime : importText "contractweave.runtime"
      ["UNSET", "CaptureStore", "implementation_default"] = _ := importText_ofList _ [_, _, _]
  rw [hfuture, herrors, hruntime]
  rfl

theorem printed_header (n : Nat) :
    Printed n ((moduleHeader.drop 1).map String.toList) (importsReadAs headerImports) := by
  have hfuture : IsModuleName "__future__" :=
    ⟨"__future__", [], by decide, by decide⟩
  have herrors : IsModuleName "contractweave.core.errors" :=
    ⟨"contractweave", ["core", "errors"], by decide, by decide⟩
  have hruntime : IsModuleName "contractweave.runtime" :=
    ⟨"contractweave", ["runtime"], by decide, by decide⟩
  have hfirst : Printed n [(importText "__future__" ["annotations"]).toList]
      [IsImport "__future__" ["annotations"]] := printed_import hfuture (by decide)
  have hsecond : Printed n [(importText "contractweave.core.errors"
        ["InvariantViolation", "PostconditionViolation", "PreconditionViolation"]).toList]
      [IsImport "contractweave.core.errors"
        ["InvariantViolation", "PostconditionViolation", "PreconditionViolation"]] :=
    printed_import herrors (by decide)
  have hthird : Printed n [(importText "contractweave.runtime"
        ["UNSET", "CaptureStore", "implementation_default"]).toList]
      [IsImport "contractweave.runtime" ["UNSET", "CaptureStore", "implementation_default"]] :=
    printed_import hruntime (by decide)
  rw [moduleHeader_eq]
  exact (printed_gap.append hfirst).append (printed_gap.append (hsecond.append hthird))

theorem printed_sourceImports {sourceModule : Option String} (h : ∀ d ∈ ds, Emittable d)
    (hsource : ∀ m ∈ present sourceModule, IsModuleName m) :
    Printed n ((sourceImports ds sourceModule).map fun i => (importText i.1 i.2).toList)
      (importsReadAs (sourceImports ds sourceModule)) := by
  rw [sourceImports]
  cases hm : present sourceModule with
  | none => exact ⟨prints_nil, nofun⟩
  | some m =>
      dsimp only
      split_ifs with hempty
      · exact ⟨prints_nil, nofun⟩
      · cases hfunctions : ds.filter (·.owner.isNone) with
        | nil =>
            rw [hfunctions] at hempty
            exact absurd rfl hempty
        | cons d more =>
            refine printed_import (hsource m hm) fun w hw => ?_
            rw [← List.map_cons, ← hfunctions] at hw
            obtain ⟨d, hd, rfl⟩ := List.mem_map.mp hw
            exact (h d (List.mem_filter.mp hd).1).internalName

/-- The blocks of a module stand below two empty lines each. -/
theorem flatten_blocks (lss : List (List (List Char))) :
    (lss.flatMap fun ls => [[[]], [[]], ls]).flatten = lss.flatMap ([[], []] ++ ·) := by
  induction lss with
  | nil => rfl
  | cons ls lss ih =>
      rw [List.flatMap_cons, List.flatten_append, ih, List.flatMap_cons, List.flatten_cons,
        List.flatten_cons, List.flatten_singleton]
      rfl

theorem renderModule_eq (sourceModule : Option String) {types wrappers : List String}
    (htypes : (owners ds).mapM (fun o => renderType o (ds.filter (·.owner == some o))) = .ok types)
    (hwrappers : (ds.filter (·.owner.isNone)).mapM Descriptor.render = .ok wrappers) :
    renderModule ds sourceModule = .ok ("\n".intercalate (moduleHeader
      ++ ((sourceImports ds sourceModule).map fun i => importText i.1 i.2)
      ++ (types ++ wrappers).flatMap fun block => ["", "", block]) ++ "\n") := by
  refine bind_eq_ok.mpr ⟨types, htypes, bind_eq_ok.mpr ⟨wrappers, hwrappers, ?_⟩⟩
  rw [sourceImports]
  cases present sourceModule with
  | none => rfl
  | some m =>
      dsimp only
      split_ifs <;> rfl

/-- The lines of a module below those of its imports. -/
theorem renderModule_lines (sourceModule : Option String) {types wrappers : List String}
    {lss : List (List (List Char))}
    (htypes : (owners ds).mapM (fun o => renderType o (ds.filter (·.owner == some o))) = .ok types)
    (hwrappers : (ds.filter (·.owner.isNone)).mapM Descriptor.render = .ok wrappers)
    (hlines : List.Forall₂ LinesOf (types ++ wrappers) lss) :
    ∃ text, renderModule ds sourceModule = .ok text ∧ text.toList
      = stacked (moduleHeader.map String.toList
          ++ (sourceImports ds sourceModule).map (fun i => (importText i.1 i.2).toList)
          ++ lss.flatMap ([[], []] ++ ·)) ++ ['\n'] := by
  refine ⟨_, renderModule_eq sourceModule htypes hwrappers, ?_⟩
  have hblocks : List.Forall₂ LinesOf ((types ++ wrappers).flatMap fun block => ["", "", block])
      (lss.flatMap fun ls => [[[]], [[]], ls]) :=
    List.rel_flatMap hlines fun _ _ h => .cons (linesOf_line "") (.cons (linesOf_line "") (.cons h .nil))
  have himporting := forall₂_linesOf ((sourceImports ds sourceModule).map fun i => importText i.1 i.2)
  have hheader : moduleHeader ≠ [] := List.cons_ne_nil _ _
  obtain ⟨-, hall⟩ := linesOf_intercalate
    (List.append_ne_nil_of_left_ne_nil (List.append_ne_nil_of_left_ne_nil hheader _) _)
    (List.rel_append (List.rel_append (forall₂_linesOf moduleHeader) himporting) hblocks)
  rw [List.flatten_append, List.flatten_append, flatten_blocks, ← List.flatMap_def,
    ← List.flatMap_def, ← List.map_eq_flatMap, ← List.map_eq_flatMap, List.map_map] at hall
  rw [String.toList_append, hall]
  rfl

/-- **WHAT IS PRINTED IS READ**: the statements of a module of wrappers are its imports, the classes
    of its types and its wrappers, as what these are printed as. -/
theorem renderModule_readBy {W : Descriptor Datum → Stmt → Prop} {sourceModule : Option String}
    (h : ∀ d ∈ ds, Emittable d) (hW : ∀ d ∈ ds, Renders W d)
    (hsource : ∀ m ∈ present sourceModule, IsModuleName m) :
    ∃ text ss, renderModule ds sourceModule = .ok text ∧ readProgram? text.toList = some ss ∧
      Each (moduleReadBy W ds sourceModule) ss := by
  obtain ⟨types, tss, htypes, htypeLines, htypesPrinted⟩ :=
    exists_lines (owners ds) (Q := IsMixinOf W ds) (n := 3) fun o ho => by
      obtain ⟨d, hd, hdo⟩ := mem_owners.1 ho
      exact renderType_printed ((h d hd).owner o hdo) hW
  obtain ⟨wrappers, wss, hwrappers, hwrapperLines, hwrappersPrinted⟩ :=
    exists_lines (ds.filter (·.owner.isNone)) (Q := W) (n := 3) fun d hd => by
      obtain ⟨text, lines, htext, hlines, hprinted⟩ := hW d (List.mem_filter.mp hd).1
      exact ⟨text, lines, htext, hlines, hprinted.mono (by decide)⟩
  have hgap : Printed 3 [[], []] [] := printed_gap.append printed_gap
  have hblocks := (printed_below hgap htypesPrinted).append (printed_below hgap hwrappersPrinted)
  have hprinted := ((printed_header 3).append (printed_sourceImports h hsource)).append hblocks
  obtain ⟨text, htext, hlines⟩ := renderModule_lines sourceModule htypes hwrappers
    (List.rel_append (htypeLines.imp fun _ _ h => h.1) (hwrapperLines.imp fun _ _ h => h.1))
  obtain ⟨remark, hremark, hflatRemark⟩ : ∃ remark,
      "# Generated by contractweave. Do not edit by hand.".toList = '#' :: remark ∧
        FlatText ('#' :: remark) := ⟨_, String.toList_ofList, by decide⟩
  obtain ⟨ss, hread, heach⟩ := readProgram?_of_prints hprinted.prints (List.cons_ne_nil _ _)
    (List.forall_mem_cons.mpr ⟨hflatRemark, hprinted.flat⟩) (by decide)
  refine ⟨text, ss, htext, ?_, heach⟩
  rw [hlines, List.flatMap_append, ← hread, ← hremark]
  rfl

/-- **MODULES** of wrappers are read as their imports, the classes of their types and their wrappers,
    each with the statements of its body. -/
theorem renderModule_reads {sourceModule : Option String} (h : ∀ d ∈ ds, Emittable d)
    (hsource : ∀ m ∈ present sourceModule, IsModuleName m) :
    ∃ text ss, renderModule ds sourceModule = .ok text ∧ readProgram? text.toList = some ss ∧
      Each (moduleReadAs ds sourceModule) ss :=
  renderModule_readBy h (fun d hd => (h d hd).renders.imp fun _ hs => hs.1) hsource

/-- A function of a positive number, with the tree that its condition is read as. -/
def positive (e : Expr) : Descriptor Datum where
  owner := none
  internalName := "_f"
  publicName := "f"
  role := .function
  isAsync := false
  signature := { declaration := [{ name := "n", typeText := some "int" }] }
  invariants := []
  preconditions := [⟨"n > 0", "n must be positive", "n > 0", e⟩]
  postconditions := []
  capturedFields := []
  returns := none
  module := some "ledger"
  implementation := none

theorem exists_of_any {α : Type} {P : α → Prop} [DecidablePred P] {o : Option α}
    (h : (o.any fun a => decide (P a)) = true) : ∃ a, o = some a ∧ P a := by
  obtain ⟨a, ha, hP⟩ := (Option.any_eq_true ..).mp h
  exact ⟨a, ha, of_decide_eq_true hP⟩

theorem renderModule_reads_positive : ∃ e, readExpression? "n > 0".toList = some e ∧
    (∀ d ∈ [positive e], Emittable d) ∧ (∀ m ∈ present (some "ledger"), IsModuleName m) ∧
      ∃ text ss, renderModule [positive e] (some "ledger") = .ok text ∧
        readProgram? text.toList = some ss ∧ Each (moduleReadAs [positive e] (some "ledger")) ss := by
  obtain ⟨e, he, hplain⟩ : ∃ e, readExpression? "n > 0".toList = some e ∧ e.Plain anyCall :=
    exists_of_any (by decide +kernel)
  have hflat : FlatText "n > 0".toList := by decide
  have hbracketed : (lexBracketed Pos.start "n > 0".toList).isSome := by decide +kernel
  have hstarts : ∃ ch ∈ "n > 0".toList.head?, StartsToken ch := ⟨'n', rfl, by decide⟩
  have hclause : Pasteable ⟨"n > 0", "n must be positive", "n > 0", e⟩ :=
    ⟨hflat, hstarts, hbracketed, e, he, hplain, rfl⟩
  have hint : Inset "int" :=
    ⟨by decide, ⟨'i', rfl, by decide, by decide⟩, by decide +kernel, exists_of_any (by decide +kernel)⟩
  have hparameter : Stated { name := "n", typeText := some "int" } :=
    ⟨by decide, fun t ht => Option.some.inj ht ▸ hint, fun h => absurd h (by decide)⟩
  have hinternal : IsName "_f" := by decide
  have hpublic : IsName "f" := by decide
  have hemittable : Emittable (positive e) :=
    { internalName := hinternal, publicName := hpublic
      owned := fun hrole => absurd rfl hrole, owner := nofun, fields := nofun
      clauses := List.forall_mem_singleton.mpr hclause
      parameters := List.forall_mem_singleton.mpr hparameter
      order := List.pairwise_singleton ..
      positional := List.forall_mem_singleton.mpr fun h => absurd h (by decide)
      receiver := nofun, typeParameters := rfl, returns := nofun }
  have hds : ∀ d ∈ [positive e], Emittable d := List.forall_mem_singleton.mpr hemittable
  have hledger : IsModuleName "ledger" := ⟨"ledger", [], by decide, by decide⟩
  have hmodule : ∀ m ∈ present (some "ledger"), IsModuleName m := fun m hm =>
    Option.some.inj hm ▸ hledger
  exact ⟨e, he, hds, hmodule, renderModule_reads hds hmodule⟩

/-! ## A remark -/

/-- A function with a remark behind the condition of its clause. -/
def remarkedSource : String :=
  "@function_contract(\x7b'True  # always': 'always'\x7d)\ndef _f():\n    pass\n"

/-- What the text of a wrapper is put together from: its owner, the name of its implementation, the
    lines of its head and those of its statements. -/
def pieces (d : Descriptor Datum) : Option (Option String × List (List String)) :=
  (d.body.mapM d.statementLines).toOption.map fun textss =>
    (d.owner, [d.internalName] :: d.headLines :: textss)

/-- The lines of the statements of the function. -/
def remarkedBody : List (List String) :=
  [["if not (True  # always):",
    "    raise PreconditionViolation('always', clause='True  # always', qualname='f')"],
    ["result = _f()"], ["return result"]]

/-- The lines of the function. -/
def remarkedLines : List (List Char) :=
  ["def f():".toList] ++ ((tripled "Contract-checked entry point for _f.").toList
    :: remarkedBody.flatten.map String.toList).map indented

theorem map_toList {ss : List String} {css : List (List Char)}
    (h : List.Forall₂ (fun s cs => s = String.ofList cs) ss css) : ss.map String.toList = css := by
  induction h with
  | nil => rfl
  | cons hs _ ih => rw [List.map_cons, ih, hs, String.toList_ofList]

theorem flat_of_all {lines : List (List Char)}
    (h : (lines.all fun line => line.all fun c => !isLineBoundary c && c != '\x00') = true) :
    Flat lines := by
  intro line hline c hc
  have hone := List.all_eq_true.mp (List.all_eq_true.mp h line hline) c hc
  simpa [IsFlat] using hone

/-- The lines of the function end where they are to end, and no signs can be found in them. -/
theorem lex_remarked :
    Flat ((tripled "Contract-checked entry point for _f.").toList
        :: remarkedBody.flatten.map String.toList) ∧
      lex (stacked (moduleHeader.map String.toList ++ [[], []] ++ remarkedLines) ++ ['\n'])
        = none := by
  -- the texts are taken apart first, so that only characters are left to compute with
  have hheader : moduleHeader.map String.toList = _ :=
    map_toList (.cons rfl (.cons rfl (.cons rfl (.cons rfl (.cons rfl (.cons rfl .nil))))))
  have hbody : remarkedBody.flatten.map String.toList = _ :=
    map_toList (.cons rfl (.cons rfl (.cons rfl (.cons rfl .nil))))
  have hhead : "def f():".toList = _ := String.toList_ofList
  have hopening : "Contract-checked entry point for _f.".toList = _ := String.toList_ofList
  rw [remarkedLines, hheader, hbody, hhead, toList_tripled, hopening]
  exact ⟨flat_of_all (by decide +kernel), by decide +kernel⟩

/-- The remark swallows the bracket that closes the test, and the module cannot be read. -/
theorem renderModule_reads_fails : ∃ t r text, Source.readTable none remarkedSource = .ok t ∧
    Weaving.weave t = .ok r ∧ r.errors = [] ∧ r.descriptors.map (·.internalName) = ["_f"] ∧
      renderModule r.descriptors none = .ok text ∧ readProgram? text.toList = none := by
  have hwoven : ((Source.readTable none remarkedSource).toOption.bind fun t =>
      (Weaving.weave t).toOption.bind fun r =>
        if r.errors = [] then some (r.descriptors.map pieces) else none)
      = some [some (none, ["_f"] :: ["def f():"] :: remarkedBody)] := by
    have hchars : remarkedSource.toList = _ := String.toList_ofList
    unfold Source.readTable
    rw [hchars]
    decide +kernel
  obtain ⟨t, ht, hwoven⟩ := Option.bind_eq_some_iff.mp hwoven
  obtain ⟨r, hr, hseen⟩ := Option.bind_eq_some_iff.mp hwoven
  obtain ⟨herrors, hseen⟩ := Option.ite_none_right_eq_some.mp hseen
  obtain ⟨d, hd, hpieces⟩ := List.map_eq_singleton_iff.mp (Option.some.inj hseen)
  obtain ⟨textss, hbody, hpieces⟩ := Option.map_eq_some_iff.mp hpieces
  obtain ⟨howner, hlines⟩ := Prod.mk.inj hpieces
  obtain ⟨hname, hlines⟩ := List.cons.inj hlines
  obtain ⟨hhead, rfl⟩ := List.cons.inj hlines
  have hname : d.internalName = "_f" := (List.cons.inj hname).1
  have hopening : openingLine d = (tripled "Contract-checked entry point for _f.").toList := by
    have hdescription : d.description = "Contract-checked entry point for " ++ d.internalName ++ "." :=
      rfl
    have hjoined : "Contract-checked entry point for " ++ "_f" ++ "."
        = "Contract-checked entry point for _f." := by
      rw [← String.toList_inj, String.toList_append, String.toList_append]
      exact (congrArg₂ _ (congrArg₂ _ String.toList_ofList String.toList_ofList)
        String.toList_ofList).trans String.toList_ofList.symm
    rw [openingLine, hdescription, hname, hjoined]
  have hflat : Flat (openingLine d :: remarkedBody.flatten.map String.toList) := by
    rw [hopening]
    exact lex_remarked.1
  obtain ⟨wrapper, hwrapper, hwrapperLines⟩ := render_lines (toOption_eq_some.mp hbody) hflat
  have howners : owners [d] = [] := by simp [owners, howner]
  have hfunctions : [d].filter (·.owner.isNone) = [d] := by simp [howner]
  have htypes : (owners [d]).mapM (fun o => renderType o ([d].filter (·.owner == some o))) = .ok [] := by
    rw [howners]
    rfl
  have hwrappers : ([d].filter (·.owner.isNone)).mapM Descriptor.render = .ok [wrapper] := by
    rw [hfunctions]
    exact mapM_eq_ok.mpr (.cons hwrapper .nil)
  obtain ⟨text, htext, hchars⟩ :=
    renderModule_lines none htypes hwrappers (.cons hwrapperLines .nil)
  refine ⟨t, r, text, toOption_eq_some.mp ht, toOption_eq_some.mp hr, herrors, ?_, ?_, ?_⟩
  · rw [hd, List.map_singleton, hname]
  · rw [hd]
    exact htext
  · have hlex : lex text.toList = none := by
      rw [hchars, hhead, hopening]
      exact lex_remarked.2
    rw [readProgram?, hlex]
    rfl

end Covenant.Wrapper
