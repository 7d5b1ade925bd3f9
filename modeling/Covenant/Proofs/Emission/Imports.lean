import Covenant.Proofs.Emission.Bodies

/-! # Imports and descriptions — the other lines of an emitted module

    An emitted module starts with imports, and its classes and wrappers start
    with a description.

    * Names with signs between them are written as the faces that imports are
      read from (`passes_names`), so an import is read with the name of the
      module and the imported names (`printed_import`).
    * A description is read as the text it is (`printed_description`). -/

namespace Covenant.Wrapper

open Text Token Grammar Signature Covenant.Tree Reader

variable {n : Nat} {b rest : List Char} {sep sign name : String} {names : List String}

/-! ## Imports -/

/-- Names with signs between them, in front of whatever ends a name. -/
theorem passes_names (hnames : ∀ w ∈ name :: names, IsName w)
    (hsep : ∀ {c rest}, isNameStart c = true →
      Token.Passes sep.toList (c :: rest) [signFace sign] b b)
    (hends : ∀ rest, EndsName (sep.toList ++ rest)) (hrest : EndsName rest) :
    Token.Passes (sep.intercalate (name :: names)).toList rest (nameFaces sign (name :: names))
      b b := by
  rw [String.toList_intercalate]
  induction names generalizing name with
  | nil =>
      rw [List.map_singleton, List.intercalate_singleton]
      exact passes_text (hnames name List.mem_cons_self).1 hrest
  | cons next names ih =>
      rw [List.forall_mem_cons] at hnames
      have hmore := ih hnames.2
      obtain ⟨c, more, hc, hstart⟩ :=
        (begins_self (hnames.2 next List.mem_cons_self).1).exists_cons
      have hfirst : ∃ more,
          sep.toList.intercalate ((next :: names).map String.toList) ++ rest = c :: more := by
        cases names with
        | nil => exact ⟨_, by rw [List.map_singleton, List.intercalate_singleton, hc]; rfl⟩
        | cons _ _ => exact ⟨_, by rw [List.map_cons, List.map_cons, List.intercalate_cons_cons, hc]; rfl⟩
      obtain ⟨more, hfirst⟩ := hfirst
      have hsign : Token.Passes sep.toList
          (sep.toList.intercalate ((next :: names).map String.toList) ++ rest) [signFace sign] b b :=
        hfirst ▸ hsep hstart
      rw [List.map_cons, List.map_cons, List.intercalate_cons_cons, List.append_assoc]
      exact (passes_text hnames.1.1 (by rw [List.append_assoc]; exact hends _)).append
        (hsign.append hmore)

theorem flat_names (hnames : ∀ w ∈ names, IsName w) (hsep : FlatText sep.toList) :
    FlatText (sep.intercalate names).toList :=
  flatText_intercalate hsep fun w hw => (hnames w hw).flat

/-- The name of a module: names with points between them. -/
def IsModuleName (m : String) : Prop :=
  ∃ part parts, m = ".".intercalate (part :: parts) ∧ ∀ w ∈ part :: parts, IsName w

/-- The line of an import. -/
def importText (m : String) (names : List String) : String :=
  "from " ++ m ++ " import " ++ ", ".intercalate names

/-- The import of names from a module. -/
def IsImport (m : String) (names : List String) (s : Stmt) : Prop :=
  s = .importingFrom (some m) (names.map importOf) 0

/-- **IMPORTS** are read with the name of the module and the imported names. -/
theorem printed_import {m : String} (hm : IsModuleName m) (hnames : ∀ w ∈ name :: names, IsName w) :
    Printed n [(importText m (name :: names)).toList] [IsImport m (name :: names)] := by
  obtain ⟨part, parts, rfl, hparts⟩ := hm
  have hline : (importText (".".intercalate (part :: parts)) (name :: names)).toList
      = "from ".toList ++ ((".".intercalate (part :: parts)).toList ++ (' ' :: ("import ".toList
        ++ (", ".intercalate (name :: names)).toList))) := by
    rw [importText]
    simp only [String.toList_append, List.append_assoc]
    rfl
  have hfrom {rest : List Char} : Token.Passes "from ".toList rest [wordFace "from"] [] [] :=
    passes_keyword (w := "from") (by decide)
  have hblank {rest : List Char} : Token.Passes [' '] rest [] [] [] := passes_blank (.inl rfl)
  have himport {rest : List Char} : Token.Passes "import ".toList rest [wordFace "import"] [] [] :=
    passes_keyword (w := "import") (by decide)
  have hmodule {rest : List Char} : Token.Passes (".".intercalate (part :: parts)).toList
      (' ' :: rest) (nameFaces "." (part :: parts)) [] [] :=
    passes_names hparts (fun hc => passes_dot (fun h => absurd hc (h ▸ by decide))
      (isDigit_of_isNameStart hc)) (fun _ => endsName_cons (by decide)) (endsName_cons (by decide))
  have himported {rest : List Char} : Token.Passes (", ".intercalate (name :: names)).toList
      ('\n' :: rest) (nameFaces "," (name :: names)) [] [] :=
    passes_names hnames (fun _ => passes_comma.append hblank) (fun _ => endsName_cons (by decide))
      (endsName_cons (by decide))
  rw [hline]
  refine printed_line ?_ ?_
  · have htext : LineText _ _ := ⟨⟨'f', _, rfl, by decide⟩, fun rest =>
      hfrom.append (hmodule.append (hblank.append (himport.append (@himported rest))))⟩
    exact (prints_line htext (all_isBlank_of_mem (c := 'f') List.mem_cons_self (by decide))
      (reads_importFrom (fun w hw => (hparts w hw).2) fun w hw => (hnames w hw).2)).mono
        (Nat.zero_le n)
  · simp only [flatText_append, flatText_cons]
    exact ⟨by decide, flat_names hparts (by decide), by decide, by decide,
      flat_names hnames (by decide)⟩

/-! ## Descriptions -/

theorem derives_tripled {s : String} (hs : ∀ c ∈ s.toList, IsInner '"' c) :
    Derives anyCall [tokenOf (.string, tripled s)] (.one (.rule .expression) (literal s)) := by
  have hatom : Derives anyCall [tokenOf (.string, tripled s)] (.one (.rule .atom) (literal s)) := by
    refine .string nowhere (List.cons_ne_nil _ _) (List.forall_mem_singleton.mpr rfl) ?_
    intro read us hus
    obtain ⟨t, rfl, ht⟩ := List.map_eq_singleton_iff.mp hus
    exact concatenated_tripled hs ht read
  exact hatom.climb 14

/-- **DESCRIPTIONS** are read as the texts that they are. -/
theorem printed_description {s : String} (hs : ∀ c ∈ s.toList, IsInner '"' c)
    (hflat : FlatText s.toList) :
    Printed n [(tripled s).toList] [IsEvaluation (literal s)] := by
  have htext : LineText (tripled s).toList [(.string, tripled s)] :=
    ⟨⟨'"', _, toList_tripled s, by decide⟩, fun rest => passes_tripled hs ⟨_, _, rfl, ends_newline⟩⟩
  have hread := reads_expression ((Spells.of_derives (derives_tripled hs)).congr rfl)
    (fun h => nomatch congrArg Prod.fst h) fun hkind => nomatch hkind
  refine printed_line ?_ ?_
  · rw [toList_tripled] at htext ⊢
    exact (prints_line htext (all_isBlank_of_mem (c := '"') List.mem_cons_self (by decide))
      hread).mono (Nat.zero_le n)
  · rw [toList_tripled]
    simp only [flatText_append, flatText_cons]
    exact ⟨by decide, by decide, by decide, hflat, by decide⟩

/-! ## Descriptions by a name -/

/-- What describes something by a name can be put between three quotes. -/
theorem description_inner (front : String) (hname : IsName name)
    (hfront : (front.toList.all fun c => c != '"' && c != '\\' && c != '\n') = true) :
    ∀ c ∈ (front ++ name ++ ".").toList, IsInner '"' c := by
  have hinner (c : Char) (hc : c ∈ front.toList) : IsInner '"' c := by
    simpa [IsInner, and_assoc] using List.all_eq_true.mp hfront c hc
  simp only [String.toList_append, List.forall_mem_append]
  exact ⟨⟨hinner, hname.inner⟩, List.forall_mem_singleton.mpr ⟨by decide, by decide, by decide⟩⟩

theorem tripled_description (front name : String) :
    tripled (front ++ name ++ ".") = "\"\"\"" ++ front ++ name ++ ".\"\"\"" := by
  refine String.toList_inj.mp ?_
  simp [tripled]

/-- What describes something by a name is printed as a description. -/
theorem printed_named (front : String) (hname : IsName name) (hflat : FlatText front.toList)
    (hinner : (front.toList.all fun c => c != '"' && c != '\\' && c != '\n') = true) :
    Printed n [(tripled (front ++ name ++ ".")).toList]
      [IsEvaluation (literal (front ++ name ++ "."))] := by
  refine printed_description (description_inner front hname hinner) ?_
  rw [String.toList_append, String.toList_append, flatText_append, flatText_append]
  exact ⟨⟨hflat, hname.flat⟩, by decide⟩

end Covenant.Wrapper
