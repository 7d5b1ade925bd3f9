import Covenant.Proofs.Emission.Calls
import Covenant.Proofs.Text.Naming
import Covenant.Wrapper.Body

/-! # Bodies — the statements of an emitted wrapper are read as they are meant

    The lines of each statement of an emitted wrapper are read as this
    statement, whatever block they stand in.

    * Lines that are printed and flat (`Printed`) can be put below each other
      and indented as a text.
    * `Descriptor.readAs` says what each form of statement is read as, and
      `printed_statement` that it is: checks as in `Pasteable.prints`, the
      others from what they call, assign and return. -/

namespace Covenant.Wrapper

open Text Token Grammar Signature Declaration Covenant.Tree Reader
open Covenant.Value (Datum)

variable {α : Type} {d : Descriptor α} {n : Nat} {lines more : List (List Char)}
  {cs ds : List Char} {Ps Qs : List (Stmt → Prop)} {w text name : String} {e : Expr}

/-! ## Flat lines -/

/-- A text without ends of lines. -/
def FlatText (cs : List Char) : Prop := ∀ c ∈ cs, IsFlat c

-- The class of all characters is finite too; only the characters of the text are to be visited.
instance (cs : List Char) : Decidable (FlatText cs) := List.decidableBAll IsFlat cs

theorem flatText_append : FlatText (cs ++ ds) ↔ FlatText cs ∧ FlatText ds := List.forall_mem_append

theorem flatText_cons {c : Char} : FlatText (c :: cs) ↔ IsFlat c ∧ FlatText cs :=
  List.forall_mem_cons

theorem flatText_intercalate {sep : String} {texts : List String} (hsep : FlatText sep.toList)
    (h : ∀ t ∈ texts, FlatText t.toList) : FlatText (sep.intercalate texts).toList := by
  rw [String.toList_intercalate]
  induction texts with
  | nil => exact nofun
  | cons text texts ih =>
      rw [List.forall_mem_cons] at h
      cases texts with
      | nil =>
          rw [List.map_singleton, List.intercalate_singleton]
          exact h.1
      | cons next texts =>
          rw [List.map_cons, List.map_cons, List.intercalate_cons_cons, flatText_append,
            flatText_append]
          exact ⟨⟨h.1, hsep⟩, ih h.2⟩

theorem flatText_indented (h : FlatText cs) : FlatText (indented cs) := by
  rw [indented]
  split_ifs
  · exact h
  · simp only [flatText_cons]
    exact ⟨by decide, by decide, by decide, by decide, h⟩

theorem Flat.indented (h : Flat lines) : Flat (lines.map indented) := by
  intro line hline
  obtain ⟨line, hmem, rfl⟩ := List.mem_map.mp hline
  exact flatText_indented (h line hmem)

/-- Lines that are printed and hold no further ends of lines. -/
structure Printed (n : Nat) (lines : List (List Char)) (Ps : List (Stmt → Prop)) : Prop where
  prints : Prints n lines Ps
  flat : Flat lines

theorem printed_line (h : Prints n [cs] Ps) (hflat : FlatText cs) : Printed n [cs] Ps :=
  ⟨h, List.forall_mem_singleton.mpr hflat⟩

theorem Printed.append (h : Printed n lines Ps) (h' : Printed n more Qs) :
    Printed n (lines ++ more) (Ps ++ Qs) :=
  ⟨h.prints.append h'.prints, List.forall_mem_append.mpr ⟨h.flat, h'.flat⟩⟩

theorem printed_flatMap {β : Type} {text : β → List (List Char)} {Q : β → List (Stmt → Prop)}
    (bs : List β) (h : ∀ b ∈ bs, Printed n (text b) (Q b)) :
    Printed n (bs.flatMap text) (bs.flatMap Q) := by
  refine ⟨prints_flatMap bs fun b hb => (h b hb).prints, fun line hline => ?_⟩
  obtain ⟨b, hb, hline⟩ := List.mem_flatMap.mp hline
  exact (h b hb).flat line hline

/-! ## Implementations -/

/-- The names of a descriptor are names. -/
structure Named (d : Descriptor α) : Prop where
  internalName : IsName d.internalName
  publicName : IsName d.publicName
  owner : ∀ o ∈ d.owner, IsName o
  parameters : ∀ p ∈ d.signature.declaration, IsName p.name
  fields : ∀ f ∈ d.capturedFields, IsName f

/-- The name under which a class stores the implementation. -/
def Descriptor.storedName (d : Descriptor α) : String :=
  if "__".isPrefixOf d.internalName then
    match d.owner with
    | some owner => mangled owner d.internalName
    | none => d.internalName
  else d.internalName

/-- The expression for the implementation. -/
def Descriptor.callee (d : Descriptor α) : Expr :=
  if d.role = .function then nameAt d.internalName
  else .field nowhere (nameAt selfName) d.storedName .load

theorem isName_mangled {owner : String} (howner : IsName owner) (hname : IsName name) :
    IsName (mangled owner name) := by
  have hlist : (mangled owner name).toList
      = '_' :: (owner.toList.dropWhile (· = '_') ++ name.toList) := by
    simp [mangled]
  constructor
  · rw [hlist]
    have hmark : isIdentifier ['_'] = true := by decide
    refine isIdentifier_append hmark fun c hc => ?_
    rcases List.mem_append.mp hc with hc | hc
    · exact isNameContinue_of_isIdentifier howner.1 c ((List.dropWhile_sublist _).subset hc)
    · exact isNameContinue_of_isIdentifier hname.1 c hc
  · -- no keyword starts with the mark of a private name
    have hheads : keywords.all (fun k => k.toList.head? != some '_') = true := by decide
    rw [Bool.eq_false_iff]
    intro hmem
    have hhead := List.all_eq_true.mp hheads _ (List.contains_iff_mem.mp hmem)
    rw [hlist, List.head?_cons] at hhead
    exact absurd hhead (by decide)

theorem Named.stored (h : Named d) : IsName d.storedName := by
  rw [Descriptor.storedName]
  split_ifs
  · cases howner : d.owner with
    | none => exact h.internalName
    | some owner => exact isName_mangled (h.owner owner howner) h.internalName
  · exact h.internalName

/-- **THE IMPLEMENTATION** is written as the expression for it. -/
theorem Named.writes_implementation (h : Named d) (htext : d.implementationText = .ok text) :
    ∃ w, WritesName w text.toList d.callee ∧ FlatText text.toList ∧
      (d.role ≠ .function → w = selfName) := by
  have hself : IsName selfName := by decide
  have hfield (htext : text = selfName ++ "." ++ d.storedName) (hrole : d.role ≠ .function) :
      ∃ w, WritesName w text.toList d.callee ∧ FlatText text.toList ∧
        (d.role ≠ .function → w = selfName) := by
    have hlist : text.toList = selfName.toList ++ '.' :: d.storedName.toList := by
      rw [htext, String.toList_append, String.toList_append, List.append_assoc]
      rfl
    rw [Descriptor.callee, if_neg hrole, hlist]
    refine ⟨selfName, (writesName hself).field h.stored, ?_, fun _ => rfl⟩
    rw [flatText_append, flatText_cons]
    exact ⟨by decide, by decide, h.stored.flat⟩
  rw [Descriptor.implementationText] at htext
  split_ifs at htext with hrole hprivate
  · obtain rfl := Except.ok.inj htext
    rw [Descriptor.callee, if_pos hrole]
    exact ⟨d.internalName, writesName h.internalName, h.internalName.flat, fun hne => absurd hrole hne⟩
  · split at htext
    · rename_i owner howner
      refine hfield ?_ hrole
      rw [Descriptor.storedName, if_pos hprivate, howner]
      exact (Except.ok.inj htext).symm
    · cases htext
  · refine hfield ?_ hrole
    rw [Descriptor.storedName, if_neg hprivate]
    exact (Except.ok.inj htext).symm

/-- The call of the implementation. -/
def Descriptor.invocation (d : Descriptor α) : Expr :=
  let call := callOf d.callee (d.signature.declaration.map forwardedArgument)
  if d.isAsync then .compound nowhere .await [call] else call

theorem flatText_forwardingText {ps : List (Parameter α)} (hps : ∀ p ∈ ps, IsName p.name) :
    FlatText (", ".intercalate (ps.map forwarded)).toList := by
  have hone (p : Parameter α) (hp : IsName p.name) : FlatText (forwarded p).toList := by
    have hname : FlatText p.name.toList := hp.flat
    have hsigns : FlatText "*".toList ∧ FlatText "**".toList ∧ FlatText "=".toList := by decide
    unfold forwarded
    cases p.kind <;> simp only [String.toList_append, flatText_append, hname, hsigns, and_self]
  refine flatText_intercalate (by decide) fun t ht => ?_
  obtain ⟨p, hp, rfl⟩ := List.mem_map.mp ht
  exact hone p (hps p hp)

/-- The parameters of a wrapper are grouped by rank. -/
def Grouped (ps : List (Parameter α)) : Prop := ps.Pairwise fun p q => rank p.kind ≤ rank q.kind

/-- **THE CALL** of the implementation is written at the end of a line. -/
theorem Named.writes_invocation (h : Named d) (hgrouped : Grouped d.signature.declaration)
    (htext : d.invocationText = .ok text) :
    ∃ w, WritesLine w text.toList d.invocation ∧ FlatText text.toList ∧
      (d.role ≠ .function → w = selfName ∨ w = "await") := by
  obtain ⟨called, hcalled, htext⟩ := bind_eq_ok.mp htext
  obtain ⟨w, hname, hflat, hw⟩ := h.writes_implementation hcalled
  have hargs := writesArguments_forwarded hgrouped h.parameters
  have hargsFlat := flatText_forwardingText h.parameters
  have hcall : (called ++ "(" ++ d.signature.forwardingText ++ ")").toList
      = called.toList ++ '(' :: ((", ".intercalate (d.signature.declaration.map forwarded)).toList
        ++ [')']) := by
    simp [forwardingText]
  have hcallFlat : FlatText (called ++ "(" ++ d.signature.forwardingText ++ ")").toList := by
    rw [hcall, flatText_append, flatText_cons, flatText_append]
    exact ⟨hflat, by decide, hargsFlat, by decide⟩
  obtain rfl := Except.ok.inj htext
  cases hasync : d.isAsync with
  | false =>
      rw [Descriptor.invocation, hasync, if_neg Bool.false_ne_true, if_neg Bool.false_ne_true]
      exact ⟨w, hcall ▸ hname.call hargs, hcallFlat, fun hrole => .inl (hw hrole)⟩
  | true =>
      rw [Descriptor.invocation, hasync, if_pos rfl, if_pos rfl, String.toList_append]
      refine ⟨"await", ?_, flatText_append.2 ⟨by decide, hcallFlat⟩, fun _ => .inr rfl⟩
      rw [hcall]
      exact hname.awaited hargs

/-! ## Statements -/

/-- The clauses of a descriptor. -/
def Descriptor.clauses (d : Descriptor α) : List EnforcedClause :=
  d.invariants ++ d.preconditions ++ d.postconditions

/-- What the body of a descriptor does with what a statement names. -/
def Descriptor.Knows (d : Descriptor α) : Statement → Prop
  | .check _ c => c ∈ d.clauses
  | .capture f => f ∈ d.capturedFields
  | .resolveDefault name => ∃ p ∈ d.signature.declaration, p.name = name
  | .invoke .receiver => d.role ≠ .function
  | _ => True

theorem knows_of_mem_protocol {s : Statement} (h : s ∈ d.protocol) : d.Knows s := by
  obtain ⟨step, -, hs⟩ := List.mem_flatMap.mp h
  cases step with
  | checkInvariants =>
      obtain ⟨c, hc, rfl⟩ := List.mem_map.mp hs
      exact List.mem_append_left _ (List.mem_append_left _ hc)
  | checkPreconditions =>
      obtain ⟨c, hc, rfl⟩ := List.mem_map.mp hs
      exact List.mem_append_left _ (List.mem_append_right _ hc)
  | checkPostconditions =>
      obtain ⟨c, hc, rfl⟩ := List.mem_map.mp hs
      exact List.mem_append_right _ hc
  | captureOld =>
      rcases List.mem_cons.mp hs with rfl | hs
      · trivial
      · obtain ⟨f, hf, rfl⟩ := List.mem_map.mp hs
        exact hf
  | invoke =>
      obtain rfl := List.mem_singleton.mp hs
      split_ifs with hrole
      · show d.role ≠ .function
        rw [hrole]
        decide
      · trivial
  | answer =>
      rw [Descriptor.statementsOf] at hs
      split_ifs at hs
      · obtain rfl := List.mem_singleton.mp hs
        trivial
      · exact nomatch hs
      · obtain rfl := List.mem_singleton.mp hs
        trivial

theorem knows_of_mem_body {d : Descriptor Datum} {s : Statement} (h : s ∈ d.body) : d.Knows s := by
  rcases List.mem_append.mp h with h | h
  · rcases List.mem_append.mp h with h | h
    · split_ifs at h
      · obtain rfl := List.mem_singleton.mp h
        trivial
      · exact nomatch h
    · obtain ⟨p, hp, rfl⟩ := List.mem_map.mp h
      exact ⟨p, (List.mem_filter.mp hp).1, rfl⟩
  · exact knows_of_mem_protocol h

/-- A statement that resolves a default that was not given. -/
def IsResolution (callee : Expr) (name : String) (s : Stmt) : Prop :=
  ∃ test body, s = .branch test body [] ∧
    test.SameShape (.compound nowhere (.compare [.is]) [nameAt name, nameAt placeholder]) ∧
    Each [IsAssignment name
      (callOf (nameAt "implementation_default") [.positional callee, .positional (literal name)])] body

/-- What a statement is read as. -/
def Descriptor.readAs (d : Descriptor α) : Statement → List (Stmt → Prop)
  | .makeInstance => [IsAssignment selfName
      (callOf (.field nowhere (nameAt "cls") "__new__" .load) [.positional (nameAt "cls")])]
  | .resolveDefault name => [IsResolution d.callee name]
  | .check kind c => [IsCheck kind d.qualname c]
  | .openStore => [IsAssignment lookupName (callOf (nameAt "CaptureStore") [])]
  | .capture f => [IsEvaluation (callOf (.field nowhere (nameAt lookupName) "capture" .load)
      [.positional (literal f), .positional (.field nowhere (nameAt selfName) f .load)])]
  | .invoke .receiver => [IsEvaluation d.invocation, IsAssignment resultName (nameAt selfName)]
  | .invoke .outcome => [IsAssignment resultName d.invocation]
  | .returnResult => [IsReturn (nameAt resultName)]
  | .returnInstance => [IsReturn (nameAt selfName)]

theorem WritesLine.printed_assigns (h : WritesLine w cs e) (hname : IsName name)
    (hflat : FlatText cs) :
    Printed n [name.toList ++ (" = ".toList ++ cs)] [IsAssignment name e] := by
  refine printed_line (h.assigns hname) ?_
  rw [flatText_append, flatText_append]
  exact ⟨hname.flat, by decide, hflat⟩

theorem WritesLine.printed_returns (h : WritesLine w cs e) (hflat : FlatText cs) :
    Printed n ["return ".toList ++ cs] [IsReturn e] :=
  printed_line h.returns (flatText_append.2 ⟨by decide, hflat⟩)

/-- The test of a default that was not given. -/
theorem spells_unset (hname : keywords.contains name = false) :
    Spells [wordFace name, wordFace "is", wordFace placeholder]
      (.compound nowhere (.compare [.is]) [nameAt name, nameAt placeholder]) := by
  have hleft : Derives anyCall [tokenOf (wordFace name)] (.one (.rule .bitOr) (nameAt name)) :=
    (derives_nameAt hname).climb 8
  have hright : Derives anyCall [tokenOf (wordFace placeholder)]
      (.one (.rule .bitOr) (nameAt placeholder)) :=
    Derives.climb 8 (derives_nameAt (show keywords.contains placeholder = false by decide))
  have hchain : Derives anyCall _ (.chain [.is] [nameAt placeholder]) :=
    .chain (.is (t := tokenOf (wordFace "is")) rfl) hright .noChain
  have htest : Derives anyCall _ (.one (.rule .comparison) _) :=
    .compare nowhere hleft hchain (List.cons_ne_nil _ _)
  exact Spells.of_derives (htest.climb 4)

/-- The line of the test of a default. -/
def unsetLine (name : String) : List Char := ("if " ++ name ++ " is " ++ placeholder ++ ":").toList

theorem lineText_unset (h : IsName name) :
    LineText (unsetLine name) (wordFace "if" ::
      ([wordFace name, wordFace "is", wordFace placeholder] ++ [signFace ":"])) := by
  have hline : unsetLine name = "if ".toList ++ (name.toList ++ (" is ".toList
      ++ (placeholder.toList ++ [':']))) := by
    simp [unsetLine]
  rw [hline]
  refine ⟨⟨'i', _, rfl, by decide⟩, fun rest => ?_⟩
  have hif {rest : List Char} : Token.Passes "if ".toList rest [wordFace "if"] [] [] :=
    passes_keyword (w := "if") (by decide)
  have hblank {rest : List Char} : Token.Passes [' '] rest [] [] [] := passes_blank (.inl rfl)
  have his {rest : List Char} : Token.Passes " is ".toList rest [wordFace "is"] [] [] :=
    hblank.append (passes_keyword (w := "is") (by decide))
  have hunset : Token.Passes placeholder.toList (':' :: '\n' :: rest) [wordFace placeholder] [] [] :=
    passes_text (by decide) (endsName_cons (by decide))
  have hname {rest : List Char} : Token.Passes name.toList (' ' :: rest) [wordFace name] [] [] :=
    passes_text h.1 (endsName_cons (by decide))
  exact hif.append (hname.append (his.append (hunset.append (passes_colon (by decide)))))

/-- The line that resolves a default, without the blanks in front of it. -/
def resolvingLine (called name : String) : List Char :=
  name.toList ++ (" = ".toList ++ ("implementation_default".toList
    ++ '(' :: ((called.toList ++ ',' :: ' ' :: (quote name).toList) ++ [')'])))

theorem toList_resolution (called name : String) :
    (["if " ++ name ++ " is " ++ placeholder ++ ":",
      "    " ++ name ++ " = implementation_default(" ++ called ++ ", " ++ quote name ++ ")"].map
        String.toList) = unsetLine name :: [resolvingLine called name].map indented := by
  have hindented : indented (resolvingLine called name)
      = ' ' :: ' ' :: ' ' :: ' ' :: resolvingLine called name := by
    rw [indented, all_isBlank_of_mem (c := '=') (by simp [resolvingLine]) (by decide),
      if_neg Bool.false_ne_true]
  rw [List.map_singleton, hindented]
  simp [unsetLine, resolvingLine]

theorem printed_resolution (hd : Named d) {called : String}
    (hcalled : d.implementationText = .ok called) (hname : IsName name) :
    Printed 1 (unsetLine name :: [resolvingLine called name].map indented)
      [IsResolution d.callee name] := by
  obtain ⟨w, himplementation, hflat, -⟩ := hd.writes_implementation hcalled
  have hdefault : IsName "implementation_default" := by decide
  have hcall := (writesName hdefault).call (himplementation.item.pair (writesItem_literal name))
  have hassign := hcall.assigns (n := 0) hname
  have hbranch := hassign.branch (List.cons_ne_nil _ _) (spells_unset hname.2) (lineText_unset hname)
    (all_isBlank_of_mem (c := 'i') (by simp [unsetLine]) (by decide))
  refine ⟨hbranch, ?_⟩
  have hresolvingFlat : FlatText (resolvingLine called name) := by
    simp only [resolvingLine, flatText_append, flatText_cons]
    exact ⟨hname.flat, by decide, by decide, by decide,
      ⟨hflat, by decide, by decide, flat_quote name⟩, by decide⟩
  have hunsetFlat : FlatText (unsetLine name) := by
    simp only [unsetLine, String.toList_append, flatText_append]
    exact ⟨⟨⟨⟨by decide, hname.flat⟩, by decide⟩, by decide⟩, by decide⟩
  exact List.forall_mem_cons.mpr ⟨hunsetFlat,
    List.forall_mem_singleton.mpr (flatText_indented hresolvingFlat)⟩

/-- The lines of a check of a clause that can be pasted. -/
theorem Pasteable.printed {c : EnforcedClause} (h : Pasteable c) (d : Descriptor α)
    (kind : ViolationKind) :
    Printed 1 ((d.checkLines kind c).map String.toList) [IsCheck kind d.qualname c] := by
  refine ⟨h.prints d kind, ?_⟩
  have htestFlat : FlatText (testLine c) := by
    simp only [testLine, String.toList_append, flatText_append]
    exact ⟨⟨by decide, h.flat⟩, by decide⟩
  have hkind : FlatText kind.name.toList := by cases kind <;> decide
  have hraiseFlat : FlatText (raiseLine kind c d.qualname) := by
    simp only [raiseLine, String.toList_append, flatText_append]
    exact ⟨⟨⟨⟨⟨⟨⟨⟨by decide, hkind⟩, by decide⟩, flat_quote _⟩, by decide⟩, flat_quote _⟩,
      by decide⟩, flat_quote _⟩, by decide⟩
  rw [toList_checkLines]
  exact List.forall_mem_cons.mpr ⟨htestFlat,
    List.forall_mem_singleton.mpr (flatText_indented hraiseFlat)⟩

/-- **EVERY STATEMENT** of an emitted wrapper is read as it is meant. -/
theorem printed_statement (hd : Named d) (hgrouped : Grouped d.signature.declaration)
    (hclauses : ∀ c ∈ d.clauses, Pasteable c) {s : Statement} (hs : d.Knows s)
    {texts : List String} (h : d.statementLines s = .ok texts) :
    Printed 1 (texts.map String.toList) (d.readAs s) := by
  have hself : IsName selfName := by decide
  have hresult : IsName resultName := by decide
  have hlookup : IsName lookupName := by decide
  cases s with
  | makeInstance =>
      obtain rfl := Except.ok.inj h
      have hcls : IsName "cls" := by decide
      have hcall := ((writesName hcls).field (by decide : IsName "__new__")).call
        (writesName hcls).item.single
      exact hcall.printed_assigns hself (by decide)
  | resolveDefault name =>
      obtain ⟨called, hcalled, h⟩ := bind_eq_ok.mp h
      obtain rfl := Except.ok.inj h
      obtain ⟨p, hp, rfl⟩ := hs
      rw [toList_resolution]
      exact printed_resolution hd hcalled (hd.parameters p hp)
  | check kind c =>
      obtain rfl := Except.ok.inj h
      exact (hclauses c hs).printed d kind
  | openStore =>
      obtain rfl := Except.ok.inj h
      have hcall := (writesName (by decide : IsName "CaptureStore")).call writesArguments_nil
      exact hcall.printed_assigns hlookup (by decide)
  | capture f =>
      obtain rfl := Except.ok.inj h
      have hf : IsName f := hd.fields f hs
      have hcall := ((writesName hlookup).field (by decide : IsName "capture")).call
        ((writesItem_literal f).pair ((writesName hself).field hf).item)
      have hline : (lookupName ++ ".capture(" ++ quote f ++ ", " ++ selfName ++ "." ++ f ++ ")").toList
          = lookupName.toList ++ '.' :: "capture".toList ++ '(' :: ((quote f).toList ++ ',' :: ' ' ::
            (selfName.toList ++ '.' :: f.toList) ++ [')']) := by
        simp
      have hflat : FlatText (lookupName.toList ++ '.' :: "capture".toList ++ '(' ::
          ((quote f).toList ++ ',' :: ' ' :: (selfName.toList ++ '.' :: f.toList) ++ [')'])) := by
        simp only [flatText_append, flatText_cons]
        exact ⟨⟨by decide, by decide, by decide⟩, by decide,
          ⟨flat_quote f, by decide, by decide, by decide, by decide, hf.flat⟩, by decide⟩
      rw [List.map_singleton, hline]
      exact printed_line (hcall.evaluates (by decide) (by decide)) hflat
  | invoke bind =>
      cases bind with
      | outcome =>
          obtain ⟨call, hcall, h⟩ := bind_eq_ok.mp h
          obtain rfl := Except.ok.inj h
          obtain ⟨w, hline, hflat, -⟩ := hd.writes_invocation hgrouped hcall
          have htext : (resultName ++ " = " ++ call).toList
              = resultName.toList ++ (" = ".toList ++ call.toList) := by
            rw [String.toList_append, String.toList_append, List.append_assoc]
          rw [List.map_singleton, htext]
          exact hline.printed_assigns hresult hflat
      | receiver =>
          obtain ⟨call, hcall, h⟩ := bind_eq_ok.mp h
          obtain rfl := Except.ok.inj h
          obtain ⟨w, hline, hflat, hw⟩ := hd.writes_invocation hgrouped hcall
          have hprints : Prints 1 [call.toList] [IsEvaluation d.invocation] := by
            rcases hw hs with rfl | rfl <;> exact hline.evaluates (by decide) (by decide)
          exact (printed_line hprints hflat).append
            ((writesName hself).line.printed_assigns hresult (by decide))
  | returnResult =>
      obtain rfl := Except.ok.inj h
      exact (writesName hresult).line.printed_returns (by decide)
  | returnInstance =>
      obtain rfl := Except.ok.inj h
      exact (writesName hself).line.printed_returns (by decide)

end Covenant.Wrapper
