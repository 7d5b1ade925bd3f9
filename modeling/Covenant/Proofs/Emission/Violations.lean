import Covenant.Proofs.Emission.Modules
import Covenant.Proofs.Protocol.Task
import Covenant.Proofs.Value.Literals
import Covenant.Proofs.Weaving.Accepted
import Covenant.Wrapper.Emission

/-! # Violations — what a broken promise says survives emission

    The line that raises a violation is indented with the lines around it, whatever
    they are.

    * Indenting goes line feed by line feed (`indentBlock_newline`), so the
      lines of a statement are found again in the text of its wrapper, of its
      class and of its module (`HasLines`), each of them indented by itself.
    * The line that raises has no end of a line in it, and is read as the
      violation with its three texts (`raisedBy_raiseText`). -/

namespace Covenant.Wrapper

open Text Token Grammar Signature Declaration Weaving Covenant.Tree
open Covenant.Value (Datum literal? literal?_congr)

variable {text block m : String} {lines texts : List String} {d : Descriptor Datum}
  {ds : List (Descriptor Datum)} {kind : ViolationKind} {c : EnforcedClause}

/-! ## Indenting -/

theorem toList_indentBlock_eq (text : String) :
    (indentBlock text).toList = (layoutLines text.toList).flatMap indented := by
  rw [indentBlock, String.toList_ofList]
  rfl

theorem indented_end (line : List Char) : indented (line ++ ['\n']) = indented line ++ ['\n'] :=
  indented_newline line

/-- A character that is not a carriage return before a line feed ends its line or goes on with it. -/
theorem cutLines_cons {ch : Char} {rest : List Char} (taken : List Char)
    (h : ch = '\r' → rest.head? ≠ some '\n') :
    cutLines isLineBoundary taken (ch :: rest)
      = if isLineBoundary ch then (ch :: taken).reverse :: cutLines isLineBoundary [] rest
        else cutLines isLineBoundary (ch :: taken) rest := by
  rw [cutLines.eq_def]
  split
  · rename_i heq
    exact nomatch heq
  · rename_i heq
    exact nomatch heq
  · rename_i heq
    obtain ⟨hch, hrest⟩ := List.cons.inj heq
    exact absurd (by rw [hrest]; rfl) (h hch)
  · rename_i heq
    obtain ⟨rfl, rfl⟩ := List.cons.inj heq
    rfl

theorem cutLines_feed (taken rest : List Char) :
    cutLines isLineBoundary taken ('\r' :: '\n' :: rest)
      = ('\n' :: '\r' :: taken).reverse :: cutLines isLineBoundary [] rest := by
  rw [cutLines]

/-- What stands in front of a line feed is cut and indented as if it stood alone. -/
theorem flatMap_cutLines_newline (taken as bs : List Char) :
    (cutLines isLineBoundary taken (as ++ '\n' :: bs)).flatMap indented
      = (cutLines isLineBoundary taken as).flatMap indented
        ++ '\n' :: (layoutLines bs).flatMap indented := by
  fun_induction cutLines isLineBoundary taken as with
  | case1 =>
      rw [List.nil_append, cutLines_newline, List.flatMap_cons, List.reverse_singleton]
      rfl
  | case2 line hline =>
      rw [List.nil_append, cutLines_newline, List.flatMap_cons, List.reverse_cons, indented_end,
        List.flatMap_singleton, List.append_assoc]
      rfl
  | case3 line rest ih =>
      rw [List.cons_append, List.cons_append, cutLines_feed, List.flatMap_cons, List.flatMap_cons,
        ih, List.append_assoc]
  | case4 line ch rest hfeed hboundary ih =>
      by_cases hreturn : ch = '\r' ∧ rest = []
      · -- the line feed belongs to the carriage return in front of it
        obtain ⟨rfl, rfl⟩ := hreturn
        rw [List.cons_append, List.nil_append, cutLines_feed, List.flatMap_cons, List.flatMap_cons,
          List.reverse_cons, indented_end, List.append_assoc, cutLines, List.flatMap_nil,
          List.append_nil]
        rfl
      · have hhead : ch = '\r' → (rest ++ '\n' :: bs).head? ≠ some '\n' := by
          intro hch
          cases rest with
          | nil => exact absurd ⟨hch, rfl⟩ hreturn
          | cons next rest =>
              intro hnext
              exact hfeed rest hch (by rw [Option.some.inj hnext])
        rw [List.cons_append, cutLines_cons line hhead, if_pos hboundary, List.flatMap_cons,
          List.flatMap_cons, ih, List.append_assoc]
  | case5 line ch rest hfeed hboundary ih =>
      have hreturn : ch ≠ '\r' := by
        rintro rfl
        exact hboundary (by decide)
      rw [List.cons_append, cutLines_cons line fun h => absurd h hreturn, if_neg hboundary, ih]

/-- **INDENTING** goes on behind a line feed as if the text began there. -/
theorem indentBlock_newline (above below : String) :
    indentBlock (above ++ "\n" ++ below) = indentBlock above ++ "\n" ++ indentBlock below := by
  apply String.toList_injective
  have hcut := flatMap_cutLines_newline [] above.toList below.toList
  simp only [String.toList_append, toList_indentBlock_eq, List.append_assoc]
  exact hcut

theorem indentBlock_intercalate (texts : List String) :
    indentBlock ("\n".intercalate texts) = "\n".intercalate (texts.map indentBlock) := by
  induction texts with
  | nil => decide
  | cons text texts ih =>
      cases texts with
      | nil => rw [List.map_singleton, String.intercalate_singleton, String.intercalate_singleton]
      | cons next texts =>
          rw [List.map_cons, List.map_cons, String.intercalate_cons_cons,
            String.intercalate_cons_cons, indentBlock_newline, ih, List.map_cons]

/-! ## Lines of a text -/

/-- Lines stand in a text, one below the other. -/
def HasLines (text : String) (lines : List String) : Prop :=
  ∃ above below, text = "\n".intercalate (above ++ lines ++ below)

/-- Lines that are joined and put among others are put among them as they are. -/
theorem intercalate_within (above below : List String) (hne : lines ≠ []) :
    "\n".intercalate (above ++ "\n".intercalate lines :: below)
      = "\n".intercalate (above ++ lines ++ below) := by
  induction above with
  | nil =>
      rw [List.nil_append, List.nil_append]
      cases below with
      | nil => rw [List.append_nil, String.intercalate_singleton]
      | cons next below =>
          rw [String.intercalate_cons_cons,
            String.intercalate_append_of_ne_nil hne (List.cons_ne_nil _ _)]
  | cons line above ih =>
      have hrest : above ++ lines ++ below ≠ [] := by simp [hne]
      rw [List.cons_append, List.cons_append, List.cons_append,
        String.intercalate_cons_of_ne_nil (by simp), String.intercalate_cons_of_ne_nil hrest, ih]

theorem HasLines.inside (h : HasLines block lines) (hne : lines ≠ []) (hblock : block ∈ texts) :
    HasLines ("\n".intercalate texts) lines := by
  obtain ⟨above, below, rfl⟩ := h
  obtain ⟨us, vs, rfl⟩ := List.append_of_mem hblock
  have hmore : above ++ lines ++ below ≠ [] := by simp [hne]
  refine ⟨us ++ above, below ++ vs, ?_⟩
  rw [intercalate_within us vs hmore]
  simp only [List.append_assoc]

theorem HasLines.indentBlock (h : HasLines text lines) :
    HasLines (indentBlock text) (lines.map indentBlock) := by
  obtain ⟨above, below, rfl⟩ := h
  refine ⟨above.map indentBlock, below.map indentBlock, ?_⟩
  rw [indentBlock_intercalate, List.map_append, List.map_append]

theorem hasLines_of_mem {liness : List (List String)} (h : lines ∈ liness) (above : List String) :
    HasLines ("\n".intercalate (above ++ liness.flatten)) lines := by
  obtain ⟨us, vs, rfl⟩ := List.append_of_mem h
  refine ⟨above ++ us.flatten, vs.flatten, ?_⟩
  rw [List.flatten_append, List.flatten_cons]
  simp only [List.append_assoc]

/-! ## Lines of a module -/

section Module

variable {s : Statement} (hlines : d.statementLines s = .ok lines) (hne : lines ≠ [])
include hlines hne

/-- The lines of a statement stand in the text of its wrapper. -/
theorem hasLines_render (hs : s ∈ d.body) (htext : d.render = .ok text) :
    HasLines text (lines.map indentBlock) := by
  obtain ⟨textss, hbody, htext⟩ := bind_eq_ok.mp htext
  obtain rfl := Except.ok.inj htext
  obtain ⟨lines', hmem, hlines'⟩ := exists_of_forall₂_right (mapM_eq_ok.mp hbody).flip s hs
  obtain rfl : lines = lines' := Except.ok.inj (hlines.symm.trans hlines')
  have hblock := (hasLines_of_mem hmem
    ["\"\"\"Contract-checked entry point for " ++ d.internalName ++ ".\"\"\""]).indentBlock
  exact hblock.inside (by simpa using hne) (List.mem_append_right _ List.mem_cons_self)

/-- The lines of a statement stand in the text of the class of its owner. -/
theorem hasLines_renderType {owner : String} (hs : s ∈ d.body) (hd : d ∈ ds)
    (htext : renderType owner ds = .ok text) :
    HasLines text ((lines.map indentBlock).map indentBlock) := by
  obtain ⟨members, hmembers, htext⟩ := bind_eq_ok.mp htext
  obtain rfl := Except.ok.inj htext
  obtain ⟨member, hmember, hrender⟩ := exists_of_forall₂_right (mapM_eq_ok.mp hmembers).flip d hd
  have hmore := (hasLines_render hlines hne hs hrender).indentBlock
  refine hmore.inside (by simpa using hne) (List.mem_cons_of_mem _ (List.mem_cons_of_mem _ ?_))
  exact List.mem_flatMap.mpr ⟨member, hmember, List.mem_cons_of_mem _ List.mem_cons_self⟩

/-- How many blocks the definition of a wrapper and its body are inside of. -/
def Descriptor.depth (d : Descriptor Datum) : Nat := if d.owner.isSome then 2 else 1

/-- **THE LINES OF A STATEMENT** stand in the text of a module, each indented by itself. -/
theorem hasLines_renderModule {sourceModule : Option String} (hs : s ∈ d.body) (hd : d ∈ ds)
    (htext : renderModule ds sourceModule = .ok text) :
    ∃ above below, text = "\n".intercalate (above ++ lines.map (indentBlock^[d.depth]) ++ below)
      ++ "\n" := by
  obtain ⟨types, htypes, htext⟩ := bind_eq_ok.mp htext
  obtain ⟨wrappers, hwrappers, htext⟩ := bind_eq_ok.mp htext
  obtain rfl := Except.ok.inj htext
  have hblock : ∃ block ∈ types ++ wrappers, HasLines block (lines.map (indentBlock^[d.depth])) := by
    cases howner : d.owner with
    | none =>
        have hmem : d ∈ ds.filter (·.owner.isNone) := List.mem_filter.mpr ⟨hd, by simp [howner]⟩
        obtain ⟨wrapper, hwrapper, hrender⟩ :=
          exists_of_forall₂_right (mapM_eq_ok.mp hwrappers).flip d hmem
        refine ⟨wrapper, List.mem_append_right _ hwrapper, ?_⟩
        rw [Descriptor.depth, howner]
        exact hasLines_render hlines hne hs hrender
    | some owner =>
        have howners : owner ∈ owners ds := mem_owners.mpr ⟨d, hd, howner⟩
        have hmem : d ∈ ds.filter (·.owner == some owner) :=
          List.mem_filter.mpr ⟨hd, beq_iff_eq.mpr howner⟩
        obtain ⟨type, htype, hrender⟩ :=
          exists_of_forall₂_right (mapM_eq_ok.mp htypes).flip owner howners
        refine ⟨type, List.mem_append_left _ htype, ?_⟩
        have hmore := hasLines_renderType hlines hne hs hmem hrender
        rw [List.map_map] at hmore
        rw [Descriptor.depth, howner]
        exact hmore
  obtain ⟨block, hmem, hblock⟩ := hblock
  have hblocks : block ∈ (types ++ wrappers).flatMap fun block => ["", "", block] :=
    List.mem_flatMap.mpr
      ⟨block, hmem, List.mem_cons_of_mem "" (List.mem_cons_of_mem "" List.mem_cons_self)⟩
  obtain ⟨above, below, hwhole⟩ := hblock.inside (by simpa using hne)
    (List.mem_append_right (moduleHeader ++ _) hblocks)
  exact ⟨above, below, congrArg (· ++ "\n") hwhole⟩

end Module

/-! ## The line that raises -/

/-- What is raised where a clause does not hold. -/
def raiseText (v : Violation) : String :=
  "raise " ++ v.kind.name ++ "(" ++ quote v.message ++ ", clause=" ++ quote v.clause
    ++ ", qualname=" ++ quote v.qualname ++ ")"

/-- The violation of a name. -/
def ViolationKind.named? (name : String) : Option ViolationKind :=
  [.invariant, .precondition, .postcondition].find? fun kind => kind.name == name

/-- The text that a literal stands for. -/
def textOf? (e : Expr) : Option String :=
  match literal? e with
  | some (.str s) => some s
  | _ => none

/-- The violation that a statement raises, with its three texts evaluated as literals. -/
def violationOf? : Stmt → Option Violation
  | .raising (some (.call _ (.name _ f .load) [message]
      [.mk _ (some "clause") clause, .mk _ (some "qualname") qualname])) none => do
    let kind ← ViolationKind.named? f
    let message ← textOf? message
    let clause ← textOf? clause
    let qualname ← textOf? qualname
    some ⟨kind, message, clause, qualname⟩
  | _ => none

/-- The violation that a line of program text raises. -/
def raisedBy (line : String) : Option Violation :=
  match readProgram? line.toList with
  | some [s] => violationOf? s
  | _ => none

/-- A line without a block is read as its statement. -/
theorem readProgram?_line {line : List Char} {fs : List Face} {P : Stmt → Prop}
    (h : LineText line fs) (hflat : FlatText line) (hreads : ReadsStatement 0 (fs ++ [lineEnd]) P) :
    ∃ s, readProgram? line = some [s] ∧ P s := by
  have hfeed : line.getLast? ≠ some '\n' := fun hlast =>
    absurd (hflat _ (List.mem_of_getLast? hlast)).1 (by decide)
  have hlaid : Laid 0 (endLine line) (fs ++ [lineEnd]) := by
    rw [endLine, if_neg hfeed]
    exact .line h .done
  have hblock : ReadsBlock 0 (fs ++ [lineEnd]) (Each [P]) := by
    rw [← List.flatten_singleton (l := fs ++ [lineEnd])]
    exact readsBlock_of_forall₂ (.cons hreads .nil)
  obtain ⟨ss, hread, heach⟩ := readProgram?_of_laid hlaid
    (fun hmem => absurd (hflat _ hmem).1 (by decide)) (fun hmem => (hflat _ hmem).2 rfl) hblock
    (Nat.zero_le _)
  cases heach with
  | cons hs hmore =>
      cases hmore
      exact ⟨_, hread, hs⟩

theorem flat_raiseText (v : Violation) : FlatText (raiseText v).toList := by
  have hname : FlatText v.kind.name.toList := by cases v.kind <;> decide
  have hsigns : FlatText "raise ".toList ∧ FlatText "(".toList ∧ FlatText ", clause=".toList ∧
      FlatText ", qualname=".toList ∧ FlatText ")".toList := by decide
  unfold raiseText
  simp only [String.toList_append, flatText_append, hname, hsigns, and_true, true_and]
  exact ⟨⟨flat_quote v.message, flat_quote v.clause⟩, flat_quote v.qualname⟩

theorem named?_name (kind : ViolationKind) : ViolationKind.named? kind.name = some kind := by
  cases kind <;> decide

theorem textOf?_of_sameShape {e : Expr} {s : String} (h : e.SameShape (literal s)) :
    textOf? e = some s := by
  rw [textOf?, literal?_congr h]
  rfl

/-- Whatever its places, a tree of the shape of what is raised is read as the violation. -/
theorem violationOf?_of_sameShape {e : Expr}
    (h : e.SameShape (violation kind c m)) :
    violationOf? (.raising (some e) none) = some ⟨kind, c.message, c.text, m⟩ := by
  obtain ⟨s, f, as, ks, rfl, hf, has, hks⟩ := exists_call_of_sameShape h
  obtain ⟨s', rfl⟩ := exists_name_of_sameShape hf
  obtain ⟨message, rfl, hmessage⟩ := List.map_eq_singleton_iff.mp has
  obtain ⟨⟨s₁, n₁, clause⟩, ks, rfl, hclause, hks⟩ := List.map_eq_cons_iff.mp hks
  obtain ⟨⟨s₂, n₂, qualname⟩, rfl, hqualname⟩ := List.map_eq_singleton_iff.mp hks
  obtain ⟨-, rfl, hclauseShape⟩ := Keyword.mk.inj hclause
  obtain ⟨-, rfl, hqualnameShape⟩ := Keyword.mk.inj hqualname
  show (ViolationKind.named? kind.name).bind _ = _
  rw [named?_name, Option.bind_some]
  show (textOf? message).bind _ = _
  rw [textOf?_of_sameShape hmessage, Option.bind_some]
  show (textOf? clause).bind _ = _
  rw [textOf?_of_sameShape hclauseShape, Option.bind_some]
  show (textOf? qualname).bind _ = _
  rw [textOf?_of_sameShape hqualnameShape, Option.bind_some]

/-- **THE LINE THAT RAISES** is read as the violation that is raised. -/
theorem raisedBy_raiseText (v : Violation) : raisedBy (raiseText v) = some v := by
  let c : EnforcedClause := ⟨v.clause, v.message, "", default⟩
  obtain ⟨s, hread, e, rfl, hshape⟩ := readProgram?_line
    (lineText_raise v.kind c v.qualname) (flat_raiseText v)
    (reads_raise (spells_violation v.kind c v.qualname))
  have hread : readProgram? (raiseText v).toList = some [.raising (some e) none] := hread
  rw [raisedBy, hread]
  exact violationOf?_of_sameShape hshape

/-! ## Every clause -/

theorem mem_plan_of_checks (role : Role) (i p c q : Bool) :
    (i = true → .checkInvariants ∈ plan role i p c q) ∧
      (p = true → .checkPreconditions ∈ plan role i p c q) ∧
      (q = true → .checkPostconditions ∈ plan role i p c q) := by
  cases role <;> cases i <;> cases p <;> cases c <;> cases q <;> decide

variable {step : Step} {cs : List EnforcedClause}

/-- Every clause of a descriptor is checked in the body of its wrapper. -/
theorem check_mem_body (h : d.checksOf step = some (kind, cs)) (hc : c ∈ cs) :
    .check kind c ∈ d.body := by
  have hne {es : List EnforcedClause} (he : c ∈ es) : (!es.isEmpty) = true := by
    rw [Bool.not_eq_true', List.isEmpty_eq_false_iff_exists_mem]
    exact ⟨c, he⟩
  have hplan := mem_plan_of_checks d.role (!d.invariants.isEmpty) (!d.preconditions.isEmpty)
    (!d.capturedFields.isEmpty) (!d.postconditions.isEmpty)
  have hbody (hstep : step ∈ d.steps) (hcheck : .check kind c ∈ d.statementsOf step) :
      .check kind c ∈ d.body :=
    List.mem_append_right _ (List.mem_flatMap.mpr ⟨step, hstep, hcheck⟩)
  cases step with
  | checkInvariants =>
      obtain ⟨rfl, rfl⟩ := Prod.mk.inj (Option.some.inj h)
      exact hbody (hplan.1 (hne hc)) (List.mem_map_of_mem hc)
  | checkPreconditions =>
      obtain ⟨rfl, rfl⟩ := Prod.mk.inj (Option.some.inj h)
      exact hbody (hplan.2.1 (hne hc)) (List.mem_map_of_mem hc)
  | checkPostconditions =>
      obtain ⟨rfl, rfl⟩ := Prod.mk.inj (Option.some.inj h)
      exact hbody (hplan.2.2 (hne hc)) (List.mem_map_of_mem hc)
  | _ => exact nomatch h

/-- What a declaration promises, by the violation that breaks it. -/
def promisesOf (declaration : Callable Datum) (enclosing : Option (TypeDecl Datum)) :
    ViolationKind → List Clause
  | .invariant => appliedInvariants declaration enclosing
  | .precondition => declaration.preconditions
  | .postcondition => declaration.postconditions

theorem map_promise_eq_promisesOf {declaration : Callable Datum}
    {enclosing : Option (TypeDecl Datum)} (hd : Realizes d declaration enclosing)
    (h : d.checksOf step = some (kind, cs)) :
    cs.map promise = promisesOf declaration enclosing kind := by
  cases step with
  | checkInvariants =>
      obtain ⟨rfl, rfl⟩ := Prod.mk.inj (Option.some.inj h)
      exact hd.invariants
  | checkPreconditions =>
      obtain ⟨rfl, rfl⟩ := Prod.mk.inj (Option.some.inj h)
      exact hd.preconditions
  | checkPostconditions =>
      obtain ⟨rfl, rfl⟩ := Prod.mk.inj (Option.some.inj h)
      exact hd.postconditions
  | _ => exact nomatch h

/-- The test of a clause in the text of a wrapper. -/
def testText (c : EnforcedClause) : String := "if not (" ++ c.enforced ++ "):"

/-- The line that raises, some blocks deep. -/
def raiseLineAt (k : Nat) (v : Violation) : String := String.ofList (margin k) ++ raiseText v

theorem indentBlock_raiseLineAt (k : Nat) (v : Violation) :
    indentBlock (raiseLineAt k v) = raiseLineAt (k + 1) v := by
  have hlist (k : Nat) : (raiseLineAt k v).toList = margin k ++ (raiseText v).toList := by
    rw [raiseLineAt, String.toList_append, String.toList_ofList]
  have hflat : FlatText (raiseLineAt k v).toList := by
    rw [hlist, flatText_append]
    refine ⟨fun c hc => ?_, flat_raiseText v⟩
    rw [(List.mem_replicate.mp hc).2]
    decide
  have hstart : 'r' ∈ (raiseText v).toList := by
    unfold raiseText
    simp
  have hblank : ¬ (raiseLineAt k v).toList.all isBlank = true := fun h =>
    absurd (List.all_eq_true.mp h 'r' (hlist k ▸ List.mem_append_right _ hstart)) (by decide)
  have hmargin : margin (k + 1) = [' ', ' ', ' ', ' '] ++ margin k := by
    rw [margin, margin, Nat.mul_succ, Nat.add_comm, ← List.replicate_append_replicate]
    rfl
  apply String.toList_injective
  rw [toList_indentBlock (linesOf_line _).2 (List.forall_mem_singleton.mpr hflat),
    List.map_singleton, stacked, List.intercalate_singleton, indented, if_neg hblank, hlist, hlist,
    hmargin]
  rfl

theorem iterate_indentBlock_raiseLineAt (n k : Nat) (v : Violation) :
    indentBlock^[n] (raiseLineAt k v) = raiseLineAt (k + n) v := by
  induction n generalizing k with
  | zero => rfl
  | succ n ih => rw [Function.iterate_succ_apply, indentBlock_raiseLineAt, ih, Nat.add_right_comm]; rfl

theorem checkLines_eq (d : Descriptor Datum) (kind : ViolationKind) (c : EnforcedClause) :
    d.checkLines kind c = [testText c, raiseLineAt 1 (d.violation kind c)] := by
  refine congrArg ([testText c, ·]) (String.toList_injective ?_)
  have hmargin : margin 1 = [' ', ' ', ' ', ' '] := rfl
  rw [raiseLineAt, String.toList_append, String.toList_ofList, hmargin]
  unfold raiseText
  simp [Descriptor.violation]

/-- **VIOLATIONS SURVIVE EMISSION.**  For every clause that a woven descriptor checks, the emitted
    module has a line of its own below the test of the clause, as deep as its block, that raises; it
    holds no end of a line, and it is read as the violation with the message and the condition of
    the declaration and with the name of the entry point. -/
theorem violations_emitted {t : Table Datum} {r : Weaving.Result Datum}
    {sourceModule : Option String} (hweave : weave t = .ok r)
    (htext : renderModule r.descriptors sourceModule = .ok text) (hd : d ∈ r.descriptors)
    (hstep : d.checksOf step = some (kind, cs)) (hc : c ∈ cs) :
    (∃ above below, text = "\n".intercalate (above ++ [indentBlock^[d.depth] (testText c),
        raiseLineAt (d.depth + 1) (d.violation kind c)] ++ below) ++ "\n") ∧
      FlatText (raiseText (d.violation kind c)).toList ∧
      raisedBy (raiseText (d.violation kind c)) = some (d.violation kind c) ∧
      ∃ declaration enclosing invariants, Stands t declaration enclosing invariants ∧
        Weaves declaration enclosing invariants d ∧
        cs.map promise = promisesOf declaration enclosing kind := by
  obtain ⟨declaration, enclosing, invariants, hstands, hweaves⟩ := exists_of_mem_descriptors hweave hd
  have hlines : d.statementLines (.check kind c)
      = .ok [testText c, raiseLineAt 1 (d.violation kind c)] :=
    congrArg Except.ok (checkLines_eq d kind c)
  obtain ⟨above, below, hwhole⟩ := hasLines_renderModule hlines (List.cons_ne_nil _ _)
    (check_mem_body hstep hc) hd htext
  refine ⟨⟨above, below, ?_⟩, flat_raiseText _, raisedBy_raiseText _, declaration, enclosing,
    invariants, hstands, hweaves, map_promise_eq_promisesOf (hweaves.realizes hstands) hstep⟩
  rw [List.map_cons, List.map_singleton, iterate_indentBlock_raiseLineAt, Nat.add_comm 1] at hwhole
  exact hwhole

/-- A message with both quotes, an escape, ends of lines, a null character and one beyond sixteen
    bits. -/
def oddMessage : String := "it's \"odd\" \\ \n\r\x0b\u2028\x00 😀"

/-- A ledger with this message. -/
def oddLedger : TypeDecl Datum where
  name := "Ledger"
  fields := ["total"]
  callables := [{
    name := "_add"
    parameters := [{ name := "amount" }]
    preconditions := [⟨"amount != '\u2028'", oddMessage⟩] }]

/-- What the wrappers of a woven table that can be emitted check first, and the messages. -/
def emittedMessages (t : Table Datum) : Option (List (List String)) :=
  (weave t).toOption.bind fun r => (renderModule r.descriptors none).toOption.map fun _ =>
    r.descriptors.map fun d => d.preconditions.map (·.message)

theorem violations_emitted_odd : ∃ r text d c, weave { types := [oddLedger] } = .ok r ∧
    renderModule r.descriptors none = .ok text ∧ d ∈ r.descriptors ∧
    d.checksOf .checkPreconditions = some (.precondition, [c]) ∧ c.message = oddMessage ∧
    (∃ above below, text = "\n".intercalate (above ++ [indentBlock^[d.depth] (testText c),
        raiseLineAt (d.depth + 1) (d.violation .precondition c)] ++ below) ++ "\n") ∧
    raisedBy (raiseText (d.violation .precondition c)) = some (d.violation .precondition c) := by
  have hmessages : emittedMessages { types := [oddLedger] } = some [[oddMessage]] := by
    decide +kernel
  obtain ⟨r, hr, hmessages⟩ := Option.bind_eq_some_iff.mp hmessages
  obtain ⟨text, htext, hmessages⟩ := Option.map_eq_some_iff.mp hmessages
  obtain ⟨d, hds, hmessages⟩ := List.map_eq_singleton_iff.mp hmessages
  obtain ⟨c, hcs, hmessage⟩ := List.map_eq_singleton_iff.mp hmessages
  have hd : d ∈ r.descriptors := hds ▸ List.mem_singleton_self d
  have hstep : d.checksOf .checkPreconditions = some (.precondition, [c]) :=
    hcs ▸ rfl
  have hweave : weave { types := [oddLedger] } = .ok r := toOption_eq_some.mp hr
  have htext : renderModule r.descriptors none = .ok text := toOption_eq_some.mp htext
  obtain ⟨hlines, -, hraised, -⟩ :=
    violations_emitted hweave htext hd hstep (List.mem_singleton_self c)
  exact ⟨r, text, d, c, hweave, htext, hd, hstep, hmessage, hlines, hraised⟩

end Covenant.Wrapper
