import Covenant.Proofs.Emission.Indentation
import Covenant.Proofs.Grammar.Definitions
import Covenant.Proofs.Grammar.Texts
import Covenant.Proofs.Signature.CallText

/-! # Checks — the conditional statements of an emitted wrapper

    Lines are printed statements if they can stand anywhere in a program of
    blocks and are read there as statements of which certain things hold, one
    by one (`Prints`).  They can be put below each other (`Prints.append`) and
    below a line that opens a block (`Prints.under`), and a program of them is
    read as them (`readProgram?_of_prints`).

    An emitted check pastes the text of a clause between round brackets behind
    `not`, and raises where the test holds.

    * A clause is `Pasteable` if its text is one line, can be put between
      brackets and says by itself what its tree says; then the test is read as
      the negation of this tree (`spells_test`).
    * What is raised is read with the message, the clause and the entry point
      as they are (`spells_violation`).
    * However deep its lines are indented, a check is read as one conditional
      statement (`Pasteable.prints`). -/

namespace Covenant.Wrapper

open Text Token Grammar Signature Covenant.Tree Reader

section Prints

variable {n : Nat} {lines more : List (List Char)} {line head : List Char}
  {Ps Qs : List (Stmt → Prop)} {P : Stmt → Prop} {fs hs : List Face} {e test : Expr}

/-- Lines with blocks of some depth that are read as statements of which these things hold. -/
def Prints (n : Nat) (lines : List (List Char)) (Ps : List (Stmt → Prop)) : Prop :=
  ∃ fss, Sits n lines fss.flatten ∧ List.Forall₂ (ReadsStatement n) fss Ps

theorem prints_nil : Prints n [] [] := ⟨[], sits_nil, .nil⟩

theorem prints_gap : Prints n [[]] [] := ⟨[], sits_gap, .nil⟩

/-- **SEQUENCES** of printed statements are printed one below the other. -/
theorem Prints.append (h : Prints n lines Ps) (h' : Prints n more Qs) :
    Prints n (lines ++ more) (Ps ++ Qs) := by
  obtain ⟨fss, hsits, hreads⟩ := h
  obtain ⟨gss, hsits', hreads'⟩ := h'
  refine ⟨fss ++ gss, ?_, List.rel_append hreads hreads'⟩
  rw [List.flatten_append]
  exact hsits.append hsits'

theorem prints_flatMap {α : Type} {text : α → List (List Char)} {Q : α → List (Stmt → Prop)}
    (as : List α) (h : ∀ a ∈ as, Prints n (text a) (Q a)) :
    Prints n (as.flatMap text) (as.flatMap Q) := by
  induction as with
  | nil => exact prints_nil
  | cons a as ih =>
      rw [List.forall_mem_cons] at h
      exact h.1.append (ih h.2)

theorem Prints.mono {m : Nat} (h : Prints n lines Ps) (hle : n ≤ m) : Prints m lines Ps := by
  obtain ⟨fss, hsits, hreads⟩ := h
  refine ⟨fss, hsits.mono hle, hreads.imp fun _ _ hread => ⟨hread.starts, ?_⟩⟩
  exact fun hts _ _ hn hm => hread.reads hts hn (Nat.le_trans hle hm)

theorem Prints.imp {Q : Stmt → Prop} (h : Prints n lines [P]) (hPQ : ∀ s, P s → Q s) :
    Prints n lines [Q] := by
  obtain ⟨fss, hsits, hreads⟩ := h
  cases hreads with
  | cons hread hmore =>
      cases hmore
      refine ⟨_, hsits, .cons ⟨hread.starts, ?_⟩ .nil⟩
      intro ts hts n m hn hm rest hrest stop
      obtain ⟨s, stop', hs, hP⟩ := hread.reads hts hn hm hrest stop
      exact ⟨s, stop', hs, hPQ s hP⟩

/-- A statement on one line. -/
theorem prints_line (h : LineText line fs) (hblank : line.all isBlank = false)
    (hreads : ReadsStatement n (fs ++ [lineEnd]) P) : Prints n [line] [P] := by
  refine ⟨[fs ++ [lineEnd]], ?_, .cons hreads .nil⟩
  rw [List.flatten_singleton]
  exact sits_line h hblank

/-- Printed statements are read as a block. -/
theorem Prints.reads (h : Prints n lines Ps) (hne : Ps ≠ []) :
    ∃ fs, fs ≠ [] ∧ Sits n lines fs ∧ ReadsBlock n fs (Each Ps) := by
  obtain ⟨fss, hsits, hreads⟩ := h
  refine ⟨fss.flatten, ?_, hsits, readsBlock_of_forall₂ hreads⟩
  cases hreads with
  | nil => exact absurd rfl hne
  | cons hread _ =>
      obtain ⟨f, gs, rfl, -⟩ := hread.starts
      exact List.cons_ne_nil f _

/-- A statement with a block below its line. -/
theorem Prints.under (h : Prints n lines Ps) (hne : Ps ≠ []) (hhead : LineText head hs)
    (hblank : head.all isBlank = false)
    (hreads : ∀ fs, fs ≠ [] → ReadsBlock n fs (Each Ps) →
      ReadsStatement (n + 1) (hs ++ lineEnd :: blockStart :: (fs ++ [blockEnd])) P) :
    Prints (n + 1) (head :: lines.map indented) [P] := by
  obtain ⟨fs, hfs, hsits, hblock⟩ := h.reads hne
  refine ⟨[_], ?_, .cons (hreads fs hfs hblock) .nil⟩
  rw [List.flatten_singleton]
  exact hsits.block hfs hhead hblank

/-- **PROGRAMS** of printed statements, below a comment, are read as them. -/
theorem readProgram?_of_prints {remark : List Char} (h : Prints n lines Ps) (hne : Ps ≠ [])
    (hflat : Flat (('#' :: remark) :: lines)) (hn : n < maxIndents) :
    ∃ ss, readProgram? (stacked (('#' :: remark) :: lines) ++ ['\n']) = some ss ∧ Each Ps ss := by
  obtain ⟨fs, -, hsits, hblock⟩ := h.reads hne
  have hended : stacked (('#' :: remark) :: lines) ++ ['\n']
      = '#' :: (remark ++ '\n' :: ended lines) := by
    rw [stacked_append_newline (List.cons_ne_nil _ _), ended, List.flatMap_cons, List.append_assoc]
    rfl
  have hmem {c : Char} (hc : c ∈ '#' :: (remark ++ '\n' :: ended lines)) : IsFlat c ∨ c = '\n' := by
    rw [← hended, stacked_append_newline (List.cons_ne_nil _ _)] at hc
    obtain ⟨line, hline, hc⟩ := List.mem_flatMap.mp hc
    rcases List.mem_append.mp hc with hc | hc
    · exact .inl (hflat line hline c hc)
    · exact .inr (List.mem_singleton.mp hc)
  have hremark : '\n' ∉ remark := fun hc =>
    absurd (hflat _ List.mem_cons_self _ (List.mem_cons_of_mem _ hc)).1 (by decide)
  have hlaid : Laid 0 ('#' :: (remark ++ '\n' :: ended lines)) fs := .comment hremark (hsits.laid hn)
  have hend : endLine ('#' :: (remark ++ '\n' :: ended lines))
      = '#' :: (remark ++ '\n' :: ended lines) := by
    rw [← hended, endLine, if_pos (by simp)]
  rw [hended]
  refine readProgram?_of_laid (hend.symm ▸ hlaid) (fun hc => ?_) (fun hc => ?_) hblock (by omega)
  · rcases hmem hc with hc | hc
    · exact absurd hc.1 (by decide)
    · exact absurd hc (by decide)
  · rcases hmem hc with hc | hc
    · exact hc.2 rfl
    · exact absurd hc (by decide)

/-! ## Statements -/

theorem prints_raise (hraised : Spells hs e) (h : LineText line (wordFace "raise" :: hs))
    (hblank : line.all isBlank = false) :
    Prints n [line] [fun s => ∃ raised, s = .raising (some raised) none ∧ raised.SameShape e] :=
  (prints_line h hblank (reads_raise hraised)).mono (Nat.zero_le n)

theorem Prints.branch (h : Prints n lines Ps) (hne : Ps ≠ []) (htest : Spells hs test)
    (hhead : LineText head (wordFace "if" :: (hs ++ [signFace ":"])))
    (hblank : head.all isBlank = false) :
    Prints (n + 1) (head :: lines.map indented)
      [fun s => ∃ test' body, s = .branch test' body [] ∧ test'.SameShape test ∧ Each Ps body] :=
  h.under hne hhead hblank fun fs hfs hblock => by
    have hreads := reads_branch htest hblock hfs
    have hfaces : wordFace "if" :: (hs ++ [signFace ":"]) ++ lineEnd :: blockStart ::
        (fs ++ [blockEnd])
      = wordFace "if" :: (hs ++ signFace ":" :: lineEnd :: blockStart :: (fs ++ [blockEnd])) := by
      simp
    exact hfaces ▸ hreads

theorem Prints.cls (h : Prints n lines Ps) (hne : Ps ≠ []) {name : String}
    (hname : keywords.contains name = false)
    (hhead : LineText head [wordFace "class", wordFace name, signFace ":"])
    (hblank : head.all isBlank = false) :
    Prints (n + 1) (head :: lines.map indented)
      [fun s => ∃ body, s = .cls ⟨name, [], [], []⟩ body ∧ Each Ps body] :=
  h.under hne hhead hblank fun _ hfs hblock => reads_class hname hblock hfs

end Prints

variable {α : Type} {c : EnforcedClause} {fs : List Face} {ts : List Token} {e : Expr}
  {b rest : List Char} {kind : ViolationKind}

/-! ## Tests -/

/-- The negation of a tree. -/
def negated (e : Expr) : Expr := .compound nowhere (.unaryOp .not) [e]

instance : DecidablePred (Expr.Fits anyCall)
  | .call .. | .name .. | .constant .. | .field .. | .lambda .. | .comprehension .. => .isTrue trivial
  | .compound _ form _ => inferInstanceAs (Decidable (form.isPlain = true))

instance (e : Expr) : Decidable (e.Plain anyCall) :=
  inferInstanceAs (Decidable (∀ n ∈ e.nodes, n.Fits anyCall))

/-- A clause with a text of one line that can be put between round brackets, where no comment
    swallows the closing one, and that is read by itself as the tree of the clause. -/
structure Pasteable (c : EnforcedClause) : Prop where
  flat : ∀ ch ∈ c.enforced.toList, IsFlat ch
  starts : ∃ ch ∈ c.enforced.toList.head?, StartsToken ch
  bracketed : (lexBracketed Pos.start c.enforced.toList).isSome
  reads : ∃ e, readExpression? c.enforced.toList = some e ∧ e.Plain anyCall ∧ e.SameShape c.tree

theorem Pasteable.oneLine (h : Pasteable c) : OneLine c.enforced.toList where
  starts := by
    obtain ⟨ch, hhead, hch⟩ := h.starts
    obtain ⟨more, hmore⟩ := List.head?_eq_some_iff.mp hhead
    exact ⟨ch, more, hmore, hch⟩
  line := fun hmem => absurd (h.flat _ hmem).1 (by decide)
  feed := fun hmem => absurd (h.flat _ hmem).1 (by decide)

/-- The tokens of a test around those of a clause. -/
def testFaces (fs : List Face) : List Face :=
  wordFace "not" :: signFace "(" :: (fs ++ [signFace ")"])

/-- A token at no place. -/
def tokenOf (f : Face) : Token := ⟨f.1, f.2, nowhere⟩

/-- **TESTS**: behind `not` and between round brackets, a clause is negated. -/
theorem spells_test (h : Derives anyCall ts (.several (.rule .expression) e)) :
    Spells (testFaces (faces ts)) (negated e) := by
  obtain ⟨e', hround, hshape⟩ :=
    h.round (t := tokenOf (signFace "(")) (u := tokenOf (signFace ")")) rfl rfl
  have hinversion : Derives anyCall _ (.one (.rule .inversion) e') := hround.climb 11
  have hnegation : Derives anyCall (tokenOf (wordFace "not") :: _)
      (.one (.rule .inversion) (.compound nowhere (.unaryOp .not) [e'])) :=
    .negation nowhere rfl hinversion
  have hfaces : faces (tokenOf (wordFace "not") ::
      (tokenOf (signFace "(") :: (ts ++ [tokenOf (signFace ")")]))) = testFaces (faces ts) := by
    rw [testFaces, faces, List.map_cons, List.map_cons, List.map_append]
    rfl
  exact hfaces ▸ (Spells.of_derives (hnegation.climb 3)).congr
    (sameShape_compound (map_cons_congr hshape rfl))

theorem passes_word {w : String} {cs : List Char} (h : isIdentifier cs = true)
    (hw : String.ofList cs = w) : Token.Passes cs (' ' :: rest) [wordFace w] b b :=
  hw ▸ passes_name h (endsName_cons (by decide))

/-- The line of a test. -/
def testLine (c : EnforcedClause) : List Char := ("if not (" ++ c.enforced ++ "):").toList

/-- The lexer passes over the line of a test, and the clause is negated there. -/
theorem Pasteable.lineText (h : Pasteable c) : ∃ fs, Spells (testFaces fs) (negated c.tree) ∧
    LineText (testLine c) (wordFace "if" :: (testFaces fs ++ [signFace ":"])) := by
  obtain ⟨e, hread, hplain, hshape⟩ := h.reads
  obtain ⟨ts, hts, hpasses⟩ := passes_of_readExpression? h.oneLine hread hplain h.bracketed
  have hspells : Spells (testFaces (faces ts)) (negated c.tree) :=
    (spells_test hts).congr (sameShape_compound (map_cons_congr hshape rfl))
  have hline : testLine c = "if not (".toList ++ (c.enforced.toList ++ [')', ':']) := by
    rw [testLine, String.toList_append, String.toList_append, List.append_assoc]
    rfl
  refine ⟨faces ts, hspells, ⟨'i', _, hline, by decide⟩, fun rest => ?_⟩
  have hclose : Token.Passes [')', ':'] ('\n' :: rest) [signFace ")", signFace ":"] [')'] [] :=
    passes_close.append (passes_colon (by decide))
  have hclause : Token.Passes (c.enforced.toList ++ [')', ':']) ('\n' :: rest)
      (faces ts ++ [signFace ")", signFace ":"]) [')'] [] :=
    (hpasses _ (.inr rfl) _ ⟨_, _, rfl, ends_round⟩).append hclose
  have hopen {rest : List Char} : Token.Passes "if not (".toList rest
      [wordFace "if", wordFace "not", signFace "("] [] [')'] := by
    have hnot : Token.Passes ['n', 'o', 't'] (' ' :: '(' :: rest) [wordFace "not"] [] [] :=
      passes_word (by decide) (by decide)
    have hif : Token.Passes ['i', 'f'] (' ' :: 'n' :: 'o' :: 't' :: ' ' :: '(' :: rest) [wordFace "if"]
        [] [] := passes_word (by decide) (by decide)
    have hround : Token.Passes ['('] rest [signFace "("] [] [')'] := passes_open (by decide)
    exact hif.append (passes_blank (.inl rfl) |>.append (hnot.append
      (passes_blank (.inl rfl) |>.append hround)))
  have hwhole := hopen.append hclause
  rw [hline]
  have hfaces : wordFace "if" :: (testFaces (faces ts) ++ [signFace ":"])
      = [wordFace "if", wordFace "not", signFace "("]
        ++ (faces ts ++ [signFace ")", signFace ":"]) := by
    simp [testFaces]
  rw [hfaces]
  exact hwhole

/-! ## Violations -/

/-- A text at no place. -/
def literal (s : String) : Expr := .constant nowhere (.str s false)

/-- What is raised: the message, the clause and the entry point. -/
def violation (kind : ViolationKind) (c : EnforcedClause) (qualname : String) : Expr :=
  .call nowhere (nameAt kind.name) [literal c.message]
    [.mk nowhere (some "clause") (literal c.text), .mk nowhere (some "qualname") (literal qualname)]

/-- The tokens of what is raised. -/
def violationFaces (kind : ViolationKind) (c : EnforcedClause) (qualname : String) : List Face :=
  [wordFace kind.name, signFace "(", (.string, quote c.message), signFace ",", wordFace "clause",
   signFace "=", (.string, quote c.text), signFace ",", wordFace "qualname", signFace "=",
   (.string, quote qualname), signFace ")"]

theorem derives_literal (s : String) : Derives anyCall [tokenOf (.string, quote s)]
    (.one (.rule .expression) (literal s)) := by
  have hatom : Derives anyCall [tokenOf (.string, quote s)] (.one (.rule .atom) (literal s)) := by
    refine .string nowhere (List.cons_ne_nil _ _) (List.forall_mem_singleton.mpr rfl) ?_
    intro read us hus
    obtain ⟨t, rfl, ht⟩ := List.map_eq_singleton_iff.mp hus
    exact concatenated_quote ht read
  exact hatom.climb 14

theorem derives_nameAt {name : String} (h : keywords.contains name = false) :
    Derives anyCall [tokenOf (wordFace name)] (.one (.rule .primary) (nameAt name)) := by
  have hatom : Derives anyCall [tokenOf (wordFace name)] (.one (.rule .atom) (nameAt name)) :=
    .name (t := tokenOf (wordFace name)) (isIdentifier_eq_true.mpr ⟨rfl, h⟩)
  exact hatom.climb 1

/-- **VIOLATIONS** are spelled with their texts as they are. -/
theorem spells_violation (kind : ViolationKind) (c : EnforcedClause) (qualname : String) :
    Spells (violationFaces kind c qualname) (violation kind c qualname) := by
  have hkind : keywords.contains kind.name = false := by cases kind <;> decide
  have hnamed {name : String} (h : keywords.contains name = false) (s : String) :
      Derives anyCall [tokenOf (wordFace name), tokenOf (signFace "="), tokenOf (.string, quote s)]
        (.argument (.named nowhere name (literal s))) :=
    .namedArgument (t := tokenOf (wordFace name)) nowhere (isIdentifier_eq_true.mpr ⟨rfl, h⟩) rfl
      (derives_literal s)
  have hgiven : Derives anyCall _ (.given [.positional (literal c.message),
      .named nowhere "clause" (literal c.text), .named nowhere "qualname" (literal qualname)]) :=
    .given (.argument (derives_literal c.message))
      (.arguments (t := tokenOf (signFace ",")) rfl (hnamed (by decide) c.text)
        (.arguments (t := tokenOf (signFace ",")) rfl (hnamed (by decide) qualname) .noArguments))
      .none rfl
  have hcall := Derives.call (t := tokenOf (signFace "(")) (u := tokenOf (signFace ")"))
    (derives_nameAt hkind) rfl hgiven rfl rfl trivial
  exact (Spells.of_derives hcall.of_primary).congr rfl

/-- The line that raises, without the blanks in front of it. -/
def raiseLine (kind : ViolationKind) (c : EnforcedClause) (qualname : String) : List Char :=
  ("raise " ++ kind.name ++ "(" ++ quote c.message ++ ", clause=" ++ quote c.text
    ++ ", qualname=" ++ quote qualname ++ ")").toList

/-- An argument that is passed under its name, behind others. -/
theorem passes_named {w s : String} {tail : List Char} (hw : isIdentifier w.toList = true)
    (h : Tail tail) :
    Token.Passes (',' :: ' ' :: (w.toList ++ '=' :: (quote s).toList)) tail
      [signFace ",", wordFace w, signFace "=", (.string, quote s)] b b := by
  have hequals : Token.Passes ['='] ((quote s).toList ++ tail) [signFace "="] b b := by
    rw [toList_quote]
    refine passes_equals ?_
    rcases quoteOf_eq s with h | h <;> rw [h] <;> decide
  have hword : Token.Passes w.toList ((['='] ++ (quote s).toList) ++ tail) [wordFace w] b b :=
    passes_text hw (endsName_cons (by decide))
  have hgiven : Token.Passes (w.toList ++ '=' :: (quote s).toList) tail _ b b :=
    hword.append (hequals.append (passes_quote s h))
  have hblank : Token.Passes [' '] ((w.toList ++ '=' :: (quote s).toList) ++ tail) [] b b :=
    passes_blank (.inl rfl)
  exact passes_comma.append (hblank.append hgiven)

/-- A call on one line. -/
theorem passes_call {f : String} {inner : List Char} (hf : isIdentifier f.toList = true)
    (h : Token.Passes inner (')' :: rest) fs [')'] [')']) :
    Token.Passes (f.toList ++ '(' :: (inner ++ [')'])) rest
      (wordFace f :: signFace "(" :: (fs ++ [signFace ")"])) [] [] := by
  have hopen : Token.Passes ['('] ((inner ++ [')']) ++ rest) [signFace "("] [] [')'] :=
    passes_open (by decide)
  have hround : Token.Passes ('(' :: (inner ++ [')'])) rest
      ([signFace "("] ++ (fs ++ [signFace ")"])) [] [] := hopen.append (h.append passes_close)
  have hname : Token.Passes f.toList (('(' :: (inner ++ [')'])) ++ rest) [wordFace f] [] [] :=
    passes_text hf (endsName_cons (by decide))
  exact hname.append hround

/-- A word and a blank behind it. -/
theorem passes_keyword {w : String} (hw : isIdentifier w.toList = true) :
    Token.Passes (w.toList ++ [' ']) rest [wordFace w] b b := by
  have hword : Token.Passes w.toList ([' '] ++ rest) [wordFace w] b b :=
    passes_text hw (endsName_cons (by decide))
  exact hword.append (passes_blank (.inl rfl))

/-- The lexer passes over the line that raises. -/
theorem lineText_raise (kind : ViolationKind) (c : EnforcedClause) (qualname : String) :
    LineText (raiseLine kind c qualname)
      (wordFace "raise" :: violationFaces kind c qualname) := by
  have hline : raiseLine kind c qualname = ("raise".toList ++ [' ']) ++ (kind.name.toList ++ '(' ::
      (((quote c.message).toList ++ ((',' :: ' ' :: ("clause".toList ++ '=' :: (quote c.text).toList))
        ++ (',' :: ' ' :: ("qualname".toList ++ '=' :: (quote qualname).toList)))) ++ [')'])) := by
    simp [raiseLine]
  rw [hline]
  refine ⟨⟨'r', _, rfl, by decide⟩, fun rest => ?_⟩
  have hqualname {tail : List Char} (h : Tail tail) := passes_named (w := "qualname")
    (s := qualname) (b := [')']) (by decide) h
  have hclause := (passes_named (w := "clause") (s := c.text) (b := [')']) (by decide)
    ⟨_, _, rfl, ends_comma⟩).append (hqualname ⟨')', '\n' :: rest, rfl, ends_round⟩)
  have hgiven := (passes_quote (b := [')']) c.message ⟨_, _, rfl, ends_comma⟩).append hclause
  have hraise {rest : List Char} : Token.Passes ("raise".toList ++ [' ']) rest [wordFace "raise"] [] [] :=
    passes_keyword (by decide)
  exact hraise.append (passes_call (by cases kind <;> decide) hgiven)

/-! ## Steps -/

/-- What a step checks, and what it raises. -/
def Descriptor.checksOf (d : Descriptor α) : Step → Option (ViolationKind × List EnforcedClause)
  | .checkInvariants => some (.invariant, d.invariants)
  | .checkPreconditions => some (.precondition, d.preconditions)
  | .checkPostconditions => some (.postcondition, d.postconditions)
  | _ => none

/-- **A STEP THAT CHECKS** has one check for each of its clauses, in order. -/
theorem statementLines_of_checksOf {d : Descriptor α} {s : Step} {cs : List EnforcedClause}
    (h : d.checksOf s = some (kind, cs)) :
    (d.statementsOf s).mapM d.statementLines = .ok (cs.map (d.checkLines kind)) := by
  have hmap (kind : ViolationKind) (cs : List EnforcedClause) :
      (cs.map (Statement.check kind)).mapM d.statementLines = .ok (cs.map (d.checkLines kind)) := by
    induction cs with
    | nil => rfl
    | cons c cs ih =>
        rw [List.map_cons, List.mapM_cons, ih]
        rfl
  cases s with
  | checkInvariants | checkPreconditions | checkPostconditions =>
      obtain ⟨rfl, rfl⟩ := Prod.mk.inj (Option.some.inj h)
      exact hmap _ _
  | _ => exact nomatch h

/-- A conditional statement that raises unless a clause holds. -/
def IsCheck (kind : ViolationKind) (qualname : String) (c : EnforcedClause) (s : Stmt) : Prop :=
  ∃ test raised, s = .branch test [.raising (some raised) none] [] ∧
    test.SameShape (negated c.tree) ∧ raised.SameShape (violation kind c qualname)

/-- The lines of a check, one for the test and one that raises. -/
theorem toList_checkLines (d : Descriptor α) (kind : ViolationKind) (c : EnforcedClause) :
    (d.checkLines kind c).map String.toList
      = testLine c :: [raiseLine kind c d.qualname].map indented := by
  have hindented : indented (raiseLine kind c d.qualname)
      = ' ' :: ' ' :: ' ' :: ' ' :: raiseLine kind c d.qualname := by
    rw [indented, if_neg]
    simp [raiseLine, isBlank]
  rw [List.map_singleton, hindented]
  simp [Descriptor.checkLines, testLine, raiseLine]

/-- **CHECKS** are read with the clause they check and the violation they raise. -/
theorem Pasteable.prints (h : Pasteable c) (d : Descriptor α) (kind : ViolationKind) :
    Prints 1 ((d.checkLines kind c).map String.toList) [IsCheck kind d.qualname c] := by
  obtain ⟨fs, hspells, htext⟩ := h.lineText
  have hraise := prints_raise (n := 0) (spells_violation kind c d.qualname)
    (lineText_raise kind c d.qualname) (by simp [raiseLine, isBlank])
  have hbranch := hraise.branch (List.cons_ne_nil _ _) hspells htext (by simp [testLine, isBlank])
  rw [toList_checkLines]
  refine hbranch.imp fun s hs => ?_
  obtain ⟨test, body, rfl, hshape, hbody⟩ := hs
  cases hbody with
  | cons hraised hmore =>
      cases hmore
      obtain ⟨raised, rfl, hraised⟩ := hraised
      exact ⟨test, raised, rfl, hshape, hraised⟩

end Covenant.Wrapper
