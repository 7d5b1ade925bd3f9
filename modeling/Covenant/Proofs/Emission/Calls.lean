import Covenant.Proofs.Emission.Checks

/-! # Calls — what an emitted wrapper calls, assigns and returns

    The expressions of an emitted wrapper other than its clauses are names,
    fields of names, literals, and calls with these as their arguments.

    * `WritesName`, `WritesItem` and `WritesArguments` relate the characters
      that are written to what they are read as: in front of whatever ends a
      name, inside the brackets of a call, and between its brackets.
    * A call is written at the end of a line (`WritesName.call`), and may be
      awaited there (`WritesName.awaited`).
    * What stands at the end of a line can be assigned, returned or evaluated
      (`WritesLine.assigns`, `WritesLine.returns`, `WritesLine.evaluates`). -/

namespace Covenant.Wrapper

open Text Token Grammar Signature Declaration Covenant.Tree Reader

variable {α : Type} {cs ds : List Char} {w : String} {e f : Expr} {as : List Argument}

/-! ## Words -/

theorem all_isBlank_of_mem {c : Char} (hmem : c ∈ cs) (hc : isBlank c = false) :
    cs.all isBlank = false :=
  List.all_eq_false.mpr ⟨c, hmem, Bool.eq_false_iff.mp hc⟩

/-- Characters that start with a word. -/
structure Begins (w : String) (cs : List Char) : Prop where
  word : isIdentifier w.toList = true
  front : ∃ more, cs = w.toList ++ more

namespace Begins

variable (h : Begins w cs)
include h

theorem append (ds : List Char) : Begins w (cs ++ ds) where
  word := h.word
  front := by
    obtain ⟨more, rfl⟩ := h.front
    exact ⟨more ++ ds, List.append_assoc ..⟩

theorem exists_cons : ∃ c more, cs = c :: more ∧ isNameStart c = true := by
  obtain ⟨more, rfl⟩ := h.front
  have hword := h.word
  cases hlist : w.toList with
  | nil =>
      rw [hlist] at hword
      exact nomatch hword
  | cons c rest =>
      rw [hlist] at hword
      exact ⟨c, rest ++ more, rfl, (Bool.and_eq_true_iff.mp hword).1⟩

theorem starts : ∃ c more, cs = c :: more ∧ StartsToken c := by
  obtain ⟨c, more, hcs, hc⟩ := h.exists_cons
  exact ⟨c, more, hcs, startsToken_of_mayStartName (mayStartName_of_isNameStart hc)⟩

end Begins

theorem begins_self {w : String} (h : isIdentifier w.toList = true) : Begins w w.toList :=
  ⟨h, [], (List.append_nil _).symm⟩

/-! ## Names and fields -/

/-- Characters that start with a word and are read as a primary, in front of whatever ends a
    name. -/
def WritesName (w : String) (cs : List Char) (e : Expr) : Prop :=
  Begins w cs ∧ ∃ t ts e', (t.kind, t.text) = wordFace w ∧
    Derives anyCall (t :: ts) (.one (.rule .primary) e') ∧ e'.SameShape e ∧
    ∀ b rest : List Char, EndsName rest → Token.Passes cs rest (faces (t :: ts)) b b

theorem writesName {name : String} (h : IsName name) :
    WritesName name name.toList (nameAt name) :=
  ⟨begins_self h.1, tokenOf (wordFace name), [], _, rfl, derives_nameAt h.2, rfl,
    fun _ _ hrest => passes_text h.1 hrest⟩

/-- **A FIELD** of what is written. -/
theorem WritesName.field (h : WritesName w cs e) {name : String} (hname : IsName name) :
    WritesName w (cs ++ '.' :: name.toList) (.field nowhere e name .load) := by
  obtain ⟨hbegins, t, ts, e', ht, hderives, hshape, hpasses⟩ := h
  obtain ⟨c, more, hlist, hc⟩ := (begins_self hname.1).exists_cons
  refine ⟨hbegins.append _, t, ts ++ [tokenOf (signFace "."), tokenOf (wordFace name)],
    .field nowhere e' name .load, ht,
    .field nowhere hderives rfl (isIdentifier_eq_true.mpr ⟨rfl, hname.2⟩),
    sameShape_field hshape, fun b rest hrest => ?_⟩
  have hdot {rest : List Char} : Token.Passes ['.'] (name.toList ++ rest) [signFace "."] b b := by
    rw [hlist]
    refine passes_dot ?_ (isDigit_of_isNameStart hc)
    rintro rfl
    exact absurd hc (by decide)
  have hfield : Token.Passes ('.' :: name.toList) rest [signFace ".", wordFace name] b b :=
    hdot.append (passes_text hname.1 hrest)
  have hwhole := (hpasses b ('.' :: (name.toList ++ rest)) (endsName_cons (by decide))).append hfield
  rw [← List.cons_append, faces_append]
  exact hwhole

/-! ## Arguments -/

/-- Characters that are read as an expression, in front of a tail. -/
def WritesItem (cs : List Char) (e : Expr) : Prop :=
  ∃ ts e', Derives anyCall ts (.one (.rule .expression) e') ∧ e'.SameShape e ∧
    ∀ b tail : List Char, Tail tail → Token.Passes cs tail (faces ts) b b

theorem endsName_of_tail {tail : List Char} (h : Tail tail) : EndsName tail := by
  obtain ⟨c, rest, rfl, hc⟩ := h
  exact endsName_cons ⟨hc.name, hc.quote⟩

theorem WritesName.item (h : WritesName w cs e) : WritesItem cs e := by
  obtain ⟨-, t, ts, e', -, hderives, hshape, hpasses⟩ := h
  exact ⟨t :: ts, e', hderives.of_primary, hshape,
    fun b tail htail => hpasses b tail (endsName_of_tail htail)⟩

theorem writesItem_literal (s : String) : WritesItem (quote s).toList (literal s) :=
  ⟨[tokenOf (.string, quote s)], _, derives_literal s, rfl,
    fun _ _ htail => passes_quote s htail⟩

/-- Characters that are read as the arguments of a call, in front of its closing bracket. -/
def WritesArguments (cs : List Char) (as : List Argument) : Prop :=
  ∃ ts as', Derives anyCall ts (.given as') ∧ as'.map Argument.unplaced = as.map Argument.unplaced ∧
    ∀ rest : List Char, Token.Passes cs (')' :: rest) (faces ts) [')'] [')']

theorem writesArguments_nil : WritesArguments [] [] :=
  ⟨[], [], .nothingGiven, rfl, fun _ => passes_nil⟩

theorem WritesItem.single (h : WritesItem cs e) : WritesArguments cs [.positional e] := by
  obtain ⟨ts, e', hderives, hshape, hpasses⟩ := h
  refine ⟨ts ++ ([] ++ []), [.positional e'], .given (.argument hderives) .noArguments .none rfl, ?_,
    fun rest => ?_⟩
  · have h : e'.unplaced = e.unplaced := hshape
    simp only [List.map_cons, List.map_nil, Argument.unplaced, h]
  · rw [List.append_nil, List.append_nil]
    exact hpasses _ _ ⟨_, _, rfl, ends_round⟩

theorem WritesItem.pair (h : WritesItem cs e) (h' : WritesItem ds f) :
    WritesArguments (cs ++ ',' :: ' ' :: ds) [.positional e, .positional f] := by
  obtain ⟨ts, e', hderives, hshape, hpasses⟩ := h
  obtain ⟨us, f', hderives', hshape', hpasses'⟩ := h'
  refine ⟨ts ++ ((tokenOf (signFace ",") :: (us ++ [])) ++ []), [.positional e', .positional f'],
    .given (.argument hderives) (.arguments rfl (.argument hderives') .noArguments) .none rfl, ?_,
    fun rest => ?_⟩
  · have h : e'.unplaced = e.unplaced := hshape
    have h' : f'.unplaced = f.unplaced := hshape'
    simp only [List.map_cons, List.map_nil, Argument.unplaced, h, h']
  · have hblank {rest : List Char} : Token.Passes [' '] rest [] [')'] [')'] :=
      passes_blank (.inl rfl)
    have hmore : Token.Passes (',' :: ' ' :: ds) (')' :: rest) (signFace "," :: faces us) [')'] [')'] :=
      passes_comma.append (hblank.append (hpasses' _ _ ⟨_, _, rfl, ends_round⟩))
    have hall := (hpasses [')'] (',' :: ' ' :: (ds ++ ')' :: rest)) ⟨_, _, rfl, ends_comma⟩).append
      hmore
    rw [List.append_nil, List.append_nil, faces_append]
    exact hall

/-- **FORWARDED PARAMETERS** are read as the arguments that they stand for. -/
theorem writesArguments_forwarded {ps : List (Parameter α)}
    (h : ps.Pairwise fun p q => rank p.kind ≤ rank q.kind) (hnames : ∀ p ∈ ps, IsName p.name) :
    WritesArguments (", ".intercalate (ps.map forwarded)).toList (ps.map forwardedArgument) := by
  have hfaces : faces ((forwardingFaces ps).map tokenOf) = forwardingFaces ps := by
    rw [faces, List.map_map]
    exact List.map_id _
  obtain ⟨as, has, hshapes⟩ : ∃ as, Derives anyCall ((forwardingFaces ps).map tokenOf) (.given as) ∧
      as.map Argument.unplaced = ps.map forwardedArgument :=
    derives_given_of_rank h (fun p hp => (hnames p hp).2) hfaces
  refine ⟨_, as, has, ?_, fun rest => ?_⟩
  · rw [hshapes, List.map_map]
    exact List.map_congr_left fun p _ => (unplaced_forwardedArgument p).symm
  · rw [hfaces]
    exact passes_forwardingText fun p hp => (hnames p hp).1

/-! ## Lines -/

/-- Characters that start with a word and are read as an expression at the end of a line. -/
def WritesLine (w : String) (cs : List Char) (e : Expr) : Prop :=
  Begins w cs ∧ ∃ fs, Spells (wordFace w :: fs) e ∧
    ∀ rest : List Char, Token.Passes cs ('\n' :: rest) (wordFace w :: fs) [] []

/-- A call with these arguments. -/
def callOf (e : Expr) (as : List Argument) : Expr :=
  .call nowhere e (as.filterMap Argument.positional?) (as.filterMap Argument.keyword?)

theorem WritesName.line (h : WritesName w cs e) : WritesLine w cs e := by
  obtain ⟨hbegins, t, ts, e', ht, hderives, hshape, hpasses⟩ := h
  have hfaces : faces (t :: ts) = wordFace w :: faces ts := congrArg (· :: faces ts) ht
  rw [hfaces] at hpasses
  exact ⟨hbegins, faces ts, hfaces ▸ (Spells.of_derives hderives.of_primary).congr hshape,
    fun rest => hpasses [] _ (endsName_cons (by decide))⟩

/-- The tokens of a call. -/
theorem WritesName.exists_call (h : WritesName w cs e) (has : WritesArguments ds as) :
    ∃ ts e', Derives anyCall ts (.one (.rule .primary) e') ∧ e'.SameShape (callOf e as) ∧
      (∃ fs, faces ts = wordFace w :: fs) ∧
      ∀ rest : List Char, Token.Passes (cs ++ '(' :: (ds ++ [')'])) rest (faces ts) [] [] := by
  obtain ⟨-, t, ts, e', ht, hderives, hshape, hpasses⟩ := h
  obtain ⟨us, as', hgiven, hshapes, hargs⟩ := has
  have hcall := Derives.call (t := tokenOf (signFace "(")) (u := tokenOf (signFace ")")) hderives
    rfl hgiven rfl rfl trivial
  refine ⟨_, _, hcall, ?_, ⟨_, congrArg (· :: _) ht⟩, fun rest => ?_⟩
  · exact sameShape_call hshape (positional?_congr hshapes) (keyword?_congr hshapes)
  · have hopen {rest : List Char} : Token.Passes ['('] rest [signFace "("] [] [')'] :=
      passes_open (by decide)
    have hround : Token.Passes ('(' :: (ds ++ [')'])) rest
        (signFace "(" :: (faces us ++ [signFace ")"])) [] [] :=
      hopen.append ((hargs rest).append passes_close)
    have hwhole := (hpasses [] ('(' :: ((ds ++ [')']) ++ rest)) (endsName_cons (by decide))).append
      hround
    have hfaces : faces (tokenOf (signFace "(") :: (us ++ [tokenOf (signFace ")")]))
        = signFace "(" :: (faces us ++ [signFace ")"]) := by
      rw [faces, List.map_cons, List.map_append]
      rfl
    rw [faces_append, hfaces]
    exact hwhole

/-- **A CALL** at the end of a line. -/
theorem WritesName.call (h : WritesName w cs e) (has : WritesArguments ds as) :
    WritesLine w (cs ++ '(' :: (ds ++ [')'])) (callOf e as) := by
  obtain ⟨ts, e', hderives, hshape, ⟨fs, hfaces⟩, hpasses⟩ := h.exists_call has
  rw [hfaces] at hpasses
  exact ⟨h.1.append _, fs, hfaces ▸ (Spells.of_derives hderives.of_primary).congr hshape,
    fun rest => hpasses _⟩

/-- A call that is awaited. -/
theorem WritesName.awaited (h : WritesName w cs e) (has : WritesArguments ds as) :
    WritesLine "await" ("await ".toList ++ (cs ++ '(' :: (ds ++ [')'])))
      (.compound nowhere .await [callOf e as]) := by
  obtain ⟨ts, e', hderives, hshape, -, hpasses⟩ := h.exists_call has
  have hawait {rest : List Char} : Token.Passes "await ".toList rest [wordFace "await"] [] [] :=
    passes_keyword (w := "await") (by decide)
  exact ⟨⟨by decide, _, rfl⟩, faces ts, (spells_await hderives).congr
    (sameShape_compound (map_cons_congr hshape rfl)), fun rest => hawait.append (hpasses _)⟩

/-! ## Statements -/

/-- An assignment to a name. -/
def IsAssignment (name : String) (e : Expr) (s : Stmt) : Prop :=
  ∃ target value, s = .assign [target] value ∧ target.SameShape (.name nowhere name .store) ∧
    value.SameShape e

/-- A statement that returns a value. -/
def IsReturn (e : Expr) (s : Stmt) : Prop := ∃ value, s = .ret (some value) ∧ value.SameShape e

/-- A statement that evaluates an expression. -/
def IsEvaluation (e : Expr) (s : Stmt) : Prop := ∃ value, s = .expr value ∧ value.SameShape e

variable {n : Nat}

theorem WritesLine.assigns (h : WritesLine w cs e) {name : String} (hname : IsName name) :
    Prints n [name.toList ++ (" = ".toList ++ cs)] [IsAssignment name e] := by
  obtain ⟨-, fs, hspells, hpasses⟩ := h
  have hline : Begins name (name.toList ++ (" = ".toList ++ cs)) := ⟨hname.1, _, rfl⟩
  have hblank {rest : List Char} : Token.Passes [' '] rest [] [] [] := passes_blank (.inl rfl)
  have hequals {rest : List Char} : Token.Passes " = ".toList rest [signFace "="] [] [] :=
    hblank.append ((passes_equals (by decide)).append hblank)
  have htext : LineText (name.toList ++ (" = ".toList ++ cs))
      (wordFace name :: signFace "=" :: wordFace w :: fs) :=
    ⟨hline.starts, fun rest =>
      (passes_text hname.1 (endsName_cons (by decide))).append (hequals.append (hpasses rest))⟩
  have hnonblank : (name.toList ++ (" = ".toList ++ cs)).all isBlank = false :=
    all_isBlank_of_mem (c := '=') (by simp) (by decide)
  exact (prints_line htext hnonblank (reads_assign hname.2 hspells)).mono (Nat.zero_le n)

theorem WritesLine.returns (h : WritesLine w cs e) :
    Prints n ["return ".toList ++ cs] [IsReturn e] := by
  obtain ⟨-, fs, hspells, hpasses⟩ := h
  have hline : Begins "return" ("return ".toList ++ cs) := ⟨by decide, ' ' :: cs, rfl⟩
  have htext : LineText ("return ".toList ++ cs) (wordFace "return" :: wordFace w :: fs) :=
    ⟨hline.starts, fun rest => (passes_keyword (w := "return") (by decide)).append (hpasses rest)⟩
  have hnonblank : ("return ".toList ++ cs).all isBlank = false :=
    all_isBlank_of_mem (c := 'r') (by simp) (by decide)
  exact (prints_line htext hnonblank (reads_return hspells)).mono (Nat.zero_le n)

theorem WritesLine.evaluates (h : WritesLine w cs e)
    (hw : compoundWords.contains w = false ∧ simpleWords.contains w = false ∧ w ≠ "match")
    (hnonblank : w.toList.all isBlank = false) : Prints n [cs] [IsEvaluation e] := by
  obtain ⟨hbegins, fs, hspells, hpasses⟩ := h
  have hnonblank : cs.all isBlank = false := by
    obtain ⟨more, rfl⟩ := hbegins.front
    rw [List.all_append, hnonblank, Bool.false_and]
  have htext : LineText cs (wordFace w :: fs) := ⟨hbegins.starts, hpasses⟩
  exact (prints_line htext hnonblank
    (reads_expression hspells (wordFace_ne _ _) fun _ => hw)).mono (Nat.zero_le n)

end Covenant.Wrapper
