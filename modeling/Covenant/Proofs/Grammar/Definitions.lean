import Covenant.Proofs.Grammar.StatementKinds

/-! # Definitions — functions with their parameters

    The head of a function names its parameters, with marks between their
    groups, and may declare their types and its own.

    * Which part of a parameter list may stand behind which others depends on
      a few marks only (`Marks.enter`), not on names, types or defaults.
    * A parameter list whose parts may stand in their order is read
      (`formals_of_parts`), and so is a function with it (`reads_function`). -/

namespace Covenant.Tree

/-- The names of the parameters of a definition. -/
def Formals.names (ps : Formals) : List String :=
  (ps.positionalOnly ++ ps.positional ++ ps.variadic.toList ++ ps.named.map (·.1)
    ++ ps.variadicNamed.toList).map (·.name)

end Covenant.Tree

namespace Covenant.Grammar

open Covenant.Tree Covenant.Token Reader

variable {t u v : Token} {ts us vs rest : List Token} {fs gs hs : List Face} {e : Expr}
  {n depth : Nat} {stop : Pos} {name : String} {list : ParameterList Formal}

/-! ## Parts of a parameter list -/

/-- A part of a parameter list: a mark, or a parameter with the faces of its type and of its
    default. -/
inductive Part where
  | slash
  | loneStar
  | star (name : String) (hint : Option (List Face))
  | doubleStar (name : String) (hint : Option (List Face))
  | plain (name : String) (hint default : Option (List Face))

namespace Part

/-- The faces of a sign with what follows it, if it does. -/
def signed (sign : String) : Option (List Face) → List Face
  | some fs => signFace sign :: fs
  | none => []

/-- The faces of a part. -/
def faces : Part → List Face
  | slash => [signFace "/"]
  | loneStar => [signFace "*"]
  | star name hint => signFace "*" :: wordFace name :: signed ":" hint
  | doubleStar name hint => signFace "**" :: wordFace name :: signed ":" hint
  | plain name hint default => wordFace name :: (signed ":" hint ++ signed "=" default)

/-- The parameters that a part declares. -/
def names : Part → List String
  | slash | loneStar => []
  | star name _ | doubleStar name _ | plain name _ _ => [name]

/-- Whether the names, types and defaults of a part are spelled. -/
def Spelled : Part → Prop
  | slash | loneStar => True
  | star name hint | doubleStar name hint =>
    keywords.contains name = false ∧ ∀ fs ∈ hint, ∃ e, Spells fs e
  | plain name hint default => keywords.contains name = false ∧
      (∀ fs ∈ hint, ∃ e, Spells fs e) ∧ ∀ fs ∈ default, ∃ e, Spells fs e

end Part

/-- What the order of parameters depends on. -/
structure Marks where
  positional : Bool := false
  defaulted : Bool := false
  needsNamed : Bool := false
  starred : Bool := false
  slashed : Bool := false
  closed : Bool := false
  deriving DecidableEq

/-- The marks of parameters. -/
def marksOf (list : ParameterList Formal) : Marks where
  positional := !list.positional.isEmpty
  defaulted := !list.defaults.isEmpty
  needsNamed := list.needsNamed
  starred := list.starred
  slashed := list.slashed
  closed := list.variadicNamed.isSome

/-- The parameters of a list so far. -/
def declaredIn (list : ParameterList Formal) : List Formal :=
  list.positionalOnly ++ list.positional ++ list.variadic.toList ++ list.named.map (·.1)
    ++ list.variadicNamed.toList

/-- A parameter list that declares these names: what a slash or a star puts into a group of its own
    is there only behind it. -/
structure Declares (list : ParameterList Formal) (names : List String) : Prop where
  mem_iff : ∀ x, x ∈ (declaredIn list).map (·.name) ↔ x ∈ names
  unslashed : list.slashed = false → list.positionalOnly = []
  unstarred : list.starred = false → list.variadic = none

theorem declares_nil : Declares {} [] := ⟨fun _ => Iff.rfl, fun _ => rfl, fun _ => rfl⟩

/-- One more part, if it may stand there. -/
def Marks.enter (m : Marks) : Part → Option Marks
  | .slash =>
    if !m.closed && (!m.slashed && !m.starred && m.positional) then
      some { m with positional := false, slashed := true }
    else none
  | .loneStar =>
    if !m.closed && !m.starred then some { m with starred := true, needsNamed := true } else none
  | .star .. => if !m.closed && !m.starred then some { m with starred := true } else none
  | .doubleStar .. =>
    if !m.closed && !m.needsNamed then some { m with closed := true } else none
  | .plain _ _ default =>
    if m.closed then none
    else if m.starred then some { m with needsNamed := false }
    else if default.isSome || !m.defaulted then
      some { m with positional := true, defaulted := m.defaulted || default.isSome }
    else none

/-- Several more parts. -/
def Marks.enterAll (m : Marks) : List Part → Option Marks
  | [] => some m
  | p :: ps => (m.enter p).bind (enterAll · ps)

/-! ## Reading parts -/

/-- Whether a token ends a part of a parameter list. -/
def endsPart (t : Token) : Prop := isOp "," t = true ∨ isOp ")" t = true

theorem isOp_of_endsPart {o : String} (h : endsPart t) (ho : o ≠ "," ∧ o ≠ ")") :
    isOp o t = false := by
  rcases h with h | h
  · exact isOp_of_ne h (Ne.symm ho.1)
  · exact isOp_of_ne h (Ne.symm ho.2)

theorem stops_of_endsPart (h : endsPart t) : Rule.expression.stops t = true := by
  rcases h with h | h <;> exact stops_of_isOp h rfl

/-- Whether a token follows the declared type of a parameter. -/
def followsHint (t : Token) : Prop :=
  Rule.expression.stops t = true ∧ isOp ":" t = false

/-- A parameter is read with its declared type, if it has one. -/
theorem formal_of_hint {p : Reader Expr} {hint : Option (List Face)}
    (hp : ∀ {fs e}, Spells fs e → ∀ {ts}, faces ts = fs → ts.length ≤ n → ∀ {rest},
      Next (fun t => Rule.expression.stops t = true) rest → Yields p ts rest e)
    (ht : isIdentifier t = true) (hhint : ∀ fs ∈ hint, ∃ e, Spells fs e)
    (hts : faces ts = Part.signed ":" hint) (hn : ts.length ≤ n)
    (hrest : Next followsHint rest) (stop : Pos) :
    ∃ f stop', formal p ⟨t :: (ts ++ rest), stop⟩ = some (f, ⟨rest, stop'⟩) ∧ f.name = t.text := by
  cases hint with
  | none =>
      obtain rfl := List.map_eq_nil_iff.mp hts
      refine ⟨⟨⟨t.span.start, t.span.stop⟩, t.text, none⟩, t.span.stop, ?_, rfl⟩
      rw [formal, bind_of_eq (identifier_cons ht)]
      refine (bind_of_eq (takesOp_of_next (hrest.mono fun _ h => h.2))).trans ?_
      rfl
  | some fs =>
      obtain ⟨u, us, rfl, hu, hus⟩ := List.map_eq_cons_iff.mp hts
      obtain ⟨e, he⟩ := hhint fs rfl
      rw [List.length_cons] at hn
      obtain ⟨e', stop', hread, -⟩ :=
        hp he hus (by omega) (hrest.mono fun _ h => h.1) u.span.stop
      refine ⟨⟨⟨t.span.start, stop'⟩, t.text, some e'⟩, stop', ?_, rfl⟩
      rw [formal, bind_of_eq (identifier_cons ht)]
      refine (bind_of_eq (takesOp_cons (isOp_of_face hu))).trans ?_
      refine (bind_of_eq hread).trans ?_
      rfl

/-- What may be declared as the type of a variadic parameter: an expression that may be starred. -/
def starredHint (l : Level) : Reader Expr := do
  if ← seesOp "*" then starred l.bitwiseOr else l.expression

theorem yields_starredHint (h : Spells fs e) (hts : faces ts = fs) (hn : ts.length ≤ n)
    (hrest : Next (fun t => Rule.expression.stops t = true) rest) :
    Yields (starredHint (level (n + 1))) ts rest e := by
  intro stop
  obtain ⟨e', stop', hread, hshape⟩ := h.reads hts hn hrest stop
  refine ⟨e', stop', ?_, hshape⟩
  rw [starredHint, bind_of_eq (seesOp_of_next ((h.starts hts rest).mono fun _ h =>
    isOp_of_opens h rfl))]
  exact hread

/-- A part of a parameter list of a definition. -/
def formalEntry (l : Level) : ParameterList Formal → Reader (ParameterList Formal) :=
  parameterEntry (formal l.expression) (formal (starredHint l)) l.expression

theorem isNone_of_not_closed (h : (marksOf list).closed = false) :
    list.variadicNamed.isNone = true := by
  rw [← Option.not_isSome, show list.variadicNamed.isSome = false from h]
  rfl

/-- The end of a plain part: its parameter is entered. -/
def formalEnd (list : ParameterList Formal) (f : Formal) (d : Option Expr) :
    Reader (ParameterList Formal) :=
  if list.starred then pure { list with named := list.named ++ [(f, d)], needsNamed := false }
  else do
    require (d.isSome || list.defaults.isEmpty)
    pure { list with positional := list.positional ++ [f], defaults := list.defaults ++ d.toList }

theorem formalEnd_of_enter {hint default : Option (List Face)} {m : Marks} {f : Formal}
    {d : Option Expr} (hd : d.isSome = default.isSome)
    (henter : (marksOf list).enter (.plain name hint default) = some m) (c : Cursor) :
    ∃ list', formalEnd list f d c = some (list', c) ∧ marksOf list' = m ∧
      ∀ names, Declares list names → Declares list' (names ++ [f.name]) := by
  obtain ⟨-, henter⟩ := Option.ite_none_left_eq_some.mp henter
  by_cases hstarred : list.starred = true
  · rw [if_pos (show (marksOf list).starred = true from hstarred)] at henter
    refine ⟨{ list with named := list.named ++ [(f, d)], needsNamed := false }, ?_,
      Option.some.inj henter, fun names hnames => ⟨fun x => ?_, hnames.unslashed, hnames.unstarred⟩⟩
    · rw [formalEnd, if_pos hstarred]
      rfl
    · rw [List.mem_append, ← hnames.mem_iff]
      simp only [declaredIn, List.map_append, List.mem_append, List.map_cons, List.map_nil,
        List.mem_singleton]
      grind only
  · rw [if_neg (show ¬ (marksOf list).starred = true from hstarred)] at henter
    obtain ⟨hmay, hm⟩ := Option.ite_none_right_eq_some.mp henter
    refine ⟨{ list with
      positional := list.positional ++ [f], defaults := list.defaults ++ d.toList }, ?_, ?_,
        fun names hnames => ⟨fun x => ?_, hnames.unslashed, hnames.unstarred⟩⟩
    · have hmay : (d.isSome || list.defaults.isEmpty) = true := by
        rw [hd]
        simpa [marksOf] using hmay
      rw [formalEnd, if_neg hstarred, hmay, bind_of_eq require_true]
      rfl
    · rw [← Option.some.inj hm, marksOf, marksOf, ← hd]
      cases d <;> simp
    · rw [List.mem_append, ← hnames.mem_iff]
      simp only [declaredIn, List.map_append, List.mem_append, List.map_cons, List.map_nil,
        List.mem_singleton]
      grind only

/-- **A PART** of a parameter list is read where it may stand. -/
theorem formalEntry_of_part {part : Part} {m : Marks} (hpart : part.Spelled)
    (hts : faces ts = part.faces) (hn : ts.length ≤ n) (henter : (marksOf list).enter part = some m)
    (hrest : Next endsPart rest)
    (hlone : part = .loneStar → Next (fun t => isOp "," t = true) rest) (stop : Pos) :
    ∃ list' stop', formalEntry (level (n + 1)) list ⟨ts ++ rest, stop⟩
      = some (list', ⟨rest, stop'⟩) ∧ marksOf list' = m ∧
        ∀ names, Declares list names → Declares list' (names ++ part.names) := by
  have hfollows : Next followsHint rest :=
    hrest.mono fun _ h => ⟨stops_of_endsPart h, isOp_of_endsPart h (by decide)⟩
  cases part with
  | slash =>
      obtain ⟨t, rfl, ht⟩ := List.map_eq_singleton_iff.mp hts
      have ht : isOp "/" t = true := isOp_of_face ht
      obtain ⟨hmay, hm⟩ := Option.ite_none_right_eq_some.mp henter
      obtain ⟨hopen, hmay⟩ := Bool.and_eq_true_iff.mp hmay
      have hnone := isNone_of_not_closed (by simpa using hopen)
      refine ⟨{ list with positionalOnly := list.positional, positional := [], slashed := true },
        t.span.stop, ?_, Option.some.inj hm, fun names hnames => ⟨fun x => ?_, by rintro ⟨⟩,
          hnames.unstarred⟩⟩
      rotate_left
      · have hunslashed : list.slashed = false := by
          rw [Bool.and_eq_true_iff, Bool.and_eq_true_iff, Bool.not_eq_true'] at hmay
          exact hmay.1.1
        rw [Part.names, List.append_nil, ← hnames.mem_iff, declaredIn, declaredIn,
          hnames.unslashed hunslashed, List.nil_append, List.append_nil]
      rw [List.cons_append, List.nil_append, formalEntry, parameterEntry, hnone,
        bind_of_eq require_true, bind_of_eq (takesOp_cons ht), if_pos rfl,
        show (!list.slashed && !list.starred && !list.positional.isEmpty) = true from hmay,
        bind_of_eq require_true]
      rfl
  | loneStar =>
      obtain ⟨t, rfl, ht⟩ := List.map_eq_singleton_iff.mp hts
      have ht : isOp "*" t = true := isOp_of_face ht
      obtain ⟨hmay, hm⟩ := Option.ite_none_right_eq_some.mp henter
      obtain ⟨hopen, hmay⟩ := Bool.and_eq_true_iff.mp hmay
      have hnone := isNone_of_not_closed (by simpa using hopen)
      refine ⟨{ list with starred := true, needsNamed := true }, t.span.stop, ?_,
        Option.some.inj hm, fun names hnames => ⟨fun x => ?_, hnames.unslashed, by rintro ⟨⟩⟩⟩
      rotate_left
      · rw [Part.names, List.append_nil, ← hnames.mem_iff]
        rfl
      rw [List.cons_append, List.nil_append, formalEntry, parameterEntry, hnone,
        bind_of_eq require_true]
      refine (bind_of_eq (takesOp_of_false (isOp_of_ne ht (by decide)))).trans ?_
      refine (bind_of_eq (takesOp_of_false (isOp_of_ne ht (by decide)))).trans ?_
      refine (bind_of_eq (takesOp_cons ht)).trans ?_
      rw [if_pos rfl, show (!list.starred) = true from hmay, bind_of_eq require_true,
        bind_of_eq (seesOp_of_next (hlone rfl))]
      rfl
  | star name hint =>
      obtain ⟨hname, hhint⟩ := hpart
      obtain ⟨t, _, rfl, ht, hts⟩ := List.map_eq_cons_iff.mp hts
      obtain ⟨u, us, rfl, hu, hus⟩ := List.map_eq_cons_iff.mp hts
      have ht : isOp "*" t = true := isOp_of_face ht
      have htext : u.text = name := (Prod.mk.inj hu).2
      have hu := isIdentifier_of_face hu hname
      obtain ⟨hmay, hm⟩ := Option.ite_none_right_eq_some.mp henter
      obtain ⟨hopen, hmay⟩ := Bool.and_eq_true_iff.mp hmay
      have hnone := isNone_of_not_closed (by simpa using hopen)
      simp only [List.length_cons] at hn
      obtain ⟨f, stop', hread, hf⟩ := formal_of_hint
        (fun h _ hts hn _ hrest => yields_starredHint h hts hn hrest) hu hhint hus (n := n) (by omega)
        hfollows t.span.stop
      refine ⟨{ list with starred := true, variadic := some f }, stop', ?_, Option.some.inj hm,
        fun names hnames => ⟨fun x => ?_, hnames.unslashed, by rintro ⟨⟩⟩⟩
      rotate_left
      · have hunstarred : list.starred = false := by rwa [Bool.not_eq_true'] at hmay
        rw [Part.names, List.mem_append, ← hnames.mem_iff, declaredIn, declaredIn,
          hnames.unstarred hunstarred, ← htext, ← hf]
        simp only [List.map_append, List.mem_append, Option.toList_some, Option.toList_none,
          List.map_cons, List.map_nil, List.mem_singleton, List.not_mem_nil]
        grind only
      rw [List.cons_append, List.cons_append, formalEntry, parameterEntry, hnone,
        bind_of_eq require_true]
      refine (bind_of_eq (takesOp_of_false (isOp_of_ne ht (by decide)))).trans ?_
      refine (bind_of_eq (takesOp_of_false (isOp_of_ne ht (by decide)))).trans ?_
      refine (bind_of_eq (takesOp_cons ht)).trans ?_
      rw [if_pos rfl, show (!list.starred) = true from hmay, bind_of_eq require_true,
        bind_of_eq (seesOp_of_eq (isOp_of_isIdentifier hu))]
      refine (bind_of_eq hread).trans ?_
      rfl
  | doubleStar name hint =>
      obtain ⟨hname, hhint⟩ := hpart
      obtain ⟨t, _, rfl, ht, hts⟩ := List.map_eq_cons_iff.mp hts
      obtain ⟨u, us, rfl, hu, hus⟩ := List.map_eq_cons_iff.mp hts
      have ht : isOp "**" t = true := isOp_of_face ht
      have htext : u.text = name := (Prod.mk.inj hu).2
      have hu := isIdentifier_of_face hu hname
      obtain ⟨hmay, hm⟩ := Option.ite_none_right_eq_some.mp henter
      obtain ⟨hopen, hmay⟩ := Bool.and_eq_true_iff.mp hmay
      have hnone := isNone_of_not_closed (by simpa using hopen)
      simp only [List.length_cons] at hn
      obtain ⟨f, stop', hread, hf⟩ := formal_of_hint (p := (level (n + 1)).expression)
        (fun h _ hts hn _ hrest => h.reads hts hn hrest) hu hhint hus (n := n) (by omega)
        hfollows t.span.stop
      refine ⟨{ list with variadicNamed := some f }, stop', ?_, Option.some.inj hm,
        fun names hnames => ⟨fun x => ?_, hnames.unslashed, hnames.unstarred⟩⟩
      rotate_left
      · rw [Part.names, List.mem_append, ← hnames.mem_iff, declaredIn, declaredIn,
          Option.isNone_iff_eq_none.mp hnone, ← htext, ← hf]
        simp only [List.map_append, List.mem_append, Option.toList_some, Option.toList_none,
          List.map_cons, List.map_nil, List.mem_singleton, List.not_mem_nil]
        grind only
      rw [List.cons_append, List.cons_append, formalEntry, parameterEntry, hnone,
        bind_of_eq require_true]
      refine (bind_of_eq (takesOp_of_false (isOp_of_ne ht (by decide)))).trans ?_
      refine (bind_of_eq (takesOp_cons ht)).trans ?_
      rw [if_pos rfl, show (!list.needsNamed) = true from hmay, bind_of_eq require_true]
      refine (bind_of_eq hread).trans ?_
      rfl
  | plain name hint default =>
      obtain ⟨hname, hhint, hdefault⟩ := hpart
      obtain ⟨t, _, rfl, ht, hts⟩ := List.map_eq_cons_iff.mp hts
      obtain ⟨us, vs, rfl, hus, hvs⟩ := List.map_eq_append_iff.mp hts
      have htext : t.text = name := (Prod.mk.inj ht).2
      have ht := isIdentifier_of_face ht hname
      simp only [List.length_cons, List.length_append] at hn
      have hafter : Next followsHint (vs ++ rest) := by
        cases default with
        | none =>
            obtain rfl := List.map_eq_nil_iff.mp hvs
            exact hfollows
        | some fs =>
            obtain ⟨v, vs, rfl, hv, -⟩ := List.map_eq_cons_iff.mp hvs
            have hv : isOp "=" v = true := isOp_of_face hv
            exact .cons ⟨stops_of_isOp hv rfl, isOp_of_ne hv (by decide)⟩
      obtain ⟨f, stop₁, hread, hf⟩ := formal_of_hint (p := (level (n + 1)).expression)
        (fun h _ hts hn _ hrest => h.reads hts hn hrest) ht hhint hus (n := n) (by omega)
        hafter stop
      have hnone : list.variadicNamed.isNone = true :=
        isNone_of_not_closed (by simpa using (Option.ite_none_left_eq_some.mp henter).1)
      -- what stands behind the sign of the default
      obtain ⟨d, stop₂, hd, hdefaultRead⟩ : ∃ d stop₂, d.isSome = default.isSome ∧
          ∀ f, (do
            let d ← if ← takesOp "=" then do pure (some (← (level (n + 1)).expression)) else pure none
            formalEnd list f d : Reader (ParameterList Formal)) ⟨vs ++ rest, stop₁⟩
              = formalEnd list f d ⟨rest, stop₂⟩ := by
        cases default with
        | none =>
            obtain rfl := List.map_eq_nil_iff.mp hvs
            refine ⟨none, stop₁, rfl, fun f => ?_⟩
            exact bind_of_eq (takesOp_of_next
              (hrest.mono fun _ h => isOp_of_endsPart h (by decide)))
        | some fs =>
            obtain ⟨v, vs, rfl, hv, hvs⟩ := List.map_eq_cons_iff.mp hvs
            obtain ⟨e, he⟩ := hdefault fs rfl
            rw [List.length_cons] at hn
            obtain ⟨e', stop', hread, -⟩ := he.reads hvs (n := n) (by omega)
              (hrest.mono fun _ h => stops_of_endsPart h) v.span.stop
            refine ⟨some e', stop', rfl, fun f => ?_⟩
            exact (bind_of_eq (takesOp_cons (isOp_of_face hv))).trans (bind_of_eq hread)
      obtain ⟨list', hend, hm, hnames⟩ := formalEnd_of_enter (f := f) hd henter ⟨rest, stop₂⟩
      rw [hf, htext] at hnames
      refine ⟨list', stop₂, ?_, hm, hnames⟩
      rw [List.cons_append, List.append_assoc, formalEntry, parameterEntry, hnone,
        bind_of_eq require_true]
      refine (bind_of_eq (takesOp_of_false (isOp_of_isIdentifier ht))).trans ?_
      refine (bind_of_eq (takesOp_of_false (isOp_of_isIdentifier ht))).trans ?_
      refine (bind_of_eq (takesOp_of_false (isOp_of_isIdentifier ht))).trans ?_
      refine (bind_of_eq hread).trans ?_
      exact (hdefaultRead f).trans hend

/-! ## Parameter lists -/

/-- The faces of parts behind commas. -/
def moreFaces (parts : List Part) : List Face := parts.flatMap fun p => signFace "," :: p.faces

/-- The faces of the parts of a parameter list. -/
def partFaces : List Part → List Face
  | [] => []
  | part :: parts => part.faces ++ moreFaces parts

/-- One more part behind a comma, if there is one. -/
def nextFormal (l : Level) (list : ParameterList Formal) : Reader (Option (ParameterList Formal)) :=
  maybe do
    op ","
    formalEntry l list

variable {part : Part} {parts : List Part} {m m' : Marks}

/-- Behind a lone star that a named parameter follows there is a comma. -/
theorem comma_of_lonePart (hus : faces us = moreFaces parts)
    (henter : (m.enter part).bind (Marks.enterAll · parts) = some m') (hm : m'.needsNamed = false)
    (hlone : part = .loneStar) : Next (fun t => isOp "," t = true) (us ++ rest) := by
  subst hlone
  cases parts with
  | nil =>
      obtain ⟨m₁, hone, hm'⟩ := Option.bind_eq_some_iff.mp henter
      obtain rfl := Option.some.inj hm'
      obtain ⟨-, heq⟩ := Option.ite_none_right_eq_some.mp hone
      rw [← Option.some.inj heq] at hm
      exact nomatch hm
  | cons part parts =>
      obtain ⟨t, vs, rfl, ht, -⟩ := List.map_eq_cons_iff.mp hus
      exact .cons (isOp_of_face ht)

theorem endsPart_of_more (hus : faces us = moreFaces parts) (hrest : Next endsPart rest) :
    Next endsPart (us ++ rest) := by
  cases parts with
  | nil =>
      obtain rfl := List.map_eq_nil_iff.mp hus
      exact hrest
  | cons part parts =>
      obtain ⟨t, vs, rfl, ht, -⟩ := List.map_eq_cons_iff.mp hus
      exact .cons (.inl (isOp_of_face ht))

/-- Parts behind commas are read one after the other. -/
theorem steps_of_parts (hparts : ∀ p ∈ parts, p.Spelled) (hus : faces us = moreFaces parts)
    (hn : us.length ≤ n) (henter : (marksOf list).enterAll parts = some m)
    (hm : m.needsNamed = false) (hrest : Next endsPart rest) (stop : Pos) :
    ∃ list' stop', Steps (nextFormal (level (n + 1))) parts.length list ⟨us ++ rest, stop⟩ list'
        ⟨rest, stop'⟩ ∧ marksOf list' = m ∧ parts.length ≤ us.length ∧
      ∀ names, Declares list names → Declares list' (names ++ parts.flatMap Part.names) := by
  induction parts generalizing us list stop with
  | nil =>
      obtain rfl := List.map_eq_nil_iff.mp hus
      refine ⟨list, stop, .none, Option.some.inj henter, Nat.le_refl 0, fun names hnames => ?_⟩
      rwa [List.flatMap_nil, List.append_nil]
  | cons part parts ih =>
      rw [List.forall_mem_cons] at hparts
      obtain ⟨t, _, rfl, ht, hus⟩ := List.map_eq_cons_iff.mp hus
      obtain ⟨ts, us, rfl, hts, hus⟩ := List.map_eq_append_iff.mp hus
      simp only [List.length_cons, List.length_append] at hn
      obtain ⟨m₁, hone, hmore⟩ := Option.bind_eq_some_iff.mp henter
      obtain ⟨list₁, stop₁, hread, rfl, hpart⟩ := formalEntry_of_part hparts.1 hts (n := n) (by omega) hone
        (endsPart_of_more hus hrest) (comma_of_lonePart hus henter hm) t.span.stop
      obtain ⟨list', stop', hsteps, hmarks, hlength, hnames⟩ := ih hparts.2 hus (by omega) hmore stop₁
      refine ⟨list', stop', .step (maybe_of_some ?_) hsteps, hmarks, ?_, fun names hlist => ?_⟩
      · rw [List.cons_append, List.append_assoc, bind_of_eq (op_cons (isOp_of_face ht))]
        exact hread
      · simp only [List.length_cons, List.length_append]
        omega
      · rw [List.flatMap_cons, ← List.append_assoc]
        exact hnames _ (hpart names hlist)

/-- No part starts with the closing bracket. -/
theorem next_of_part (hts : faces ts = part.faces) (rest : List Token) :
    Next (fun t => isOp ")" t = false) (ts ++ rest) := by
  cases part with
  | slash | loneStar => exact next_of_face hts (fun t ht => isOp_eq_false (by decide) ht) rest
  | star name hint | doubleStar name hint =>
      exact next_of_face hts (fun t ht => isOp_eq_false (by decide) ht) rest
  | plain name hint default =>
      exact next_of_face hts (fun t ht => isOp_eq_false (wordFace_ne name _) ht) rest

/-- **PARAMETER LISTS** are read if their parts may stand in their order. -/
theorem formals_of_parts (hparts : ∀ p ∈ parts, p.Spelled) (hts : faces ts = partFaces parts)
    (hn : ts.length ≤ n) (henter : Marks.enterAll {} parts = some m) (hm : m.needsNamed = false)
    (hu : isOp ")" u = true) (rest : List Token) (stop : Pos) :
    ∃ ps stop', formals (level (n + 1)) ⟨ts ++ u :: rest, stop⟩ = some (ps, ⟨u :: rest, stop'⟩) ∧
      ∀ x, x ∈ ps.names ↔ x ∈ parts.flatMap Part.names := by
  suffices h : ∃ list stop', parameterList ")" (formal (level (n + 1)).expression)
      (formal (starredHint (level (n + 1)))) (level (n + 1)).expression ⟨ts ++ u :: rest, stop⟩
        = some (list, ⟨u :: rest, stop'⟩) ∧ Declares list (parts.flatMap Part.names) by
    obtain ⟨list, stop', hlist, hnames⟩ := h
    exact ⟨_, stop', (bind_of_eq hlist).trans rfl, hnames.mem_iff⟩
  cases parts with
  | nil =>
      obtain rfl := List.map_eq_nil_iff.mp hts
      exact ⟨{}, stop, (bind_of_eq (seesOp_of_eq hu)).trans rfl, declares_nil⟩
  | cons part parts =>
      rw [List.forall_mem_cons] at hparts
      obtain ⟨ts, us, rfl, hts, hus⟩ := List.map_eq_append_iff.mp hts
      rw [List.length_append] at hn
      have hend : Next endsPart (u :: rest) := .cons (.inr hu)
      obtain ⟨m₁, hone, hmore⟩ := Option.bind_eq_some_iff.mp henter
      have hone : (marksOf {}).enter part = some m₁ := hone
      obtain ⟨list₁, stop₁, hread, rfl, hpart⟩ := formalEntry_of_part hparts.1 hts (n := n)
        (by omega) hone (endsPart_of_more hus hend) (comma_of_lonePart hus henter hm) stop
      obtain ⟨list', stop', hsteps, rfl, hlength, hnames⟩ :=
        steps_of_parts hparts.2 hus (n := n) (by omega) hmore hm hend stop₁
      have hlast : nextFormal (level (n + 1)) list' ⟨u :: rest, stop'⟩
          = some (none, ⟨u :: rest, stop'⟩) :=
        maybe_of_none (bind_of_none (op_of_false (isOp_of_ne hu (by decide))))
      have hwhile : whileSome (nextFormal (level (n + 1))) list₁ ⟨us ++ u :: rest, stop₁⟩
          = some (list', ⟨u :: rest, stop'⟩) := by
        refine whileSome_of_steps hsteps ?_ hlast
        rw [List.length_append]
        omega
      refine ⟨list', stop', ?_, hnames _ (hpart _ declares_nil)⟩
      rw [List.append_assoc, parameterList, bind_of_eq (seesOp_of_next (next_of_part hts _))]
      refine (bind_of_eq hread).trans ?_
      refine (bind_of_eq hwhile).trans ?_
      rw [bind_of_eq (takesOp_of_false (isOp_of_ne hu (by decide))), bind_of_eq (seesOp_of_eq hu),
        show list'.needsNamed = false from hm]
      rfl

/-! ## Functions -/

/-- The head of a function: its name, the parts of its parameter list, and the faces of its
    declared type. -/
structure Head where
  isAsync : Bool
  name : String
  parts : List Part
  returns : Option (List Face)

namespace Head

/-- The faces of a head behind its name. -/
def restFaces (h : Head) : List Face :=
  signFace "(" :: (partFaces h.parts ++ signFace ")" :: (Part.signed "->" h.returns ++ [signFace ":"]))

/-- The faces of a head. -/
def faces (h : Head) : List Face :=
  (if h.isAsync then [wordFace "async"] else []) ++ wordFace "def" :: wordFace h.name :: h.restFaces

/-- Whether the head of a function can be read. -/
structure Readable (h : Head) : Prop where
  name : keywords.contains h.name = false
  parts : ∀ p ∈ h.parts, p.Spelled
  order : ∃ m, Marks.enterAll {} h.parts = some m ∧ m.needsNamed = false
  returns : ∀ fs ∈ h.returns, ∃ e, Spells fs e

end Head

variable {h : Head} {Q : List Stmt → Prop} {k : Nat}

/-- The word that makes a function asynchronous is taken if it is there. -/
theorem takesWord_of_async {b : Bool} (hts : faces ts = if b then [wordFace "async"] else [])
    (ht : isWord "def" t = true) (rest : List Token) (stop : Pos) :
    ∃ stop', takesWord "async" ⟨ts ++ t :: rest, stop⟩ = some (b, ⟨t :: rest, stop'⟩) := by
  cases b with
  | false =>
      obtain rfl := List.map_eq_nil_iff.mp hts
      exact ⟨stop, takesWord_of_false (isWord_of_ne ht (by decide))⟩
  | true =>
      obtain ⟨u, rfl, hu⟩ := List.map_eq_singleton_iff.mp hts
      exact ⟨u.span.stop, takesWord_cons (isWord_of_face hu)⟩

/-- The declared type of a function is read if it has one. -/
theorem takesReturns {hint : Option (List Face)} (hhint : ∀ fs ∈ hint, ∃ e, Spells fs e)
    (hts : faces ts = Part.signed "->" hint) (hn : ts.length ≤ n) (hu : isOp ":" u = true)
    (rest : List Token) (stop : Pos) :
    ∃ returns stop', ∀ {α : Type} (p : Option Expr → Reader α), (do
        let returns ← if ← takesOp "->" then do pure (some (← (level (n + 1)).expression))
          else pure none
        p returns : Reader α) ⟨ts ++ u :: rest, stop⟩ = p returns ⟨u :: rest, stop'⟩ := by
  cases hint with
  | none =>
      obtain rfl := List.map_eq_nil_iff.mp hts
      exact ⟨none, stop, fun p => bind_of_eq (takesOp_of_false (isOp_of_ne hu (by decide)))⟩
  | some fs =>
      obtain ⟨t, us, rfl, ht, hus⟩ := List.map_eq_cons_iff.mp hts
      obtain ⟨e, he⟩ := hhint fs rfl
      rw [List.length_cons] at hn
      obtain ⟨e', stop', hread, -⟩ := he.reads hus (n := n) (by omega)
        (.cons (stops_of_isOp hu rfl) : Next _ (u :: rest)) t.span.stop
      refine ⟨some e', stop', fun p => ?_⟩
      exact (bind_of_eq (takesOp_cons (isOp_of_face ht))).trans (bind_of_eq hread)

/-- A function is read behind its decorators. -/
theorem functionDefinition_of_head (hh : h.Readable) (hbody : ReadsBlock depth fs Q) (hne : fs ≠ [])
    (hts : faces ts = h.faces ++ lineEnd :: blockStart :: (fs ++ [blockEnd])) (hn : ts.length ≤ n)
    (hk : depth + 1 ≤ k) (rest : List Token) (stop : Pos) (ds : List Expr) :
    ∃ ps returns body stop', functionDefinition (level (n + 1)) (blockAt (level (n + 1)) k) ds
        ⟨ts ++ rest, stop⟩
      = some (.function ⟨h.isAsync, h.name, ps, ds, returns⟩ body, ⟨rest, stop'⟩) ∧ Q body ∧
        ∀ x, x ∈ ps.names ↔ x ∈ h.parts.flatMap Part.names := by
  obtain ⟨us, vs, rfl, hus, hvs⟩ := List.map_eq_append_iff.mp hts
  obtain ⟨as, us, rfl, has, hus⟩ := List.map_eq_append_iff.mp hus
  obtain ⟨t, _, rfl, ht, hus⟩ := List.map_eq_cons_iff.mp hus
  obtain ⟨u, _, rfl, hu, hus⟩ := List.map_eq_cons_iff.mp hus
  obtain ⟨v, _, rfl, hv, hus⟩ := List.map_eq_cons_iff.mp hus
  obtain ⟨ps, _, rfl, hps, hus⟩ := List.map_eq_append_iff.mp hus
  obtain ⟨w, _, rfl, hw, hus⟩ := List.map_eq_cons_iff.mp hus
  obtain ⟨rs, us, rfl, hrs, hus⟩ := List.map_eq_append_iff.mp hus
  obtain ⟨x, rfl, hx⟩ := List.map_eq_singleton_iff.mp hus
  obtain ⟨m, henter, hm⟩ := hh.order
  simp only [List.length_append, List.length_cons, List.length_nil] at hn
  have ht : isWord "def" t = true := isWord_of_face ht
  have hx : isOp ":" x = true := isOp_of_face hx
  obtain ⟨formal, stop₁, hformals, hnames⟩ := formals_of_parts hh.parts hps (n := n) (by omega) henter hm
    (isOp_of_face hw) (rs ++ x :: (vs ++ rest)) v.span.stop
  obtain ⟨returns, stop₂, hreturns⟩ := takesReturns hh.returns hrs (n := n) (by omega) hx
    (vs ++ rest) w.span.stop
  obtain ⟨body, stop₃, hblock, hQ⟩ :=
    blockAt_of_reads hbody hne hvs (n := n) (by omega) hk rest x.span.stop
  obtain ⟨stop₀, hasync⟩ := takesWord_of_async has ht
    (u :: v :: (ps ++ w :: (rs ++ x :: (vs ++ rest)))) stop
  refine ⟨formal, returns, body, stop₃, ?_, hQ, hnames⟩
  have htext : u.text = h.name := (Prod.mk.inj hu).2
  simp only [List.append_assoc, List.cons_append, List.nil_append]
  rw [functionDefinition, bind_of_eq hasync, bind_of_eq (word_cons ht),
    bind_of_eq (identifier_cons (isIdentifier_of_face hu hh.name)),
    bind_of_eq (op_cons (isOp_of_face hv)), bind_of_eq hformals,
    bind_of_eq (op_cons (isOp_of_face hw))]
  refine (hreturns _).trans ?_
  rw [bind_of_eq (op_cons hx), bind_of_eq hblock, htext]
  rfl

/-- The faces of a decorator on a line of its own. -/
def decoratorFaces : Option String → List Face
  | some d => [signFace "@", wordFace d, lineEnd]
  | none => []

/-- Decorators are read up to the definition. -/
theorem decorators_of_faces {decorator : Option String}
    (hdecorator : ∀ d ∈ decorator, keywords.contains d = false)
    (hts : faces ts = decoratorFaces decorator) (hn : ts.length ≤ n)
    (hrest : Next (fun t => t.kind = .name) rest) (stop : Pos) :
    ∃ ds stop', decorators (level (n + 1)) ⟨ts ++ rest, stop⟩ = some (ds, ⟨rest, stop'⟩) ∧
      ds.map Expr.unplaced = decorator.toList.map fun d => .name nowhere d .load := by
  have hlast (stop : Pos) : (do
      op "@"
      let e ← namedExpression (level (n + 1))
      layout .newline
      pure e : Reader Expr) ⟨rest, stop⟩ = none := by
    obtain ⟨t, us, rfl, ht⟩ := hrest
    exact bind_of_none (op_of_false (by rw [isOp, ht]; rfl))
  cases decorator with
  | none =>
      obtain rfl := List.map_eq_nil_iff.mp hts
      exact ⟨[], stop, many_of_reads .nil (Nat.zero_le _) (hlast stop), rfl⟩
  | some d =>
      obtain ⟨t, _, rfl, ht, hts⟩ := List.map_eq_cons_iff.mp hts
      obtain ⟨u, _, rfl, hu, hts⟩ := List.map_eq_cons_iff.mp hts
      obtain ⟨v, rfl, hv⟩ := List.map_eq_singleton_iff.mp hts
      have hv : v.kind = .newline := congrArg Prod.fst hv
      have hlayout : isLayout v = true := isLayout_of_eq hv (by simp)
      simp only [List.length_cons, List.length_nil] at hn
      have hu : faces [u] = [wordFace d] := congrArg (fun f => [f]) hu
      obtain ⟨e, stop', hread, hshape⟩ := namedExpression_of_yields
        ((spells_name (hdecorator d rfl)).reads hu (n := n)
          (Nat.le_trans (by simp) hn) (.cons (stops_of_isLayout hlayout) : Next _ (v :: rest)))
        (.cons trivial) (.cons (isOp_of_isLayout hlayout)) t.span.stop
      refine ⟨[e], stop', ?_, congrArg (fun e => [e]) hshape⟩
      have hone : (do
          op "@"
          let e ← namedExpression (level (n + 1))
          layout .newline
          pure e : Reader Expr) ⟨t :: u :: v :: rest, stop⟩ = some (e, ⟨rest, stop'⟩) := by
        rw [bind_of_eq (op_cons (isOp_of_face ht))]
        refine (bind_of_eq hread).trans ?_
        exact (bind_of_eq (layout_cons hv (by simp))).trans rfl
      exact many_of_reads (.cons hone .nil) (by simp) (hlast stop')

/-- **FUNCTIONS** are read with their heads and their blocks. -/
theorem reads_function {decorator : Option String}
    (hdecorator : ∀ d ∈ decorator, keywords.contains d = false) (hh : h.Readable)
    (hbody : ReadsBlock depth fs Q) (hne : fs ≠ []) :
    ReadsStatement (depth + 1) (decoratorFaces decorator ++ (h.faces ++ lineEnd :: blockStart ::
        (fs ++ [blockEnd])))
      fun s => ∃ ps ds returns body, s = .function ⟨h.isAsync, h.name, ps, ds, returns⟩ body ∧
        ds.map Expr.unplaced = decorator.toList.map (fun d => .name nowhere d .load) ∧ Q body ∧
        ∀ x, x ∈ ps.names ↔ x ∈ h.parts.flatMap Part.names where
  starts := by
    cases decorator with
    | some d => exact ⟨_, _, rfl, by decide, by decide⟩
    | none =>
        rw [decoratorFaces, List.nil_append, Head.faces]
        cases h.isAsync <;> exact ⟨_, _, rfl, by decide, by decide⟩
  reads {ts} hts {n k} hn hk {rest} _ stop := by
    obtain ⟨us, vs, rfl, hus, hvs⟩ := List.map_eq_append_iff.mp hts
    rw [List.length_append] at hn
    -- the first word of the definition, and the one behind it
    obtain ⟨t, u, ws, hws, hname, hclass, hdef⟩ : ∃ t u ws, vs ++ rest = t :: u :: ws ∧
        t.kind = .name ∧ isWord "class" t = false ∧
          (isWord "def" t = true ∨ isWord "async" t = true ∧ isWord "def" u = true) := by
      rw [Head.faces] at hvs
      cases hb : h.isAsync with
      | false =>
          rw [hb] at hvs
          obtain ⟨t, _, rfl, ht, hvs⟩ := List.map_eq_cons_iff.mp hvs
          obtain ⟨u, ws, rfl, -, -⟩ := List.map_eq_cons_iff.mp hvs
          have ht : isWord "def" t = true := isWord_of_face ht
          exact ⟨t, u, ws ++ rest, rfl, (isWord_eq_true.mp ht).1, isWord_of_ne ht (by decide),
            .inl ht⟩
      | true =>
          rw [hb] at hvs
          obtain ⟨t, _, rfl, ht, hvs⟩ := List.map_eq_cons_iff.mp hvs
          obtain ⟨u, ws, rfl, hu, -⟩ := List.map_eq_cons_iff.mp hvs
          have ht : isWord "async" t = true := isWord_of_face ht
          exact ⟨t, u, ws ++ rest, rfl, (isWord_eq_true.mp ht).1, isWord_of_ne ht (by decide),
            .inr ⟨ht, isWord_of_face hu⟩⟩
    have hnext {P : Token → Prop} (h : P t) : Next P (vs ++ rest) := hws ▸ .cons h
    obtain ⟨ds, stop₁, hdecorators, hds⟩ := decorators_of_faces hdecorator hus (n := n) (by omega)
      (hnext hname) stop
    obtain ⟨ps, returns, body, stop', hfunction, hQ, hnames⟩ :=
      functionDefinition_of_head hh hbody hne hvs (n := n) (by omega) hk rest stop₁ ds
    have hdefinition : definition (level (n + 1)) (blockAt (level (n + 1)) k)
        ⟨us ++ (vs ++ rest), stop⟩
          = some (.function ⟨h.isAsync, h.name, ps, ds, returns⟩ body, ⟨rest, stop'⟩) := by
      rw [definition, bind_of_eq hdecorators, bind_of_eq (seesWord_of_next (hnext hclass)),
        if_neg Bool.false_ne_true]
      exact hfunction
    refine ⟨_, stop', ?_, ps, ds, returns, body, rfl, hds, hQ, hnames⟩
    rw [List.append_assoc]
    have hfirst {w : String} (hw : isWord w t = true) : isOp "@" t = false ∧ ¬ t.kind ≠ .name ∧
        t.text = w :=
      ⟨isOp_of_isWord hw, not_not.mpr hname, (isWord_eq_true.mp hw).2⟩
    cases decorator with
    | some d =>
        obtain ⟨a, _, rfl, ha, hus⟩ := List.map_eq_cons_iff.mp hus
        obtain ⟨b, us, rfl, -, -⟩ := List.map_eq_cons_iff.mp hus
        refine statementLine_of_compound ?_ hdefinition
        rw [compoundStatement, isOp_of_face ha, if_pos rfl]
    | none =>
        obtain rfl := List.map_eq_nil_iff.mp hus
        rw [List.nil_append, hws] at hdefinition ⊢
        refine statementLine_of_compound ?_ hdefinition
        rcases hdef with hdef | ⟨hasync, hdef⟩
        · obtain ⟨hop, hkind, htext⟩ := hfirst hdef
          rw [compoundStatement, hop, if_neg Bool.false_ne_true, if_neg hkind, htext]
          rfl
        · obtain ⟨hop, hkind, htext⟩ := hfirst hasync
          rw [compoundStatement, hop, if_neg Bool.false_ne_true, if_neg hkind, htext]
          exact if_pos hdef

end Covenant.Grammar
