import Covenant.Proofs.Grammar.Texts
import Covenant.Proofs.Signature.Order

/-! # Call texts — the argument list of a call into an implementation

    The text of a call names every parameter once: by position, behind a star,
    by name, or behind two stars.  In the brackets of a call it is read as
    these arguments, in this order.

    * The lexer passes over the text (`passes_forwardingText`); its tokens form the arguments
      (`derives_forwarded`).
    * A call with this text is read (`readExpression?_call`). -/

namespace Covenant.Signature

open Declaration Covenant.Grammar Covenant.Token Covenant.Tree Reader Text

variable {α : Type} {p : Parameter α} {ps : List (Parameter α)} {b : List Char}
  {rest : List Char} {ts : List Token}

/-! ## Tokens -/

/-- The tokens of a parameter in the text of a call. -/
def forwardedFaces (p : Parameter α) : List Face :=
  match p.kind with
  | .variadicPositional => [(.op, "*"), (.name, p.name)]
  | .variadicNamed => [(.op, "**"), (.name, p.name)]
  | .requiredNamed | .optionalNamed => [(.name, p.name), (.op, "="), (.name, p.name)]
  | _ => [(.name, p.name)]

/-- The tokens of the text of a call. -/
def forwardingFaces : List (Parameter α) → List Face
  | [] => []
  | [p] => forwardedFaces p
  | p :: q :: ps => forwardedFaces p ++ (.op, ",") :: forwardingFaces (q :: ps)

/-- A name that a parameter can have. -/
def IsName (name : String) : Prop :=
  isIdentifier name.toList = true ∧ keywords.contains name = false

instance (name : String) : Decidable (IsName name) := instDecidableAnd

/-- What a name starts with continues no sign in front of it. -/
theorem exists_cons_of_isIdentifier {cs : List Char} (h : isIdentifier cs = true) :
    ∃ c rest, cs = c :: rest ∧ c ≠ '*' ∧ c ≠ '=' := by
  cases cs with
  | nil => exact nomatch h
  | cons c rest =>
      have hstart : mayContinueName c = true :=
        mayContinueName_of_isIdentifier h c List.mem_cons_self
      refine ⟨c, rest, rfl, ?_, ?_⟩
      · rintro rfl
        exact absurd hstart (by decide)
      · rintro rfl
        exact absurd hstart (by decide)

theorem passes_text {name : String} (hname : isIdentifier name.toList = true)
    (hrest : EndsName rest) : Passes name.toList rest [(.name, name)] b b := by
  have h : Passes name.toList rest [(.name, String.ofList name.toList)] b b :=
    passes_name hname hrest
  rwa [String.ofList_toList] at h

theorem passes_forwarded (hp : isIdentifier p.name.toList = true) (hrest : EndsName rest) :
    Passes (forwarded p).toList rest (forwardedFaces p) b b := by
  have hname : Passes p.name.toList rest [(.name, p.name)] b b := passes_text hp hrest
  obtain ⟨c, cs, hcs, hstar, hequals⟩ := exists_cons_of_isIdentifier hp
  have hnamed : Passes (p.name ++ "=" ++ p.name).toList rest
      [(.name, p.name), (.op, "="), (.name, p.name)] b b := by
    have hsign : Passes ['='] (p.name.toList ++ rest) [(.op, "=")] b b := by
      rw [hcs]
      exact passes_equals hequals
    have hfirst : Passes p.name.toList ('=' :: (p.name.toList ++ rest)) [(.name, p.name)] b b :=
      passes_text hp (endsName_cons (by decide))
    rw [String.toList_append, String.toList_append, List.append_assoc]
    exact hfirst.append (hsign.append hname)
  unfold forwarded forwardedFaces
  cases p.kind with
  | requiredPositional | optionalPositional => exact hname
  | variadicPositional =>
      have hstar : Passes ['*'] (p.name.toList ++ rest) [(.op, "*")] b b := by
        rw [hcs]
        exact passes_star ⟨hstar, hequals⟩
      rw [String.toList_append]
      exact hstar.append hname
  | requiredNamed | optionalNamed => exact hnamed
  | variadicNamed =>
      have hstars : Passes ['*', '*'] (p.name.toList ++ rest) [(.op, "**")] b b := by
        rw [hcs]
        exact passes_stars hequals
      rw [String.toList_append]
      exact hstars.append hname

/-- The lexer passes over the text of a call up to the closing bracket. -/
theorem passes_forwardingText (hps : ∀ p ∈ ps, isIdentifier p.name.toList = true) :
    Passes (", ".intercalate (ps.map forwarded)).toList (')' :: rest) (forwardingFaces ps) b b := by
  rw [String.toList_intercalate, List.map_map]
  induction ps with
  | nil => exact passes_nil
  | cons p ps ih =>
      rw [List.forall_mem_cons] at hps
      cases ps with
      | nil =>
          have hend : EndsName (')' :: rest) := endsName_cons (by decide)
          rw [List.map_singleton, List.intercalate_singleton]
          exact passes_forwarded hps.1 hend
      | cons q ps =>
          have hcomma {cs : List Char} : Passes ", ".toList cs [(.op, ",")] b b :=
            passes_comma.append (passes_blank (.inl rfl))
          have hrest := Passes.append hcomma (ih hps.2)
          rw [List.map_cons, List.map_cons, List.intercalate_cons_cons, List.append_assoc]
          refine Passes.append (passes_forwarded hps.1 fun c hc => ?_) hrest
          obtain rfl : ',' = c := Option.some.inj hc
          decide

/-! ## Arguments -/

/-- A name that is read, at no place. -/
def nameAt (name : String) : Expr := .name nowhere name .load

/-- What a parameter in the text of a call is read as. -/
def forwardedArgument (p : Parameter α) : Argument :=
  match p.kind with
  | .variadicPositional => .star nowhere (nameAt p.name)
  | .variadicNamed => .unpacked nowhere (nameAt p.name)
  | .requiredNamed | .optionalNamed => .named nowhere p.name (nameAt p.name)
  | _ => .positional (nameAt p.name)

variable {fit : Expr → Prop}

theorem faces_eq_cons {f : Face} {fs : List Face} (h : faces ts = f :: fs) :
    ∃ t us, ts = t :: us ∧ t.kind = f.1 ∧ t.text = f.2 ∧ faces us = fs := by
  obtain ⟨t, us, rfl, rfl, hus⟩ := List.map_eq_cons_iff.mp h
  exact ⟨t, us, rfl, rfl, rfl, hus⟩

theorem derives_name {name : String} (hname : keywords.contains name = false) {t : Token}
    (hkind : t.kind = .name) (htext : t.text = name) :
    ∃ e, Derives fit [t] (.one (.rule .expression) e) ∧ e.unplaced = nameAt name := by
  have ht : Reader.isIdentifier t = true := by
    rw [isIdentifier_eq_true, hkind, htext]
    exact ⟨rfl, hname⟩
  have hprimary : Derives fit [t] (.one (.rule .primary) (.name t.span t.text .load)) :=
    .outer (.name ht)
  exact ⟨_, hprimary.of_primary, by rw [htext]; rfl⟩

theorem derives_forwarded (hp : keywords.contains p.name = false)
    (h : faces ts = forwardedFaces p) :
    ∃ a, Derives fit ts (.argument a) ∧ a.unplaced = forwardedArgument p := by
  unfold forwardedFaces at h
  unfold forwardedArgument
  have hplain (h : faces ts = [(.name, p.name)]) :
      ∃ a, Derives fit ts (.argument a) ∧ a.unplaced = .positional (nameAt p.name) := by
    obtain ⟨t, us, rfl, hkind, htext, hnil⟩ := faces_eq_cons h
    obtain rfl := List.map_eq_nil_iff.mp hnil
    obtain ⟨e, he, hshape⟩ := derives_name hp hkind htext
    exact ⟨.positional e, .argument he, congrArg _ hshape⟩
  have hnamed (h : faces ts = [(.name, p.name), (.op, "="), (.name, p.name)]) :
      ∃ a, Derives fit ts (.argument a) ∧
        a.unplaced = .named nowhere p.name (nameAt p.name) := by
    obtain ⟨t, us, rfl, hkind, htext, hus⟩ := faces_eq_cons h
    obtain ⟨u, vs, rfl, hsign, hequals, hvs⟩ := faces_eq_cons hus
    obtain ⟨v, ws, rfl, hvalue, hvtext, hnil⟩ := faces_eq_cons hvs
    obtain rfl := List.map_eq_nil_iff.mp hnil
    obtain ⟨e, he, hshape⟩ := derives_name hp hvalue hvtext
    have ht : Reader.isIdentifier t = true := by
      rw [isIdentifier_eq_true, hkind, htext]
      exact ⟨rfl, hp⟩
    refine ⟨.named nowhere t.text e,
      .namedArgument nowhere ht (isOp_eq_true.mpr ⟨hsign, hequals⟩) he, ?_⟩
    show Argument.named nowhere t.text e.unplaced = _
    rw [htext, hshape]
  -- a sign in front of the name
  have hsigned {sign : String} (h : faces ts = [(.op, sign), (.name, p.name)]) :
      ∃ t us e, ts = t :: us ∧ isOp sign t = true ∧
        Derives fit us (.one (.rule .expression) e) ∧ e.unplaced = nameAt p.name := by
    obtain ⟨t, us, rfl, hkind, htext, hus⟩ := faces_eq_cons h
    obtain ⟨u, vs, rfl, hname, hutext, hnil⟩ := faces_eq_cons hus
    obtain rfl := List.map_eq_nil_iff.mp hnil
    obtain ⟨e, he, hshape⟩ := derives_name hp hname hutext
    exact ⟨t, [u], e, rfl, isOp_eq_true.mpr ⟨hkind, htext⟩, he, hshape⟩
  cases hk : p.kind with
  | requiredPositional | optionalPositional =>
      rw [hk] at h
      exact hplain h
  | variadicPositional =>
      rw [hk] at h
      obtain ⟨t, us, e, rfl, ht, he, hshape⟩ := hsigned h
      exact ⟨.star nowhere e, .starArgument nowhere ht he, congrArg _ hshape⟩
  | requiredNamed | optionalNamed =>
      rw [hk] at h
      exact hnamed h
  | variadicNamed =>
      rw [hk] at h
      obtain ⟨t, us, e, rfl, ht, he, hshape⟩ := hsigned h
      exact ⟨.unpacked nowhere e, .unpackedArgument nowhere ht he, congrArg _ hshape⟩

/-- The tokens behind a first argument. -/
theorem derives_arguments (hps : ∀ p ∈ ps, keywords.contains p.name = false)
    (h : faces ts = ps.flatMap fun p => (.op, ",") :: forwardedFaces p) :
    ∃ as, Derives fit ts (.arguments as) ∧
      as.map Argument.unplaced = ps.map forwardedArgument := by
  induction ps generalizing ts with
  | nil =>
      obtain rfl := List.map_eq_nil_iff.mp h
      exact ⟨[], .noArguments, rfl⟩
  | cons p ps ih =>
      rw [List.forall_mem_cons] at hps
      rw [List.flatMap_cons, List.cons_append] at h
      obtain ⟨t, us, rfl, hkind, htext, hus⟩ := faces_eq_cons h
      obtain ⟨vs, ws, rfl, hvs, hws⟩ := List.map_eq_append_iff.mp hus
      obtain ⟨a, ha, hshape⟩ := derives_forwarded hps.1 hvs
      obtain ⟨as, has, hshapes⟩ := ih hps.2 hws
      exact ⟨a :: as, .arguments (isOp_eq_true.mpr ⟨hkind, htext⟩) ha has,
        by rw [List.map_cons, hshape, hshapes, List.map_cons]⟩

theorem forwardingFaces_cons (p : Parameter α) (ps : List (Parameter α)) :
    forwardingFaces (p :: ps)
      = forwardedFaces p ++ ps.flatMap fun q => (.op, ",") :: forwardedFaces q := by
  induction ps generalizing p with
  | nil => exact (List.append_nil _).symm
  | cons q ps ih => rw [forwardingFaces, ih, List.flatMap_cons, List.cons_append]

/-- Arguments stand in order if each may follow each one before it. -/
theorem inOrder_of_pairwise {before as : List Argument}
    (hbefore : ∀ a ∈ before, ∀ a' ∈ as, a'.mayFollow [a] = true)
    (h : as.Pairwise fun a a' => a'.mayFollow [a] = true) : Argument.inOrder before as = true := by
  induction as generalizing before with
  | nil => rfl
  | cons a as ih =>
      have hall (before : List Argument) (h : ∀ a' ∈ before, a.mayFollow [a'] = true) :
          a.mayFollow before = true := by
        cases a with
        | positional e =>
            refine List.all_eq_true.mpr fun a' ha' => ?_
            have hone := h a' ha'
            simpa [Argument.mayFollow] using hone
        | star s e =>
            refine List.all_eq_true.mpr fun a' ha' => ?_
            have hone := h a' ha'
            simpa [Argument.mayFollow] using hone
        | named | unpacked => rfl
      rw [List.pairwise_cons] at h
      rw [Argument.inOrder, hall before fun a' ha' => hbefore a' ha' a List.mem_cons_self,
        Bool.true_and]
      refine ih (fun a' ha' a'' ha'' => ?_) h.2
      rcases List.mem_append.mp ha' with ha' | ha'
      · exact hbefore a' ha' a'' (List.mem_cons_of_mem _ ha'')
      · rw [List.mem_singleton.mp ha']
        exact h.1 a'' ha''

/-- A parameter of no lower rank may stand behind another one in a call. -/
theorem mayFollow_of_rank {q : Parameter α} (hrank : rank p.kind ≤ rank q.kind) :
    (forwardedArgument q).mayFollow [forwardedArgument p] = true := by
  unfold forwardedArgument
  cases hp : p.kind with
  | _ =>
      cases hq : q.kind with
      | _ =>
          rw [hp, hq] at hrank
          first
            | rfl
            | exact absurd hrank (by decide)

/-- The arguments of a call, as they are read. -/
theorem derives_given_of_rank (h : ps.Pairwise fun p q => rank p.kind ≤ rank q.kind)
    (hnames : ∀ p ∈ ps, keywords.contains p.name = false) (hts : faces ts = forwardingFaces ps) :
    ∃ as, Derives fit ts (.given as) ∧ as.map Argument.unplaced = ps.map forwardedArgument := by
  cases ps with
  | nil =>
      obtain rfl := List.map_eq_nil_iff.mp hts
      exact ⟨[], .nothingGiven, rfl⟩
  | cons p ps =>
      rw [forwardingFaces_cons] at hts
      obtain ⟨us, vs, rfl, hus, hvs⟩ := List.map_eq_append_iff.mp hts
      obtain ⟨a, ha, hshape⟩ := derives_forwarded (hnames p List.mem_cons_self) hus
      obtain ⟨as, has, hshapes⟩ :=
        derives_arguments (fun q hq => hnames q (List.mem_cons_of_mem _ hq)) hvs
      have hall : (a :: as).map Argument.unplaced = (p :: ps).map forwardedArgument := by
        rw [List.map_cons, hshape, hshapes, List.map_cons]
      have horder : Argument.inOrder [] (a :: as) = true := by
        rw [← Argument.inOrder_unplaced, hall]
        refine inOrder_of_pairwise nofun (List.pairwise_map.mpr ?_)
        exact h.imp fun hpq => mayFollow_of_rank hpq
      exact ⟨a :: as, by rw [← List.append_nil vs]; exact .given ha has .none horder, hall⟩

theorem derives_given (hps : ∀ p ∈ ps, Proper p) (h : Ordered (ps.map slotOf))
    (hnames : ∀ p ∈ ps, keywords.contains p.name = false) (hts : faces ts = forwardingFaces ps) :
    ∃ as, Derives fit ts (.given as) ∧ as.map Argument.unplaced = ps.map forwardedArgument :=
  derives_given_of_rank ((List.pairwise_map.mp h.placed).imp_of_mem fun hp hq hpq =>
    rank_le_of_precedes (hps _ hp) (hps _ hq) hpq) hnames hts

/-! ## Calls -/

/-- The text of a call with the arguments of parameters. -/
def callText (callee : String) (ps : List (Parameter α)) : List Char :=
  (callee ++ "(" ++ ", ".intercalate (ps.map forwarded) ++ ")").toList

theorem passes_callText {callee : String} (hcallee : isIdentifier callee.toList = true)
    (hps : ∀ p ∈ ps, isIdentifier p.name.toList = true) :
    Passes (callText callee ps) rest
      ((.name, callee) :: (.op, "(") :: (forwardingFaces ps ++ [(.op, ")")])) [] [] := by
  have hname {cs : List Char} : Passes callee.toList ('(' :: cs) [(.name, callee)] [] [] :=
    passes_text hcallee (endsName_cons (by decide))
  have hopen {cs : List Char} : Passes "(".toList cs [(.op, "(")] [] [')'] :=
    passes_open (by decide)
  have hclose : Passes ")".toList rest [(.op, ")")] [')'] [] := passes_close
  rw [callText, String.toList_append, String.toList_append, String.toList_append,
    List.append_assoc, List.append_assoc]
  exact hname.append (hopen.append ((passes_forwardingText hps).append hclose))

/-- The characters of the text of a call. -/
def isCallChar (c : Char) : Bool := mayContinueName c || "()*=, ".toList.contains c

theorem all_isCallChar_name {name : String} (h : isIdentifier name.toList = true) :
    name.toList.all isCallChar = true := by
  refine List.all_eq_true.mpr fun c hc => ?_
  rw [isCallChar, mayContinueName_of_isIdentifier h c hc, Bool.true_or]

theorem all_isCallChar_forwarded (hp : isIdentifier p.name.toList = true) :
    (forwarded p).toList.all isCallChar = true := by
  have hname := all_isCallChar_name hp
  have hstar : "*".toList.all isCallChar = true := by decide
  have hstars : "**".toList.all isCallChar = true := by decide
  have hequals : "=".toList.all isCallChar = true := by decide
  unfold forwarded
  cases p.kind with
  | _ => simp only [String.toList_append, List.all_append, hname, hstar, hstars, hequals, Bool.and_self]

theorem all_isCallChar_callText {callee : String} (hcallee : isIdentifier callee.toList = true)
    (hps : ∀ p ∈ ps, isIdentifier p.name.toList = true) :
    (callText callee ps).all isCallChar = true := by
  have hinner : (", ".intercalate (ps.map forwarded)).toList.all isCallChar = true := by
    rw [String.toList_intercalate, List.map_map]
    induction ps with
    | nil => rfl
    | cons p ps ih =>
        rw [List.forall_mem_cons] at hps
        cases ps with
        | nil =>
            rw [List.map_singleton, List.intercalate_singleton]
            exact all_isCallChar_forwarded hps.1
        | cons q ps =>
            rw [List.map_cons, List.map_cons, List.intercalate_cons_cons, List.all_append,
              List.all_append]
            show ((forwarded p).toList.all isCallChar && true && _) = true
            rw [all_isCallChar_forwarded hps.1]
            exact ih hps.2
  have hopen : "(".toList.all isCallChar = true := by decide
  have hclose : ")".toList.all isCallChar = true := by decide
  simp only [callText, String.toList_append, List.all_append, all_isCallChar_name hcallee, hopen,
    hinner, hclose, Bool.and_self]

theorem oneLine_callText {callee : String} (hcallee : isIdentifier callee.toList = true)
    (hps : ∀ p ∈ ps, isIdentifier p.name.toList = true) :
    OneLine (callText callee ps) ∧ '\x00' ∉ callText callee ps := by
  have hall := List.all_eq_true.mp (all_isCallChar_callText hcallee hps)
  have hnot (c : Char) (hc : isCallChar c = false) : c ∉ callText callee ps := by
    intro hmem
    rw [hall c hmem] at hc
    exact nomatch hc
  refine ⟨⟨?_, hnot _ (by decide), hnot _ (by decide)⟩, hnot _ (by decide)⟩
  have htext : callText callee ps
      = callee.toList ++ ("(" ++ ", ".intercalate (ps.map forwarded) ++ ")").toList := by
    rw [callText, String.append_assoc, String.append_assoc, String.toList_append,
      String.append_assoc]
  cases hlist : callee.toList with
  | nil =>
      rw [hlist] at hcallee
      exact nomatch hcallee
  | cons c cs =>
      rw [hlist] at hcallee
      have hstart : isNameStart c = true := (Bool.and_eq_true_iff.mp hcallee).1
      exact ⟨c, _, by rw [htext, hlist]; rfl,
        startsToken_of_mayStartName (mayStartName_of_isNameStart hstart)⟩

theorem unplaced_forwardedArgument (p : Parameter α) :
    (forwardedArgument p).unplaced = forwardedArgument p := by
  unfold forwardedArgument
  cases p.kind with
  | _ => rfl

/-- **A CALL IS READ** with the arguments that its parameters stand for. -/
theorem readExpression?_call {callee : String} (hcallee : IsName callee)
    (hps : ∀ p ∈ ps, Proper p) (h : Ordered (ps.map slotOf)) (hnames : ∀ p ∈ ps, IsName p.name) :
    ∃ span place as ks,
      readExpression? (callText callee ps) = some (.call span (.name place callee .load) as ks) ∧
      as.map Expr.unplaced
        = ((ps.map forwardedArgument).filterMap Argument.positional?).map Expr.unplaced ∧
      ks.map Keyword.unplaced
        = ((ps.map forwardedArgument).filterMap Argument.keyword?).map Keyword.unplaced := by
  have hidentifiers : ∀ p ∈ ps, isIdentifier p.name.toList = true := fun p hp => (hnames p hp).1
  obtain ⟨hline, hnull⟩ := oneLine_callText hcallee.1 hidentifiers
  have hpasses : Passes (callText callee ps) ['\n'] _ [] [] :=
    passes_callText hcallee.1 hidentifiers
  obtain ⟨ts, t, u, hlex, hfaces, ht, hu⟩ := lex_of_passes hline hnull hpasses
  have hsize : ts.length ≤ (callText callee ps).length := by
    rw [← List.length_map (fun t : Token => (t.kind, t.text)), show ts.map _ = _ from hfaces]
    exact hpasses.size
  -- the tokens of the callee, of the brackets and of what stands between them
  obtain ⟨name, us, rfl, hkind, htext, hus⟩ := faces_eq_cons hfaces
  obtain ⟨opener, vs, rfl, hopener, hround, hvs⟩ := faces_eq_cons hus
  obtain ⟨given, ws, rfl, hgiven, hws⟩ := List.map_eq_append_iff.mp hvs
  obtain ⟨closer, xs, rfl, hcloser, hclose, hxs⟩ := faces_eq_cons hws
  obtain rfl := List.map_eq_nil_iff.mp hxs
  obtain ⟨as, has, hshapes⟩ :=
    derives_given hps h (fun p hp => (hnames p hp).2) hgiven
  have hname : Reader.isIdentifier name = true := by
    rw [isIdentifier_eq_true, hkind, htext]
    exact ⟨rfl, hcallee.2⟩
  have hderives : Derives (fun _ => True) (name :: opener :: (given ++ [closer]))
      (.one (.rule .primary) (.call ⟨startOf [name], closer.span.stop⟩
        (.name name.span name.text .load) (as.filterMap Argument.positional?)
        (as.filterMap Argument.keyword?))) :=
    .call (.outer (.name hname)) (isOp_eq_true.mpr ⟨hopener, hround⟩) has
      (isOp_eq_true.mpr ⟨hcloser, hclose⟩) rfl trivial
  obtain ⟨e, hread, hshape⟩ := readExpression?_of_derives hlex ht hu
    (.single hderives.of_primary nofun) (Nat.le_succ_of_le hsize)
  obtain ⟨span, f, as', ks', rfl, hf, has', hks'⟩ := exists_call_of_sameShape hshape
  obtain ⟨place, rfl⟩ := exists_name_of_sameShape hf
  have hunplaced : as.map Argument.unplaced
      = (ps.map forwardedArgument).map Argument.unplaced := by
    rw [hshapes, List.map_map]
    exact List.map_congr_left fun p _ => (unplaced_forwardedArgument p).symm
  refine ⟨span, place, as', ks', ?_, ?_, ?_⟩
  · rw [hread, htext]
  · rw [has', positional?_congr hunplaced]
  · rw [hks', keyword?_congr hunplaced]

end Covenant.Signature
