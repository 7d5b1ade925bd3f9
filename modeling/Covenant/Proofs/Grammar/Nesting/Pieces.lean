import Covenant.Proofs.Grammar.Nesting.Between

/-! # Pieces — the trees in a string literal

    The text between two braces is read with tokens of its own, which stand at
    their true places in the literal.

    * Going over plain text and over the text of a value takes the characters
      that it says (`reaches_of_plainRun`, `append_of_embeddedText`), so what comes
      behind a value lies behind it in the text.
    * `LaysPieces` is the law for readers of pieces; it holds of values, of runs
      with values in them and of layouts in values.
    * `laid_of_concatenated`: the trees in a literal lie in the tokens that it is
      made of. -/

namespace Covenant.Grammar

open Covenant.Tree Covenant.Token Text Reader

/-! ## Pieces -/

/-- The tree of a piece. -/
def Piece.trees : Piece → List Expr
  | .text _ => []
  | .value e => [e]

section Pieces

variable {r : Span} {e : Expr} {es : List Expr} {ps : List Piece}

/-- Joining neighbouring texts leaves the values as they are. -/
theorem trees_mergeTexts (ps : List Piece) :
    (mergeTexts ps).flatMap Piece.trees = ps.flatMap Piece.trees := by
  induction ps with
  | nil => rfl
  | cons p ps ih =>
      cases p with
      | text cs =>
          rw [mergeTexts]
          split
          · rename_i b more hmerged
            rw [hmerged] at ih
            exact ih
          · exact ih
      | value e => exact congrArg (e :: ·) ih

/-- The expressions of pieces are the values with constants between them. -/
theorem laidIn_pieceExprs {whole last : Span} {marked : Bool} (front : List Expr)
    (h : LaidIn r (front ++ ps.flatMap Piece.trees)) :
    LaidIn r (front ++ pieceExprs whole last marked ps) := by
  induction ps generalizing front with
  | nil => exact h
  | cons p ps ih =>
      cases p with
      | text cs =>
          cases ps with
          | nil => exact LaidIn.constant h
          | cons p ps => exact LaidIn.constant (ih front h)
      | value e =>
          have hvalues := ih (front ++ [e]) (by rw [List.append_assoc]; exact h)
          rw [List.append_assoc] at hvalues
          exact hvalues

/-- An interpolated text lies where its values lie. -/
theorem laidIn_joinPieces {whole own : Span} {marked : Bool}
    (h : LaidIn r (ps.flatMap Piece.trees)) : LaidIn r [joinPieces whole own marked ps] := by
  refine .node ?_ nofun
  rw [← trees_mergeTexts] at h
  exact laidIn_pieceExprs [] h

end Pieces

/-! ## Texts -/

section Texts

variable {p q : Pos} {cs text rest : List Char}

/-- What a run of plain text stops at. -/
def StopsAt (run : PlainRun) : Prop :=
  run.goesOn = true ∨ run.rest = [] ∨ ∃ c more, run.rest = c :: more ∧ (c = '\x7b' ∨ c = '\x7d')

/-- Plain text is gone over as it stands, up to a brace or to the end. -/
theorem reaches_of_plainRun {raw outermost : Bool} {run : PlainRun}
    (h : plainRun raw outermost p cs = some run) :
    Reaches p cs run.pos run.rest ∧ StopsAt run := by
  fun_induction plainRun raw outermost p cs generalizing run with
  | case1 p =>
      cases h
      exact ⟨⟨[], rfl, rfl⟩, .inr (.inl rfl)⟩
  | case2 p c rest _ ih =>
      obtain ⟨run, hrun, rfl⟩ := Option.map_eq_some_iff.mp h
      obtain ⟨⟨taken, htaken, hpos⟩, hstops⟩ := ih hrun
      exact ⟨⟨'\\' :: taken, congrArg ('\\' :: ·) htaken, hpos⟩, hstops⟩
  | case3 p c rest _ ih =>
      obtain ⟨run, hrun, rfl⟩ := Option.map_eq_some_iff.mp h
      obtain ⟨⟨taken, htaken, hpos⟩, hstops⟩ := ih hrun
      exact ⟨⟨'\\' :: c :: taken, congrArg ('\\' :: c :: ·) htaken, hpos⟩, hstops⟩
  | case4 p c rest _ _ hdoubled =>
      cases h
      obtain ⟨-, hnext⟩ := hdoubled
      obtain ⟨more, rfl⟩ : ∃ more, rest = c :: more := List.head?_eq_some_iff.mp hnext
      exact ⟨⟨[c, c], rfl, rfl⟩, .inl rfl⟩
  | case5 => cases h
  | case6 p c rest _ hbrace =>
      cases h
      exact ⟨⟨[], rfl, rfl⟩, .inr (.inr ⟨c, rest, rfl, hbrace⟩)⟩
  | case7 p c rest _ _ ih =>
      obtain ⟨run, hrun, rfl⟩ := Option.map_eq_some_iff.mp h
      obtain ⟨⟨taken, htaken, hpos⟩, hstops⟩ := ih hrun
      exact ⟨⟨c :: taken, congrArg (c :: ·) htaken, hpos⟩, hstops⟩

/-- Characters are put in front of what a value's text has taken. -/
theorem append_of_front {o : Option (List Char × List Char)} (front : List Char)
    (ih : ∀ {text rest}, o = some (text, rest) → cs = text ++ rest)
    (h : o.map (fun t => (front ++ t.1, t.2)) = some (text, rest)) :
    front ++ cs = text ++ rest := by
  obtain ⟨⟨text', rest'⟩, ho, h⟩ := Option.map_eq_some_iff.mp h
  cases h
  rw [ih ho, List.append_assoc]

/-- The text of a value is what stands in front of the rest. -/
theorem append_of_embeddedText {due : List Char} {quote : Option (Char × Bool)}
    (h : embeddedText due quote cs = some (text, rest)) : cs = text ++ rest := by
  induction hn : cs.length using Nat.strongRecOn generalizing due quote cs text rest with
  | _ n ih =>
    have ih : ∀ {due quote cs' text rest}, cs'.length < cs.length →
        embeddedText due quote cs' = some (text, rest) → cs' = text ++ rest :=
      fun hshort h' => ih _ (hn ▸ hshort) h' rfl
    unfold embeddedText at h
    -- each branch refuses, ends here, or goes on behind some characters
    split at h
    · cases h
    · split_ifs at h
      · split at h
        · split_ifs at h
          · exact append_of_front [_, _, _] (ih (by simp only [List.length_cons]; omega)) h
          · exact append_of_front [_] (ih (by simp)) h
        · exact append_of_front [_] (ih (by simp)) h
        · exact append_of_front [_] (ih (by simp)) h
      · exact append_of_front [_] (ih (by simp)) h
    · split at h
      · cases h
      · split at h
        · split at h
          · split at h
            · exact append_of_front [_, _, _] (ih (by simp only [List.length_cons]; omega)) h
            · exact append_of_front [_] (ih (by simp)) h
          · exact append_of_front [_] (ih (by simp)) h
        · split at h
          · split at h
            · exact append_of_front [_] (ih (by simp)) h
            · cases h
          · split at h
            · split at h
              · exact append_of_front [_, _] (ih (by simp only [List.length_cons]; omega)) h
              · cases h
            · split at h
              · cases h
                rfl
              · split at h
                · split at h
                  · split at h
                    · exact append_of_front [_] (ih (by simp)) h
                    · cases h
                  · cases h
                · exact append_of_front [_] (ih (by simp)) h

end Texts

/-! ## Readers of pieces -/

/-- Going over a part of a text leads from one place to another, and trees are laid in between. -/
structure Covers (p : Pos) (cs : List Char) (es : List Expr) (q : Pos) (rest : List Char) :
    Prop where
  place : Reaches p cs q rest
  laid : LaidIn ⟨p, q⟩ es

/-- What a reader of pieces gives is laid in the part of the text that it goes over. -/
def LaysPieces (read : PieceReader) : Prop :=
  ∀ ⦃p cs ps q rest⦄, read p cs = some (ps, q, rest) → Covers p cs (ps.flatMap Piece.trees) q rest

section Readers

variable {read : EmbeddedReader} {layout value : PieceReader} {whole own : Span} {p q q' : Pos}
  {cs rest rest' : List Char} {es es' : List Expr}

theorem Covers.trans (h : Covers p cs es q rest) (h' : Covers q rest es' q' rest') :
    Covers p cs (es ++ es') q' rest' :=
  ⟨h.place.trans h'.place, h.laid.append h'.laid (.inl (le_refl q)) ⟨le_refl p, h'.place.le⟩
    ⟨h.place.le, le_refl q'⟩⟩

theorem covers_nothing (h : Reaches p cs q rest) : Covers p cs [] q rest := ⟨h, .nil⟩

/-- Blanks are skipped behind the sign that asks for a value's own text. -/
theorem reaches_of_ownText {text : List Char} {own : List Piece}
    (h : ownText text p cs = (own, q, rest)) :
    Reaches p cs q rest ∧ own.flatMap Piece.trees = [] := by
  unfold ownText at h
  split at h
  · rename_i more
    cases h
    refine ⟨⟨'=' :: more.takeWhile isSpaceChar, congrArg ('=' :: ·) ?_, rfl⟩, rfl⟩
    exact (List.prefix_iff_eq_append.mp (List.takeWhile_prefix isSpaceChar)).symm
  · cases h
    exact ⟨⟨[], rfl, rfl⟩, rfl⟩

theorem reaches_of_conversionAt {conversion : Option Char}
    (h : conversionAt p cs = some (conversion, q, rest)) : Reaches p cs q rest := by
  unfold conversionAt at h
  split at h
  · rename_i c more
    split_ifs at h
    cases h
    exact ⟨['!', c], rfl, rfl⟩
  · cases h
  · cases h
    exact ⟨[], rfl, rfl⟩

/-- A bracket is no longer than any other text. -/
theorem advance_bracket_le (p : Pos) (h : cs ≠ []) : p.advance ')' ≤ p.advanceAll cs := by
  cases cs with
  | nil => exact absurd rfl h
  | cons c cs =>
      refine le_trans ?_ ((p.advance c).le_advanceAll cs)
      rw [Pos.le_iff]
      unfold Pos.advance
      by_cases hline : c = '\n'
      · rw [if_neg (by decide), if_pos hline]
        exact .inl (Nat.lt_succ_self p.line)
      · rw [if_neg (by decide), if_neg hline]
        exact .inr ⟨rfl, Nat.add_le_add_left c.utf8Size_pos p.col⟩

/-- A bracket where a text starts is in front of the text's end and what follows. -/
theorem Reaches.bracket_le (h : Reaches p cs q rest) (c : Char) :
    p.advance ')' ≤ q.advance c := by
  obtain ⟨taken, -, rfl⟩ := h
  have hle : p.advance ')' ≤ p.advanceAll (taken ++ [c]) :=
    advance_bracket_le p (List.append_ne_nil_of_right_ne_nil _ nofun)
  rwa [Pos.advanceAll_append] at hle

/-- The layout of a value lies behind its colon. -/
theorem laid_of_layoutAt (hlayout : LaysPieces layout) {join : List Piece → Expr}
    (hjoin : ∀ r ps, LaidIn r (ps.flatMap Piece.trees) → LaidIn r [join ps]) {spec : List Expr}
    (h : layoutAt layout join p cs = some (spec, q, rest)) :
    Reaches p cs q rest ∧ LaidIn ⟨p.advance ')', q⟩ spec := by
  unfold layoutAt at h
  split at h
  · obtain ⟨⟨pieces, q', rest'⟩, hread, h⟩ := Option.bind_eq_some_iff.mp h
    cases h
    have hpieces := hlayout hread
    exact ⟨.trans ⟨[':'], rfl, rfl⟩ hpieces.place, hjoin _ _ hpieces.laid⟩
  · cases h
    exact ⟨⟨[], rfl, rfl⟩, .nil⟩

/-- The tokens of a value are in order between the brackets put around its text. -/
theorem inOrder_lexBracketed {text : List Char} {tokens : List Token}
    (h : lexBracketed p text = some tokens) :
    InOrder (((p.advance '\x7b').advanceAll text).advance ')') p tokens := by
  have horder : InOrder (p.advanceAll ('(' :: text ++ [')'])) p tokens := inOrder_lexFrom h
  rw [Pos.advanceAll_append] at horder
  exact horder

/-- A value between braces. -/
theorem lays_embeddedValue (hread : LaysOne read) (hlayout : LaysPieces layout)
    {join : List Piece → Expr} (hjoin : ∀ r ps, LaidIn r (ps.flatMap Piece.trees) →
      LaidIn r [join ps]) : LaysPieces (embeddedValue whole read layout join) := by
  intro p cs ps q rest h
  unfold embeddedValue at h
  split at h
  · rename_i cs
    obtain ⟨⟨text, behind⟩, htext, h⟩ := Option.bind_eq_some_iff.mp h
    dsimp only at h
    split_ifs at h with hblank
    · cases h
    obtain ⟨tokens, htokens, h⟩ := Option.bind_eq_some_iff.mp h
    obtain ⟨⟨e, d⟩, hreads, h⟩ := Option.bind_eq_some_iff.mp h
    dsimp only at h
    generalize hown : ownText text _ behind = o at h
    obtain ⟨own, p₁, behind₁⟩ := o
    obtain ⟨⟨conversion, p₂, behind₂⟩, hconversion, h⟩ := Option.bind_eq_some_iff.mp h
    obtain ⟨⟨spec, p₃, behind₃⟩, hspec, h⟩ := Option.bind_eq_some_iff.mp h
    dsimp only at h
    split at h
    · rename_i more
      cases h
      -- the places: behind the text, its sign, the conversion and the layout
      have htext : Reaches p ('\x7b' :: cs) ((p.advance '\x7b').advanceAll text) behind :=
        ⟨'\x7b' :: text, congrArg ('\x7b' :: ·) (append_of_embeddedText htext), rfl⟩
      obtain ⟨hsign, hnone⟩ := reaches_of_ownText hown
      have hbehind := hsign.trans (reaches_of_conversionAt hconversion)
      obtain ⟨hlast, hspec⟩ := laid_of_layoutAt hlayout hjoin hspec
      have hend := Reaches.bracket_le (hbehind.trans hlast) '\x7d'
      have horder := inOrder_lexBracketed htokens
      have hread := hread (c := ⟨tokens, p⟩) horder hreads
      have hvalue : LaidIn ⟨p, ((p.advance '\x7b').advanceAll text).advance ')'⟩ [e] :=
        hread.laid.mono ⟨Cursor.Orderly.le_front (c := ⟨tokens, p⟩) horder, hread.orderly.le⟩
      refine ⟨(htext.trans hbehind).trans (hlast.trans ⟨['\x7d'], rfl, rfl⟩), ?_⟩
      rw [List.flatMap_append, hnone]
      refine .node ?_ fun hown => Bool.noConfusion hown
      have hle : p ≤ p₂.advance ')' := (htext.trans hbehind).le.trans (p₂.lt_advance ')').le
      -- the closing bracket of the value's tokens stands in front of the layout
      exact hvalue.append hspec (.inl (Reaches.bracket_le hbehind ')')) ⟨le_refl p, hend⟩
        ⟨hle, (p₃.lt_advance '\x7d').le⟩
    · cases h
  · cases h

/-- Runs of text and values in turn. -/
theorem lays_pieceLoop {raw outermost : Bool} (hvalue : LaysPieces value) (fuel : Nat) :
    LaysPieces (pieceLoop raw outermost value fuel) := by
  induction fuel with
  | zero => exact fun _ _ _ _ _ h => by cases h
  | succ fuel ih =>
      intro p cs ps q rest h
      obtain ⟨run, hrun, h⟩ := Option.bind_eq_some_iff.mp h
      obtain ⟨text, -, h⟩ := Option.bind_eq_some_iff.mp h
      obtain ⟨hplace, hstops⟩ := reaches_of_plainRun hrun
      have hfirst : Covers p cs ((if text.isEmpty then [] else [Piece.text text]).flatMap
          Piece.trees) run.pos run.rest := by
        split <;> exact covers_nothing hplace
      dsimp only at h
      generalize (if text.isEmpty then [] else [Piece.text text]) = first at h hfirst
      split at h
      · obtain ⟨⟨more, q', rest'⟩, hmore, h⟩ := Option.bind_eq_some_iff.mp h
        cases h
        rw [List.flatMap_append]
        exact hfirst.trans (ih hmore)
      rename_i hgoes
      split at h
      · obtain ⟨⟨v, p', rest'⟩, hv, h⟩ := Option.bind_eq_some_iff.mp h
        obtain ⟨⟨more, q', rest''⟩, hmore, h⟩ := Option.bind_eq_some_iff.mp h
        cases h
        rw [List.flatMap_append, List.flatMap_append]
        exact (hfirst.trans (hvalue hv)).trans (ih hmore)
      · cases h
        exact hfirst
      · rename_i hopen hclose
        split_ifs at h
        cases h
        obtain hnil : run.rest = [] := by
          rcases hstops with hstops | hstops | ⟨c, more, hc, rfl | rfl⟩
          · exact absurd hstops hgoes
          · exact hstops
          · exact absurd hc (hopen more)
          · exact absurd hc (hclose more)
        exact hnil ▸ hfirst

theorem lays_formatPieces {raw outermost : Bool} (hread : LaysOne read) (depth : Nat) :
    LaysPieces (formatPieces whole own raw outermost read depth) := by
  induction depth generalizing outermost with
  | zero =>
      intro p cs ps q rest h
      exact lays_pieceLoop (fun _ _ _ _ _ h => by cases h) (cs.length + 1) h
  | succ depth ih =>
      intro p cs ps q rest h
      exact lays_pieceLoop (lays_embeddedValue hread ih fun r ps => laidIn_joinPieces)
        (cs.length + 1) h

end Readers

/-! ## Literals -/

section Literals

variable {read : EmbeddedReader} {whole : Span} {p q : Pos} {t : Token} {ts : List Token}
  {ps : List Piece} {e : Expr}

/-- A text with something in front is that, some of the rest, some more of it, and what is left. -/
theorem append_takes {cs marks : List Char} (h : marks <+: cs) (width count : Nat) :
    cs = marks ++ (cs.drop marks.length).take width ++
      (((cs.drop marks.length).drop width).take count ++
        ((cs.drop marks.length).drop width).drop count) := by
  rw [List.take_append_drop, List.append_assoc, List.take_append_drop,
    List.prefix_iff_eq_append.mp h]

/-- The inside of a string token stands between the quotes. -/
theorem text_of_ofToken (t : Token) : ∃ front behind,
    t.text.toList = front ++ ((StringToken.ofToken t).body ++ behind) ∧
      (StringToken.ofToken t).bodyStart = t.span.start.advanceAll front :=
  ⟨_, _, append_takes (List.takeWhile_prefix _) _ _, rfl⟩

/-- The trees in a string token lie in it. -/
theorem laid_of_tokenPieces (hread : LaysOne read)
    (hlength : t.span.stop = t.span.start.advanceAll t.text.toList)
    (h : tokenPieces whole read (.ofToken t) = some ps) :
    LaidIn t.span (ps.flatMap Piece.trees) := by
  unfold tokenPieces at h
  split at h
  · obtain ⟨⟨ps, q, rest⟩, hps, h⟩ := Option.bind_eq_some_iff.mp h
    dsimp only at h
    split_ifs at h
    cases h
    obtain ⟨⟨taken, hbody, rfl⟩, hlaid⟩ := lays_formatPieces hread maxNesting hps
    obtain ⟨front, behind, htext, hstart⟩ := text_of_ofToken t
    refine hlaid.mono ⟨hstart ▸ t.span.start.le_advanceAll front, ?_⟩
    rw [hlength, htext, hbody, hstart, ← Pos.advanceAll_append, List.append_assoc,
      ← List.append_assoc front, Pos.advanceAll_append t.span.start (front ++ taken)]
    exact Pos.le_advanceAll _ _
  · obtain ⟨text, -, h⟩ := Option.bind_eq_some_iff.mp h
    cases h
    split <;> exact .nil

/-- The trees in string tokens that follow each other. -/
theorem laid_of_pieces (hread : LaysOne read) {pss : List (List Piece)} (hts : InOrder q p ts)
    (h : (ts.map StringToken.ofToken).mapM (tokenPieces whole read) = some pss) :
    LaidIn ⟨p, q⟩ (pss.flatten.flatMap Piece.trees) := by
  induction ts generalizing p pss with
  | nil =>
      cases h
      exact .nil
  | cons t ts ih =>
      rw [List.map_cons, List.mapM_cons] at h
      obtain ⟨ps, hps, h⟩ := Option.bind_eq_some_iff.mp h
      obtain ⟨pss, hpss, h⟩ := Option.bind_eq_some_iff.mp h
      cases h
      rw [List.flatten_cons, List.flatMap_append]
      obtain ⟨hstart, hlength, hrest⟩ := hts
      exact (laid_of_tokenPieces hread hlength hps).append (ih hrest hpss) (.inl (le_refl _))
        ⟨hstart, hrest.le⟩ ⟨hstart.trans (le_stop hlength), le_refl q⟩

/-- **THE TREE OF A LITERAL** has what stands in the literal's tokens. -/
theorem laid_of_concatenated (hread : LaysOne read) (hts : InOrder q p ts)
    (h : concatenated read ts = some e) : LaidIn ⟨p, q⟩ [e] := by
  obtain ⟨first, -, h⟩ := Option.bind_eq_some_iff.mp h
  obtain ⟨last, -, h⟩ := Option.bind_eq_some_iff.mp h
  dsimp only at h
  have hconstant {s : Span} {v : Constant} : LaidIn ⟨p, q⟩ [.constant s v] :=
    laidIn_leaf rfl fun hown => Bool.noConfusion hown
  split at h
  · obtain ⟨bytes, -, h⟩ := Option.bind_eq_some_iff.mp h
    cases h
    exact hconstant
  split at h
  · cases h
  obtain ⟨pieces, hpieces, h⟩ := Option.bind_eq_some_iff.mp h
  split at h
  · cases h
    exact laidIn_joinPieces (laid_of_pieces hread hts hpieces)
  · split at h <;> cases h <;> exact hconstant

end Literals

end Covenant.Grammar
