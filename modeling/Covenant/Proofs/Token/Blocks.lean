import Covenant.Proofs.Token.Lines

/-! # Blocks — programs of indented lines

    A program whose blocks are each indented by four blanks more than the line
    above them gives the tokens of its lines, with the layout tokens that open
    and close the blocks.

    * `Laid k cs fs` says that the lines `cs`, which stand `k` blocks deep, have
      the faces `fs`, layout included.
    * The lexer closes blocks when it reaches the next line, not when they
      end; a walk over lines leaves it with blocks that are still open
      (`walk_of_laid`). -/

namespace Covenant.Token

open Text Covenant.Tree

variable {p q : Place} {cs rest line : List Char} {ts : List Token} {fs gs : List Face}
  {c : Char} {k j n : Nat}

/-! ## Columns -/

/-- The blanks in front of a line some blocks deep. -/
def margin (k : Nat) : List Char := List.replicate (4 * k) ' '

/-- The columns of the open blocks some blocks deep. -/
def levels : Nat → List (Nat × Nat)
  | 0 => [(0, 0)]
  | k + 1 => (4 * (k + 1), 4 * (k + 1)) :: levels k

theorem length_levels (k : Nat) : (levels k).length = k + 1 := by
  induction k with
  | zero => rfl
  | succ k ih => rw [levels, List.length_cons, ih]

theorem levels_eq_cons (k : Nat) : ∃ outer, levels k = (4 * k, 4 * k) :: outer := by
  cases k with
  | zero => exact ⟨[], rfl⟩
  | succ k => exact ⟨levels k, rfl⟩

theorem measureIndent_blanks (hc : StartsToken c) (n : Nat) {col alt : Nat} {pos : Pos} :
    ∃ pos', measureIndent col alt none pos (List.replicate n ' ' ++ c :: cs)
      = some (col + n, alt + n, pos', c :: cs) := by
  induction n generalizing col alt pos with
  | zero => exact ⟨pos, measureIndent_token hc⟩
  | succ n ih =>
      obtain ⟨pos', h⟩ := @ih (col + 1) (alt + 1) (pos.advance ' ')
      refine ⟨pos', ?_⟩
      rw [List.replicate_succ, List.cons_append, measureIndent, h, Nat.add_right_comm,
        Nat.add_right_comm alt]
      rfl

/-! ## Layout tokens -/

/-- The face of a name or of a keyword. -/
abbrev wordFace (w : String) : Face := (.name, w)

/-- The face of an operator. -/
abbrev signFace (o : String) : Face := (.op, o)

/-- The face of the end of a line. -/
def lineEnd : Face := (.newline, "")

/-- The face of the start of a block. -/
def blockStart : Face := (.indent, "")

/-- The face of the end of a block. -/
def blockEnd : Face := (.dedent, "")

/-- The layout in front of a line `k` blocks deep where `j` blocks are open. -/
def turn (j k : Nat) : List Face :=
  if k ≤ j then List.replicate (j - k) blockEnd else [blockStart]

theorem turn_self (k : Nat) : turn k k = [] := by
  rw [turn, if_pos (Nat.le_refl k), Nat.sub_self]
  rfl

theorem turn_of_le (h : k ≤ j) : turn j k = List.replicate (j - k) blockEnd := if_pos h

theorem turn_succ (k : Nat) : turn k (k + 1) = [blockStart] := if_neg (Nat.not_succ_le_self k)

/-- Blocks are closed down to a line that stands less deep. -/
theorem dedentTo_levels (k : Nat) (pos : Pos) : ∀ d, ∃ ts,
    dedentTo (4 * k) (4 * k) pos (levels (k + d)) = some (ts, levels k) ∧
      faces ts = List.replicate d blockEnd
  | 0 => by
      obtain ⟨outer, h⟩ := levels_eq_cons k
      refine ⟨[], ?_, rfl⟩
      rw [Nat.add_zero, h, dedentTo, if_neg (Nat.lt_irrefl _), if_pos ⟨rfl, rfl⟩]
  | d + 1 => by
      obtain ⟨ts, h, hts⟩ := dedentTo_levels k pos d
      refine ⟨layoutToken .dedent pos :: ts, ?_, congrArg (blockEnd :: ·) hts⟩
      have hless : 4 * k < 4 * (k + d + 1) := by omega
      rw [← Nat.add_assoc, levels, dedentTo, if_pos hless, h]
      rfl

/-- The layout tokens in front of a line. -/
theorem indentTo_levels (pos : Pos) (h : k ≤ j ∨ j + 1 = k ∧ k < maxIndents) :
    ∃ ts, indentTo (4 * k) (4 * k) pos (levels j) = some (ts, levels k) ∧ faces ts = turn j k := by
  rcases h with hle | ⟨rfl, hdepth⟩
  · obtain ⟨d, rfl⟩ := Nat.exists_eq_add_of_le hle
    obtain ⟨ts, hts, hfaces⟩ := dedentTo_levels k pos d
    obtain ⟨outer, hlevels⟩ := levels_eq_cons (k + d)
    refine ⟨ts, ?_, ?_⟩
    · rw [hlevels, indentTo]
      have hnot : ¬ 4 * (k + d) < 4 * k := by omega
      rw [if_neg hnot, ← hlevels, hts]
    · rw [hfaces, turn_of_le hle, Nat.add_sub_cancel_left]
  · obtain ⟨outer, hlevels⟩ := levels_eq_cons j
    refine ⟨[layoutToken .indent pos], ?_, (turn_succ j).symm⟩
    have hless : 4 * j < 4 * (j + 1) := by omega
    have hlength : ((4 * j, 4 * j) :: outer).length < maxIndents := by
      rw [← hlevels, length_levels]
      exact hdepth
    rw [hlevels, indentTo, if_pos hless, if_pos ⟨hless, hlength⟩, ← hlevels]
    rfl

/-! ## Lines -/

/-- The start of a line, some blocks deep. -/
structure Place.AtLine (p : Place) (k : Nat) : Prop where
  fresh : p.fresh = true
  brackets : p.brackets = []
  indents : p.indents = levels k

/-- A text of tokens on one line, outside of brackets. -/
structure LineText (line : List Char) (fs : List Face) : Prop where
  starts : ∃ c more, line = c :: more ∧ StartsToken c
  passes (rest : List Char) : Passes line ('\n' :: rest) fs [] []

/-- `Laid k cs fs`: the lines `cs`, each with its end, stand `k` blocks deep and have the faces
    `fs`. -/
inductive Laid : Nat → List Char → List Face → Prop where
  | done {k : Nat} : Laid k [] []
  | gap {k : Nat} {cs : List Char} {fs : List Face} : Laid k cs fs → Laid k ('\n' :: cs) fs
  | comment {text cs : List Char} {fs : List Face} : '\n' ∉ text → Laid 0 cs fs →
      Laid 0 ('#' :: (text ++ '\n' :: cs)) fs
  | line {k : Nat} {line cs : List Char} {fs gs : List Face} : LineText line fs → Laid k cs gs →
      Laid k (margin k ++ line ++ '\n' :: cs) (fs ++ lineEnd :: gs)
  | block {k : Nat} {head body cs : List Char} {hs fs gs : List Face} : LineText head hs →
      k + 1 < maxIndents → Laid (k + 1) body fs → fs ≠ [] → Laid k cs gs →
      Laid k (margin k ++ head ++ '\n' :: (body ++ cs))
        (hs ++ lineEnd :: blockStart :: (fs ++ blockEnd :: gs))

/-- An empty line gives nothing. -/
theorem walk_gap (hp : p.AtLine j) : ∃ q, Walk 2 p ('\n' :: rest) [] q rest ∧ q.AtLine j := by
  let here : Place := { p with fresh := false, blank := true }
  have hfresh : p.advance ('\n' :: rest) = some ([], here, '\n' :: rest) := by
    rw [Place.advance, hp.fresh, if_pos rfl]
    rfl
  have hnewline : here.advance ('\n' :: rest) = some ([], here.nextLine, rest) := by
    rw [advance_of_not_fresh rfl, step_newline, if_pos (.inl rfl)]
  exact ⟨here.nextLine, .step hfresh (.step hnewline .done), rfl, hp.brackets, hp.indents⟩

/-- A comment that stands alone gives nothing. -/
theorem walk_comment (hp : p.AtLine j) {text : List Char} (htext : '\n' ∉ text) :
    ∃ q, Walk 3 p ('#' :: (text ++ '\n' :: rest)) [] q rest ∧ q.AtLine j := by
  let here : Place := { p with fresh := false, blank := true }
  let behind : Place := { here with pos := here.pos.advanceAll ('#' :: text) }
  have hfresh : p.advance ('#' :: (text ++ '\n' :: rest))
      = some ([], here, '#' :: (text ++ '\n' :: rest)) := by
    rw [Place.advance, hp.fresh, if_pos rfl]
    rfl
  have hall : ∀ c ∈ text, decide (c ≠ '\n') = true := fun c hc =>
    decide_eq_true fun heq => htext (heq ▸ hc)
  have hcomment : here.advance ('#' :: (text ++ '\n' :: rest))
      = some ([], behind, '\n' :: rest) := by
    have htake : (text ++ '\n' :: rest).takeWhile (· ≠ '\n') = text := by
      rw [List.takeWhile_append_of_pos hall]
      exact List.append_nil text
    have hdrop : (text ++ '\n' :: rest).dropWhile (· ≠ '\n') = '\n' :: rest :=
      List.dropWhile_append_of_pos hall
    rw [advance_of_not_fresh rfl]
    show some (([] : List Token), { here with
      pos := here.pos.advanceAll ('#' :: (text ++ '\n' :: rest).takeWhile (· ≠ '\n')) },
      (text ++ '\n' :: rest).dropWhile (· ≠ '\n')) = _
    rw [htake, hdrop]
  have hnewline : behind.advance ('\n' :: rest) = some ([], behind.nextLine, rest) := by
    rw [advance_of_not_fresh rfl, step_newline, if_pos (.inl rfl)]
  exact ⟨behind.nextLine, .step hfresh (.step hcomment (.step hnewline .done)), rfl, hp.brackets,
    hp.indents⟩

/-- A line gives its layout, its tokens and its end. -/
theorem walk_line (hp : p.AtLine j) (hk : k ≤ j ∨ j + 1 = k ∧ k < maxIndents)
    (hline : LineText line fs) (rest : List Char) :
    ∃ n ts q, n ≤ 2 * (margin k ++ line ++ ['\n']).length ∧
      Walk n p (margin k ++ line ++ '\n' :: rest) ts q rest ∧ q.AtLine k ∧
      faces ts = turn j k ++ (fs ++ [lineEnd]) := by
  obtain ⟨c, more, rfl, hc⟩ := hline.starts
  obtain ⟨pos, hmeasure⟩ :=
    @measureIndent_blanks (more ++ '\n' :: rest) c hc (4 * k) 0 0 p.pos
  obtain ⟨layout, hlayout, hturn⟩ := indentTo_levels pos hk
  let here : Place := ⟨pos, [], levels k, false, false⟩
  have hfresh : p.advance (margin k ++ c :: more ++ '\n' :: rest)
      = some (layout, here, c :: (more ++ '\n' :: rest)) := by
    rw [Place.advance, hp.fresh, if_pos rfl, Place.freshLine, margin, List.append_assoc,
      List.cons_append, hmeasure, Option.bind_some]
    dsimp only
    split
    · rename_i heq
      exact absurd (List.cons.inj heq).1 hc.2.2.2.1
    · rename_i heq
      exact absurd (List.cons.inj heq).1 hc.2.2.2.2.1
    · rw [hp.brackets, hp.indents, Nat.zero_add, hlayout]
      rfl
  have hhere : here.Inside [] (levels k) := ⟨rfl, rfl, rfl, rfl⟩
  obtain ⟨n, ts, q, hn, hwalk, hts, hq⟩ := (hline.passes rest).walk here _ hhere
  have hnewline : q.advance ('\n' :: rest) = some ([layoutToken .newline q.pos], q.nextLine, rest) := by
    rw [advance_of_not_fresh hq.fresh, step_newline, if_neg]
    simp [hq.blank, hq.brackets]
  refine ⟨n + 1 + 1, layout ++ (ts ++ [layoutToken .newline q.pos]), q.nextLine, ?_, ?_,
    ⟨rfl, hq.brackets, hq.indents⟩, ?_⟩
  · rw [List.length_append, List.length_append, List.length_singleton]
    rw [List.length_cons] at hn ⊢
    omega
  · exact .step hfresh (hwalk.trans (.single hnewline))
  · rw [faces_append, faces_append, hturn, hts]
    rfl

/-- Every token of a line or of its layout has a character of its own. -/
theorem length_of_laid (h : Laid k cs fs) :
    fs.length ≤ cs.length ∧ (fs ≠ [] → fs.length + 4 * k ≤ cs.length) := by
  induction h with
  | done => exact ⟨Nat.le_refl 0, fun h => absurd rfl h⟩
  | gap _ ih =>
      refine ⟨Nat.le_succ_of_le ih.1, fun hne => Nat.le_succ_of_le (ih.2 hne)⟩
  | comment _ _ ih =>
      simp only [List.length_append, List.length_cons]
      omega
  | @line k line cs fs gs hline _ ih =>
      have hsize := (hline.passes []).size
      have hmargin : (margin k).length = 4 * k := List.length_replicate
      simp only [List.length_append, List.length_cons, hmargin]
      omega
  | @block k head body cs hs fs gs hhead _ _ hfs _ ihBody ih =>
      have hsize := (hhead.passes []).size
      have hbody := ihBody.2 hfs
      have hmargin : (margin k).length = 4 * k := List.length_replicate
      simp only [List.length_append, List.length_cons, hmargin]
      omega

/-! ## Walks over blocks -/

/-- **LINES IN BLOCKS**: over lines the lexer gives their faces, but for the ends of the blocks
    that are still open behind them. -/
theorem walk_of_laid (h : Laid k cs fs) : ∀ {p j}, Place.AtLine p j →
    k ≤ j ∨ fs ≠ [] ∧ j + 1 = k ∧ k < maxIndents → ∀ rest,
    ∃ n ts q j', n ≤ 2 * cs.length ∧ Walk n p (cs ++ rest) ts q rest ∧ q.AtLine j' ∧ k ≤ j' ∧
      faces ts ++ List.replicate (j' - k) blockEnd = turn j k ++ fs := by
  -- the blocks left open by the lines before are closed by the first line that has tokens
  induction h with
  | done =>
      intro p j hp hk rest
      have hle := hk.resolve_right fun h => h.1 rfl
      exact ⟨0, [], p, j, Nat.zero_le _, .done, hp, hle, by simp [faces, turn_of_le hle]⟩
  | gap _ ih =>
      intro p j hp hk rest
      obtain ⟨q, hwalk, hq⟩ := walk_gap hp
      obtain ⟨n, ts, q', j', hn, hwalk', hq', hj, hfaces⟩ := ih hq hk rest
      exact ⟨2 + n, ts, q', j', by rw [List.length_cons]; omega, hwalk.trans hwalk', hq', hj,
        hfaces⟩
  | comment htext _ ih =>
      intro p j hp hk rest
      obtain ⟨q, hwalk, hq⟩ := walk_comment hp htext
      obtain ⟨n, ts, q', j', hn, hwalk', hq', hj, hfaces⟩ := ih hq hk rest
      refine ⟨3 + n, ts, q', j', ?_, ?_, hq', hj, hfaces⟩
      · simp only [List.length_append, List.length_cons]
        omega
      · rw [List.cons_append, List.append_assoc]
        exact hwalk.trans hwalk'
  | @line k line cs fs gs hline _ ih =>
      intro p j hp hk rest
      obtain ⟨n, ts, q, hn, hwalk, hq, hfaces⟩ :=
        walk_line hp (hk.imp_right And.right) hline (cs ++ rest)
      obtain ⟨m, us, q', j', hm, hwalk', hq', hj, hfaces'⟩ := ih hq (.inl (Nat.le_refl k)) rest
      rw [turn_self, List.nil_append] at hfaces'
      refine ⟨n + m, ts ++ us, q', j', ?_, ?_, hq', hj, ?_⟩
      · simp only [List.length_append, List.length_cons, List.length_nil] at hn ⊢
        omega
      · rw [List.append_assoc, List.cons_append]
        exact hwalk.trans hwalk'
      · rw [faces_append, List.append_assoc, hfaces', hfaces]
        simp only [List.append_assoc, List.singleton_append]
  | @block k head body cs hs fs gs hhead hdepth _ hfs _ ihBody ih =>
      intro p j hp hk rest
      obtain ⟨n, ts, q, hn, hwalk, hq, hfaces⟩ :=
        walk_line hp (hk.imp_right And.right) hhead (body ++ (cs ++ rest))
      obtain ⟨m, us, q₁, j₁, hm, hwalk₁, hq₁, hj₁, hfaces₁⟩ :=
        ihBody hq (.inr ⟨hfs, rfl, hdepth⟩) (cs ++ rest)
      have hle : k ≤ j₁ := Nat.le_of_succ_le hj₁
      obtain ⟨m', vs, q₂, j₂, hm', hwalk₂, hq₂, hj₂, hfaces₂⟩ := ih hq₁ (.inl hle) rest
      refine ⟨n + (m + m'), ts ++ (us ++ vs), q₂, j₂, ?_, ?_, hq₂, hj₂, ?_⟩
      · simp only [List.length_append, List.length_cons, List.length_nil] at hn ⊢
        omega
      · have happend : margin k ++ head ++ '\n' :: (body ++ cs) ++ rest
            = margin k ++ head ++ '\n' :: (body ++ (cs ++ rest)) := by
          simp only [List.append_assoc, List.cons_append]
        rw [happend]
        exact hwalk.trans (hwalk₁.trans hwalk₂)
      · -- one end of a block more is due at the depth of the head than within the block
        have hone : j₁ - k = j₁ - (k + 1) + 1 := by omega
        have hclosed : faces us ++ List.replicate (j₁ - k) blockEnd
            = blockStart :: (fs ++ [blockEnd]) := by
          rw [hone, List.replicate_succ', ← List.append_assoc, hfaces₁, turn_succ]
          simp
        rw [faces_append, faces_append, List.append_assoc, List.append_assoc, hfaces₂,
          turn_of_le hle, ← List.append_assoc (faces us), hclosed, hfaces]
        simp

/-! ## Whole programs -/

/-- Lines are empty or end with the end of a line. -/
theorem getLast?_of_laid (h : Laid k cs fs) : cs = [] ∨ cs.getLast? = some '\n' := by
  have hends {front cs : List Char} (hcs : cs = [] ∨ cs.getLast? = some '\n') :
      (front ++ '\n' :: cs).getLast? = some '\n' := by
    rcases hcs with rfl | hcs
    · simp
    · rw [List.getLast?_append, List.getLast?_cons, hcs]
      rfl
  induction h with
  | done => exact .inl rfl
  | gap _ ih => exact .inr (@hends [] _ ih)
  | @comment text _ _ _ _ ih => exact .inr (@hends ('#' :: text) _ ih)
  | line _ _ ih => exact .inr (hends ih)
  | @block k head body cs hs fs gs _ _ _ _ _ ihBody ih =>
      refine .inr (hends ?_)
      rcases ih with rfl | hcs
      · simpa using ihBody
      · exact .inr (by simp [hcs])

theorem freshLine_end (hp : p.AtLine j) : ∃ ts q, p.advance [] = some (ts, q, []) ∧ q.IsEnd ∧
    faces ts = List.replicate j blockEnd := by
  obtain ⟨ts, hts, hfaces⟩ := indentTo_levels p.pos (.inl (Nat.zero_le j))
  rw [turn_of_le (Nat.zero_le j)] at hfaces
  refine ⟨ts, { p with fresh := false, indents := levels 0, blank := false }, ?_,
    ⟨rfl, hp.brackets⟩, hfaces⟩
  rw [Place.advance, hp.fresh, if_pos rfl, freshLine_nil,
    if_pos (List.isEmpty_iff.mpr hp.brackets), hp.indents]
  rw [Nat.mul_zero] at hts
  rw [hts]
  rfl

/-- **PROGRAMS OF INDENTED LINES** have the tokens of their lines and blocks. -/
theorem lex_of_laid {text : List Char} (h : Laid 0 (endLine text) fs) (hfeed : '\r' ∉ text)
    (hnull : '\x00' ∉ text) :
    ∃ ts t, lex text = some (ts ++ [t]) ∧ faces ts = fs ∧ t.kind = .stop := by
  obtain ⟨n, ts, q, j, hn, hwalk, hq, -, hfaces⟩ :=
    walk_of_laid h (p := .start) (j := 0) ⟨rfl, rfl, rfl⟩ (.inl (Nat.le_refl 0)) []
  rw [turn_self, List.nil_append, Nat.sub_zero] at hfaces
  obtain ⟨us, q', hend, hq', hus⟩ := freshLine_end hq
  rw [List.append_nil] at hwalk
  have hwhole := hwalk.trans (.single hend)
  refine ⟨ts ++ us, layoutToken .stop q'.pos, ?_, ?_, rfl⟩
  · rw [lex, if_neg (by simpa using hnull), unifyNewlines_eq hfeed]
    exact lexFrom_of_walk hwhole hq' (by omega)
  · rw [faces_append, hus, hfaces]

end Covenant.Token
