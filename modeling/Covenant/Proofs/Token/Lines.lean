import Covenant.Proofs.Token.Walk

/-! # Lines — texts that are a line

    * The lexer reads a line whose characters it passes over, and ends the text
      (`lex_of_passes`).
    * A line that is a text by itself may hold a comment, which would swallow what is written
      behind the line.  If the line can be put between round brackets, it has the same tokens
      there, whatever follows (`passes_of_lex`). -/

namespace Covenant.Token

open Text Covenant.Tree

variable {p q : Place} {cs rest tail : List Char} {ts us : List Token} {c : Char} {n : Nat}
  {b b' : List Char} {fs : List Face} {indents : List (Nat × Nat)}

/-! ## Texts on a line -/

/-- Within a line that has tokens the lexer takes a step and goes on from there. -/
theorem lexFrom_step (hfresh : p.fresh = false) {fuel : Nat}
    (h : lexFrom fuel p (c :: cs) = some us) :
    ∃ fuel' ts p' rest us', p.step (c :: cs) = some (ts, p', rest) ∧
      lexFrom fuel' p' rest = some us' := by
  cases fuel with
  | zero => exact nomatch h
  | succ fuel =>
      rw [lexFrom, hfresh, if_neg Bool.false_ne_true, if_neg (by simp)] at h
      obtain ⟨⟨ts, p', rest⟩, hstep, h⟩ := Option.bind_eq_some_iff.mp h
      obtain ⟨us', hus, -⟩ := Option.map_eq_some_iff.mp h
      exact ⟨fuel, ts, p', rest, us', hstep, hus⟩

/-- A text does not end within brackets. -/
theorem lexFrom_nil_of_brackets (hfresh : p.fresh = false) (hb : p.brackets ≠ []) {fuel : Nat} :
    lexFrom fuel p [] = none := by
  cases fuel with
  | zero => rfl
  | succ fuel =>
      simp [lexFrom, hfresh, hb]

/-- A place at the start of the next line. -/
def Place.nextLine (p : Place) : Place := { p with pos := p.pos.advance '\n', fresh := true }

theorem step_newline : p.step ('\n' :: rest) =
    if p.blank = true ∨ ¬ p.brackets.isEmpty then some ([], p.nextLine, rest)
    else some ([layoutToken .newline p.pos], p.nextLine, rest) := rfl

theorem walk_nil (hfresh : p.fresh = false) (h : Walk n p [] ts q rest) : ts = [] ∧ q = p := by
  cases h with
  | done => exact ⟨rfl, rfl⟩
  | step hstep _ =>
      rw [advance_of_not_fresh hfresh] at hstep
      exact nomatch hstep

theorem freshLine_nil : p.freshLine [] =
    if p.brackets.isEmpty then (indentTo 0 0 p.pos p.indents).map fun r =>
      (r.1, { p with fresh := false, indents := r.2, blank := false }, [])
    else some ([], { p with fresh := false, blank := false }, []) := rfl

theorem indentTo_margin {pos : Pos} : indentTo 0 0 pos [(0, 0)] = some ([], [(0, 0)]) := rfl

theorem walk_nextLine (h : Walk n p.nextLine [] ts q []) (hindents : p.indents = [(0, 0)])
    (hq : q.IsEnd) : p.brackets = [] ∧ ts = [] := by
  cases h with
  | done => exact nomatch hq.fresh
  | step hstep hwalk =>
      have hstep : p.nextLine.freshLine [] = _ := hstep
      rw [freshLine_nil] at hstep
      split_ifs at hstep with hempty
      · rw [show p.nextLine.indents = [(0, 0)] from hindents, indentTo_margin] at hstep
        obtain ⟨rfl, rfl, rfl⟩ := eq_of_advance hstep
        exact ⟨List.isEmpty_iff.mp hempty, (walk_nil rfl hwalk).1⟩
      · obtain ⟨rfl, rfl, rfl⟩ : _ ∧ _ ∧ _ := by
          simpa only [Option.some.injEq, Prod.mk.injEq] using hstep
        obtain ⟨-, rfl⟩ := walk_nil rfl hwalk
        exact absurd (List.isEmpty_iff.mpr hq.brackets) hempty

/-- At the end of a line nothing is left to do but to end the text, outside of brackets. -/
theorem eq_of_walk_newline (hp : p.Inside b [(0, 0)]) (h : Walk n p ['\n'] ts q [])
    (hq : q.IsEnd) : b = [] ∧ ∃ t, ts = [t] ∧ t.kind = .newline := by
  cases h with
  | step hstep hwalk =>
      rw [advance_of_not_fresh hp.fresh, step_newline] at hstep
      split_ifs at hstep with hopen
      · obtain ⟨rfl, rfl, rfl⟩ : _ ∧ _ ∧ _ := by
          simpa only [Option.some.injEq, Prod.mk.injEq] using hstep
        obtain ⟨hbrackets, -⟩ := walk_nextLine hwalk hp.indents hq
        simp [hbrackets, hp.blank] at hopen
      · obtain ⟨rfl, rfl, rfl⟩ : _ ∧ _ ∧ _ := by
          simpa only [Option.some.injEq, Prod.mk.injEq] using hstep
        obtain ⟨hbrackets, rfl⟩ := walk_nextLine hwalk hp.indents hq
        exact ⟨hp.brackets.symm.trans hbrackets, _, rfl, rfl⟩

/-- What may be open around a line: nothing, or a round bracket. -/
def Around (b : List Char) : Prop := b = [] ∨ b = [')']

/-- A step over a token or a blank of a line that ends a text is one in front of the closing
    bracket, too, and goes on in the same way. -/
theorem passes_of_step {p' q₀ q₁ : Place} {rest₁ : List Char} (hp : p.Inside b [(0, 0)])
    (hc : c ≠ '\n') (hline : '\n' ∉ cs) (hcomment : c ≠ '#')
    (hstep : p.step (c :: (cs ++ ['\n'])) = some (ts, p', rest))
    (hq₀ : q₀.Inside (b ++ [')']) indents)
    (hstep₀ : q₀.step (c :: (cs ++ [')'])) = some (us, q₁, rest₁)) :
    ∃ taken after b', c :: cs = taken ++ after ∧ rest = after ++ ['\n'] ∧ rest₁ = after ++ [')'] ∧
      p'.Inside b' [(0, 0)] ∧ q₁.Inside (b' ++ [')']) indents ∧ (∀ t ∈ ts, t.kind ≠ .newline) ∧
      ∀ around, Around around → ∀ tail, Tail tail →
        Passes taken (after ++ tail) (faces ts) (b ++ around) (b' ++ around) := by
  by_cases hblank : c = ' ' ∨ c = '\t' ∨ c = '\x0c'
  · rw [step_blank hblank] at hstep hstep₀
    obtain ⟨rfl, rfl, rfl⟩ := eq_of_advance hstep
    obtain ⟨rfl, rfl, rfl⟩ := eq_of_advance hstep₀
    exact ⟨[c], cs, b, rfl, rfl, rfl, ⟨hp.fresh, hp.blank, hp.brackets, hp.indents⟩,
      ⟨hq₀.fresh, hq₀.blank, hq₀.brackets, hq₀.indents⟩, nofun, fun _ _ _ _ => passes_blank hblank⟩
  by_cases hescape : c = '\\'
  · -- a line is continued only if there is a next one
    subst hescape
    cases cs with
    | nil => exact nomatch hstep
    | cons d cs =>
        have hd : d ≠ '\n' := fun heq => hline (heq ▸ List.mem_cons_self)
        simp [Place.step, hd] at hstep
  have hstarts : StartsToken c :=
    ⟨fun h => hblank (.inl h), fun h => hblank (.inr (.inl h)), fun h => hblank (.inr (.inr h)),
      hcomment, hc, hescape⟩
  rw [step_token hstarts] at hstep hstep₀
  obtain ⟨s, hs, hstep⟩ := Option.bind_eq_some_iff.mp hstep
  obtain ⟨p₁, hp₁, htake⟩ := Option.map_eq_some_iff.mp hstep
  obtain ⟨⟨kind, cut⟩, hscan, rfl⟩ := scanToken_newline (List.cons_ne_nil c cs) hs
  have hround : scanToken (c :: (cs ++ [')'])) = _ :=
    scanToken_tail ⟨_, _, rfl, ends_round⟩ hscan
  rw [hround, Option.bind_some] at hstep₀
  obtain ⟨p₂, hp₂, htake₀⟩ := Option.map_eq_some_iff.mp hstep₀
  obtain ⟨hplace, hturns⟩ := turns_of_behind hp₁
  obtain ⟨hplace₂, hturns₂⟩ := turns_of_behind hp₂
  rw [hp.brackets] at hturns
  rw [hq₀.brackets] at hturns₂
  have hwithin : p₂.brackets = p₁.brackets ++ [')'] := hturns.within hturns₂
  obtain ⟨more, htaken, rfl⟩ := extends_scanToken hscan
  obtain ⟨taken, after⟩ := cut
  dsimp only at htaken
  subst htaken
  obtain ⟨rfl, rfl, rfl⟩ := eq_of_advance (congrArg some htake)
  obtain ⟨rfl, rfl, rfl⟩ := eq_of_advance (congrArg some htake₀)
  have hkind : ∀ t ∈ (p₁.take kind (c :: more, after ++ ['\n'])).1, t.kind ≠ .newline :=
    List.forall_mem_singleton.mpr (kind_of_scanToken hscan)
  refine ⟨c :: more, after, p₁.brackets, rfl, rfl, rfl, ?_, ?_, hkind,
    fun around haround tail htail => ?_⟩
  · rw [hplace]
    exact ⟨hp.fresh, rfl, rfl, hp.indents⟩
  · rw [hplace₂]
    exact ⟨hq₀.fresh, rfl, hwithin, hq₀.indents⟩
  · have hscan_tail : scanToken (c :: more ++ (after ++ tail)) = some (kind, c :: more, after ++ tail) := by
      rw [← List.append_assoc]
      exact scanToken_tail htail hscan
    rcases haround with rfl | rfl
    · rw [List.append_nil, List.append_nil]
      exact passes_token hstarts hturns hscan_tail
    · rw [← hwithin]
      exact passes_token hstarts hturns₂ hscan_tail

/-- A comment swallows the closing bracket. -/
theorem comment_swallows {q₀ q₁ : Place} {rest₁ : List Char} (hline : '\n' ∉ cs)
    (hstep₀ : q₀.step ('#' :: (cs ++ [')'])) = some (us, q₁, rest₁)) :
    rest₁ = [] ∧ q₁.fresh = q₀.fresh ∧ q₁.brackets = q₀.brackets := by
  obtain ⟨rfl, rfl, rfl⟩ := eq_of_advance hstep₀
  refine ⟨List.dropWhile_eq_nil_iff.mpr fun d hd => ?_, rfl, rfl⟩
  rw [List.mem_append, List.mem_singleton] at hd
  rw [decide_eq_true_iff]
  rintro rfl
  exact hd.elim hline (by decide)

/-- **LINES IN BRACKETS**: a line that is a text by itself and that can be put between round
    brackets has the same tokens there and alone, in front of whatever continues no token. -/
theorem passes_of_walk (h : Walk n p (cs ++ ['\n']) ts q []) (hq : q.IsEnd)
    (hp : p.Inside b [(0, 0)]) (hline : '\n' ∉ cs) {q₀ : Place}
    (hq₀ : q₀.Inside (b ++ [')']) indents) {fuel : Nat}
    (hround : lexFrom fuel q₀ (cs ++ [')']) = some us) :
    ∃ ts₁ t, ts = ts₁ ++ [t] ∧ t.kind = .newline ∧ (∀ t ∈ ts₁, t.kind ≠ .newline) ∧
      ∀ around, Around around → ∀ tail, Tail tail →
        Passes cs tail (faces ts₁) (b ++ around) around := by
  induction n generalizing p cs ts b q₀ us fuel with
  | zero =>
      generalize htext : cs ++ ['\n'] = text at h
      cases h
      simp at htext
  | succ n ih =>
      cases cs with
      | nil =>
          obtain ⟨rfl, t, rfl, ht⟩ := eq_of_walk_newline hp h hq
          exact ⟨[], t, rfl, ht, nofun, fun _ _ _ _ => passes_nil⟩
      | cons c cs =>
          obtain ⟨hc, hrest⟩ := not_or.mp (mt List.mem_cons.mpr hline)
          cases h with
          | step hstep hwalk =>
              rw [advance_of_not_fresh hp.fresh] at hstep
              obtain ⟨fuel', vs, q₁, rest₁, us', hstep₀, hround⟩ := lexFrom_step hq₀.fresh hround
              by_cases hcomment : c = '#'
              · subst hcomment
                obtain ⟨rfl, hfresh, hbrackets⟩ := comment_swallows hrest hstep₀
                rw [lexFrom_nil_of_brackets (hfresh.trans hq₀.fresh)
                  (by rw [hbrackets, hq₀.brackets]; simp)] at hround
                exact nomatch hround
              · obtain ⟨taken, after, b', hcs, rfl, rfl, hp', hq₁, hkinds, hpasses⟩ :=
                  passes_of_step hp (Ne.symm hc) hrest hcomment hstep hq₀ hstep₀
                have hafter : '\n' ∉ after := fun hmem =>
                  hline (hcs ▸ List.mem_append_right taken hmem)
                obtain ⟨ts₁, t, rfl, ht, hkinds₁, hlater⟩ := ih hwalk hp' hafter hq₁ hround
                refine ⟨_, t, (List.append_assoc ..).symm, ht,
                  List.forall_mem_append.mpr ⟨hkinds, hkinds₁⟩,
                  fun around haround tail htail => ?_⟩
                rw [hcs, faces_append]
                exact (hpasses around haround tail htail).append (hlater around haround tail htail)

/-! ## Whole texts -/

/-- A text of one line that starts with a token. -/
structure OneLine (cs : List Char) : Prop where
  starts : ∃ c rest, cs = c :: rest ∧ StartsToken c
  line : '\n' ∉ cs
  feed : '\r' ∉ cs

theorem unifyNewlines_eq (h : '\r' ∉ cs) : unifyNewlines cs = cs := by
  induction cs with
  | nil => rfl
  | cons c cs ih =>
      obtain ⟨hc, hcs⟩ := not_or.mp (mt List.mem_cons.mpr h)
      rw [unifyNewlines.eq_def]
      split
      · rename_i heq
        exact absurd (List.cons.inj heq).1.symm hc
      · rename_i heq
        exact absurd (List.cons.inj heq).1.symm hc
      · rename_i heq
        obtain ⟨rfl, rfl⟩ := List.cons.inj heq
        rw [ih hcs]
      · rename_i heq
        exact nomatch heq

theorem endLine_eq (h : '\n' ∉ cs) : endLine cs = cs ++ ['\n'] :=
  if_neg fun hlast => h (List.mem_of_getLast? hlast)

/-- The place where the lexer starts. -/
def Place.start : Place := ⟨Pos.start, [], [(0, 0)], true, true⟩

theorem lex_eq (hline : '\n' ∉ cs) (hfeed : '\r' ∉ cs) (hnull : '\x00' ∉ cs) :
    lex cs = lexFrom (2 * (cs ++ ['\n']).length + 2) .start (cs ++ ['\n']) := by
  rw [lex, if_neg (by simpa using hnull), unifyNewlines_eq hfeed, endLine_eq hline]
  rfl

theorem measureIndent_token (hc : StartsToken c) {col alt : Nat} {pos : Pos} :
    measureIndent col alt none pos (c :: cs) = some (col, alt, pos, c :: cs) := by
  obtain ⟨hspace, htab, hfeed, -, -, hescape⟩ := hc
  rw [measureIndent.eq_def]
  split
  · rename_i heq
    exact absurd (List.cons.inj heq).1 hspace
  · rename_i heq
    exact absurd (List.cons.inj heq).1 htab
  · rename_i heq
    exact absurd (List.cons.inj heq).1 hfeed
  · rename_i heq
    exact absurd (List.cons.inj heq).1 hescape
  · rfl

/-- Where the lexer stands once it has seen that a text starts with a token. -/
def Place.margin : Place := ⟨Pos.start, [], [(0, 0)], false, false⟩

theorem inside_margin : Place.margin.Inside [] [(0, 0)] := ⟨rfl, rfl, rfl, rfl⟩

theorem freshLine_token (hc : StartsToken c) :
    Place.start.advance (c :: cs) = some ([], .margin, c :: cs) := by
  show Place.start.freshLine (c :: cs) = _
  rw [Place.freshLine, show Place.start.pos = Pos.start from rfl, measureIndent_token hc,
    Option.bind_some]
  dsimp only
  split
  · rename_i heq
    exact absurd (List.cons.inj heq).1 hc.2.2.2.1
  · rename_i heq
    exact absurd (List.cons.inj heq).1 hc.2.2.2.2.1
  · rfl

/-- **A LINE IS READ** if the lexer passes over it. -/
theorem lex_of_passes (h : OneLine cs) (hnull : '\x00' ∉ cs)
    (hpasses : Passes cs ['\n'] fs [] []) :
    ∃ ts t u, lex cs = some (ts ++ [t, u]) ∧ faces ts = fs ∧ t.kind = .newline ∧
      u.kind = .stop := by
  obtain ⟨c, rest, rfl, hc⟩ := h.starts
  obtain ⟨n, ts, q, hn, hwalk, hts, hq⟩ := hpasses.walk .margin [(0, 0)] inside_margin
  rw [lex_eq h.line h.feed hnull]
  have hnewline : q.advance ['\n'] = some ([layoutToken .newline q.pos], q.nextLine, []) := by
    rw [advance_of_not_fresh hq.fresh, step_newline, if_neg]
    simp [hq.blank, hq.brackets]
  have hend : q.nextLine.advance []
      = some ([], { q.nextLine with fresh := false, indents := [(0, 0)], blank := false }, []) := by
    show q.nextLine.freshLine [] = _
    have hclosed : q.nextLine.brackets.isEmpty = true := List.isEmpty_iff.mpr hq.brackets
    rw [freshLine_nil, if_pos hclosed, show q.nextLine.indents = [(0, 0)] from hq.indents]
    rfl
  have hwhole := (Walk.step (freshLine_token hc) hwalk).trans
    ((Walk.single hnewline).trans (Walk.single hend))
  have hlex := lexFrom_of_walk hwhole ⟨rfl, hq.brackets⟩
    (show n + 1 + (1 + 1) < 2 * (c :: rest ++ ['\n']).length + 2 by
      rw [List.length_append, List.length_singleton]
      omega)
  refine ⟨ts, layoutToken .newline q.pos, layoutToken .stop q.nextLine.pos, hlex.trans ?_, hts,
    rfl, rfl⟩
  simp

/-- **A LINE THAT IS READ** and that can be put between round brackets has the same tokens
    there and alone, in front of whatever continues no token. -/
theorem passes_of_lex (h : OneLine cs) (hlex : lex cs = some us) {place : Pos}
    (hround : (lexBracketed place cs).isSome) :
    ∃ ts t u, us = ts ++ [t, u] ∧ t.kind = .newline ∧ u.kind = .stop ∧
      (∀ t ∈ ts, t.kind ≠ .newline) ∧
      ∀ around, Around around → ∀ tail, Tail tail →
        Passes cs tail (faces ts) around around := by
  obtain ⟨c, rest, rfl, hc⟩ := h.starts
  have hnull : '\x00' ∉ c :: rest := by
    intro hmem
    rw [lex, if_pos (by simpa using hmem)] at hlex
    exact nomatch hlex
  rw [lex_eq h.line h.feed hnull] at hlex
  obtain ⟨n, ts, q, hwalk, hq, -, rfl⟩ := walk_of_lexFrom hlex
  obtain ⟨vs, hvs⟩ := Option.isSome_iff_exists.mp hround
  obtain ⟨fuel, ws, q₀, rest₀, vs', hstep₀, hvs'⟩ := lexFrom_step rfl hvs
  -- behind the opening bracket
  have hopens : scanToken ('(' :: (c :: rest ++ [')'])) = some (.op, ['('], c :: rest ++ [')']) :=
    rfl
  have hstep₀ :
      Place.step ⟨place, [], [(0, 0)], false, false⟩ ('(' :: (c :: rest ++ [')'])) = _ := hstep₀
  rw [step_token (by decide), hopens, Option.bind_some,
    turns_open (b := []) rfl (by decide) _ rfl] at hstep₀
  have hq₀ : q₀.Inside ([] ++ [')']) [(0, 0)] := by
    rw [← (eq_of_advance hstep₀).2.1]
    exact ⟨rfl, rfl, rfl, rfl⟩
  obtain ⟨-, -, rfl⟩ := eq_of_advance hstep₀
  cases hwalk with
  | step hstep hwalk =>
      rw [List.cons_append, freshLine_token hc] at hstep
      obtain ⟨rfl, rfl, rfl⟩ := eq_of_advance hstep
      rw [← List.cons_append] at hwalk
      obtain ⟨ts₁, t, rfl, ht, hkinds, hpasses⟩ :=
        passes_of_walk hwalk hq inside_margin h.line hq₀ hvs'
      exact ⟨ts₁, t, layoutToken .stop q.pos, by simp, ht, rfl, hkinds, hpasses⟩

end Covenant.Token
