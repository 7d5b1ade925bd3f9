import Covenant.Proofs.Token.Walk
import Covenant.Proofs.Tree.Places

/-! # Order — the places of tokens

    The lexer never goes back: each token starts where those before it have
    ended or later, and is as long as its text.

    * `InOrder limit p ts` says this of tokens between two places.
    * A step of the lexer goes over a part of the text, and its tokens are in
      order between the places in front of and behind that part
      (`passed_advance`); so are all tokens of a text (`inOrder_lexFrom`). -/

namespace Covenant.Token

open Text Covenant.Tree

variable {p q limit : Pos} {ts us : List Token} {t : Token}

/-! ## Tokens in order -/

/-- Tokens from one place up to another, each as long as its text. -/
def InOrder (limit : Pos) : Pos → List Token → Prop
  | p, [] => p ≤ limit
  | p, t :: ts =>
    p ≤ t.span.start ∧ t.span.stop = t.span.start.advanceAll t.text.toList ∧
      InOrder limit t.span.stop ts

/-- A token does not end in front of where it starts. -/
theorem le_stop (h : t.span.stop = t.span.start.advanceAll t.text.toList) :
    t.span.start ≤ t.span.stop :=
  h ▸ t.span.start.le_advanceAll _

theorem InOrder.weaken (h : InOrder limit q ts) (hp : p ≤ q) : InOrder limit p ts := by
  cases ts with
  | nil => exact hp.trans h
  | cons t ts => exact ⟨hp.trans h.1, h.2⟩

theorem InOrder.append (h : InOrder q p ts) (h' : InOrder limit q us) :
    InOrder limit p (ts ++ us) := by
  induction ts generalizing p with
  | nil => exact h'.weaken h
  | cons t ts ih => exact ⟨h.1, h.2.1, ih h.2.2⟩

theorem InOrder.le (h : InOrder limit p ts) : p ≤ limit := by
  induction ts generalizing p with
  | nil => exact h
  | cons t ts ih => exact (h.1.trans (le_stop h.2.1)).trans (ih h.2.2)

/-- Tokens without text at one place. -/
theorem inOrder_layout (hp : p ≤ q) (h : ∀ t ∈ ts, ∃ kind, t = layoutToken kind q) :
    InOrder q p ts := by
  induction ts generalizing p with
  | nil => exact hp
  | cons t ts ih =>
      obtain ⟨⟨kind, rfl⟩, hts⟩ := List.forall_mem_cons.mp h
      exact ⟨hp, rfl, ih (le_refl q) hts⟩

/-! ## Steps -/

/-- Going over a part of a text leads from the place in front of it to the place in front of the
    rest. -/
abbrev Reaches (p : Pos) (cs : List Char) (q : Pos) (rest : List Char) : Prop :=
  ∃ taken, cs = taken ++ rest ∧ q = p.advanceAll taken

theorem Reaches.trans {cs rest more : List Char} (h : Reaches p cs q rest)
    (h' : Reaches q rest limit more) : Reaches p cs limit more := by
  obtain ⟨taken, rfl, rfl⟩ := h
  obtain ⟨taken', rfl, rfl⟩ := h'
  exact ⟨taken ++ taken', (List.append_assoc ..).symm, (Pos.advanceAll_append ..).symm⟩

theorem Reaches.le {cs rest : List Char} (h : Reaches p cs q rest) : p ≤ q := by
  obtain ⟨taken, -, rfl⟩ := h
  exact p.le_advanceAll taken

/-- `Passed p cs ts q rest`: the lexer has gone from one place to the other, and has given tokens on
    the way. -/
structure Passed (p : Pos) (cs : List Char) (ts : List Token) (q : Pos) (rest : List Char) :
    Prop where
  place : Reaches p cs q rest
  order : InOrder q p ts

section Steps

variable {cs rest : List Char} {place place' : Place}

/-- Going over characters that are no tokens. -/
theorem passed_nothing (taken : List Char) :
    Passed p (taken ++ rest) [] (p.advanceAll taken) rest :=
  ⟨⟨taken, rfl, rfl⟩, p.le_advanceAll taken⟩

theorem passed_take {kind : TokenKind} {taken : List Char} :
    Passed p (taken ++ rest) [⟨kind, String.ofList taken, ⟨p, p.advanceAll taken⟩⟩]
      (p.advanceAll taken) rest := by
  refine ⟨⟨taken, rfl, rfl⟩, le_refl p, ?_, le_refl _⟩
  rw [String.toList_ofList]

theorem pos_behind {kind : TokenKind} {c : Char} (h : place.behind kind c = some place') :
    place'.pos = place.pos := by
  unfold Place.behind at h
  split_ifs at h
  · unfold Place.bracket at h
    split at h
    · split_ifs at h
      cases h
      rfl
    · split_ifs at h
      · split at h
        · split_ifs at h
          cases h
          rfl
        · cases h
      · cases h
        rfl
  · cases h
    rfl

/-- A step over a token. -/
theorem passed_token {c : Char} (hc : StartsToken c)
    (h : place.step (c :: cs) = some (ts, place', rest)) :
    Passed place.pos (c :: cs) ts place'.pos rest := by
  rw [step_token hc] at h
  obtain ⟨⟨kind, cut⟩, hscan, h⟩ := Option.bind_eq_some_iff.mp h
  obtain ⟨behind, hbehind, h⟩ := Option.map_eq_some_iff.mp h
  obtain ⟨rfl, rfl, rfl⟩ := eq_of_advance (congrArg some h)
  have hcut : cut.1 ++ cut.2 = c :: cs := by
    obtain ⟨more, htaken, hrest⟩ := extends_scanToken hscan
    rw [htaken, show cs = more ++ cut.2 from hrest]
    rfl
  rw [← hcut, ← pos_behind hbehind]
  exact passed_take

/-- A step within a line. -/
theorem passed_step (h : place.step cs = some (ts, place', rest)) :
    Passed place.pos cs ts place'.pos rest := by
  cases cs with
  | nil => cases h
  | cons c cs =>
      by_cases hblank : c = ' ' ∨ c = '\t' ∨ c = '\x0c'
      · unfold Place.step at h
        dsimp only at h
        rw [if_pos hblank] at h
        obtain ⟨rfl, rfl, rfl⟩ := eq_of_advance h
        exact passed_nothing [c]
      by_cases hcomment : c = '#'
      · unfold Place.step at h
        dsimp only at h
        rw [if_neg hblank, if_pos hcomment] at h
        obtain ⟨rfl, rfl, rfl⟩ := eq_of_advance h
        have hnothing := @passed_nothing place.pos (cs.dropWhile (· ≠ '\n'))
          (c :: cs.takeWhile (· ≠ '\n'))
        rwa [List.cons_append, List.takeWhile_append_dropWhile] at hnothing
      by_cases hline : c = '\n'
      · unfold Place.step at h
        dsimp only at h
        rw [if_neg hblank, if_neg hcomment, if_pos hline] at h
        have hnext := place.pos.lt_advance c
        split at h
        · obtain ⟨rfl, rfl, rfl⟩ := eq_of_advance h
          exact passed_nothing [c]
        · obtain ⟨rfl, rfl, rfl⟩ := eq_of_advance h
          exact ⟨⟨[c], rfl, rfl⟩, le_refl _, rfl, hnext.le⟩
      by_cases hescape : c = '\\'
      · unfold Place.step at h
        dsimp only at h
        rw [if_neg hblank, if_neg hcomment, if_neg hline, if_pos hescape] at h
        split at h
        · split_ifs at h
          obtain ⟨rfl, rfl, rfl⟩ := eq_of_advance h
          exact passed_nothing [c, '\n']
        · cases h
      · obtain ⟨hspace, htab, hfeed⟩ := not_or.mp hblank |>.imp_right not_or.mp
        exact passed_token ⟨hspace, htab, hfeed, hcomment, hline, hescape⟩ h

/-! ## Starts of lines -/

/-- Measuring the indentation goes over blanks and over ends of lines that go on. -/
theorem reaches_of_measureIndent {col alt col' alt' : Nat} {fixed : Option (Nat × Nat)}
    (h : measureIndent col alt fixed p cs = some (col', alt', q, rest)) : Reaches p cs q rest := by
  fun_induction measureIndent col alt fixed p cs with
  | case1 col alt fixed p cs ih =>
      obtain ⟨taken, rfl, rfl⟩ := ih h
      exact ⟨' ' :: taken, rfl, rfl⟩
  | case2 col alt fixed p cs ih =>
      obtain ⟨taken, rfl, rfl⟩ := ih h
      exact ⟨'\t' :: taken, rfl, rfl⟩
  | case3 col alt fixed p cs ih =>
      obtain ⟨taken, rfl, rfl⟩ := ih h
      exact ⟨'\x0c' :: taken, rfl, rfl⟩
  | case4 => cases h
  | case5 col alt fixed p cs hmore fixed' ih =>
      -- the column of the backslash is lost with its line
      obtain ⟨taken, rfl, rfl⟩ := ih h
      exact ⟨'\\' :: '\n' :: taken, rfl, rfl⟩
  | case6 | case7 | case8 =>
      cases h
      exact ⟨[], rfl, rfl⟩

/-- The tokens for the blocks that end. -/
theorem layout_of_dedentTo {col alt : Nat} {indents indents' : List (Nat × Nat)}
    (h : dedentTo col alt p indents = some (ts, indents')) :
    ∀ t ∈ ts, ∃ kind, t = layoutToken kind p := by
  induction indents generalizing ts with
  | nil => cases h
  | cons indent outer ih =>
      obtain ⟨c, a⟩ := indent
      rw [dedentTo] at h
      split_ifs at h
      · obtain ⟨⟨us, rest⟩, hus, h⟩ := Option.map_eq_some_iff.mp h
        cases h
        exact List.forall_mem_cons.mpr ⟨⟨.dedent, rfl⟩, ih hus⟩
      · cases h
        exact nofun

/-- The tokens for the blocks that an indentation opens or closes. -/
theorem layout_of_indentTo {col alt : Nat} {indents indents' : List (Nat × Nat)}
    (h : indentTo col alt p indents = some (ts, indents')) :
    ∀ t ∈ ts, ∃ kind, t = layoutToken kind p := by
  unfold indentTo at h
  split at h
  · cases h
  · split_ifs at h
    · cases h
      exact List.forall_mem_singleton.mpr ⟨.indent, rfl⟩
    · exact layout_of_dedentTo h

/-- A step at the start of a line. -/
theorem passed_freshLine (h : place.freshLine cs = some (ts, place', rest)) :
    Passed place.pos cs ts place'.pos rest := by
  obtain ⟨⟨col, alt, pos, behind⟩, hmeasure, h⟩ := Option.bind_eq_some_iff.mp h
  obtain ⟨taken, rfl, rfl⟩ := reaches_of_measureIndent hmeasure
  dsimp only at h
  split at h
  · obtain ⟨rfl, rfl, rfl⟩ := eq_of_advance h
    exact passed_nothing taken
  · obtain ⟨rfl, rfl, rfl⟩ := eq_of_advance h
    exact passed_nothing taken
  · split_ifs at h
    · obtain ⟨⟨layout, indents⟩, hlayout, h⟩ := Option.map_eq_some_iff.mp h
      obtain ⟨rfl, rfl, rfl⟩ := eq_of_advance (congrArg some h)
      exact ⟨⟨taken, rfl, rfl⟩,
        inOrder_layout (place.pos.le_advanceAll taken) (layout_of_indentTo hlayout)⟩
    · obtain ⟨rfl, rfl, rfl⟩ := eq_of_advance h
      exact passed_nothing taken

/-- **A STEP OF THE LEXER** goes over a part of the text, with tokens in order. -/
theorem passed_advance (h : place.advance cs = some (ts, place', rest)) :
    Passed place.pos cs ts place'.pos rest := by
  unfold Place.advance at h
  split_ifs at h
  · exact passed_freshLine h
  · exact passed_step h

theorem Passed.trans {more : List Char} (h : Passed p cs ts q rest)
    (h' : Passed q rest us limit more) : Passed p cs (ts ++ us) limit more :=
  ⟨h.place.trans h'.place, h.order.append h'.order⟩

theorem passed_walk {n : Nat} (h : Walk n place cs ts place' rest) :
    Passed place.pos cs ts place'.pos rest := by
  induction h with
  | done => exact passed_nothing []
  | step hstep _ ih => exact (passed_advance hstep).trans ih

end Steps

/-- **ALL TOKENS OF A TEXT ARE IN ORDER**, from its start to its end. -/
theorem inOrder_lexFrom {place : Place} {cs : List Char} {fuel : Nat}
    (h : lexFrom fuel place cs = some ts) : InOrder (place.pos.advanceAll cs) place.pos ts := by
  obtain ⟨n, us, last, hwalk, -, -, rfl⟩ := walk_of_lexFrom h
  obtain ⟨⟨taken, htaken, hlast⟩, horder⟩ := passed_walk hwalk
  rw [htaken, List.append_nil, ← hlast]
  exact horder.append ⟨le_refl _, rfl, le_refl _⟩

end Covenant.Token
