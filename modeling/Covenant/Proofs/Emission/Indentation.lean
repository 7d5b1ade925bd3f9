import Covenant.Proofs.Text.Quoted
import Covenant.Proofs.Token.Blocks
import Covenant.Wrapper.Emission

/-! # Indentation — lines that are moved to the right

    Indenting a text cuts it at every boundary between lines that there is.
    Where the lines themselves hold none, it puts four blanks in front of each
    of them that has more than blanks, and nothing else
    (`toList_indentBlock`). -/

namespace Covenant.Wrapper

open Text Token

variable {line rest : List Char} {lines : List (List Char)}

/-! ## Cutting -/

/-- Lines without boundaries in them. -/
def Flat (lines : List (List Char)) : Prop := ∀ line ∈ lines, ∀ c ∈ line, IsFlat c

theorem Flat.of_cons (h : Flat (line :: lines)) : Flat lines := fun l hl =>
  h l (List.mem_cons_of_mem line hl)

/-- Lines, one below the other. -/
def stacked (lines : List (List Char)) : List Char := ['\n'].intercalate lines

theorem cutLines_step {c : Char} (hc : isLineBoundary c = false) (taken rest : List Char) :
    cutLines isLineBoundary taken (c :: rest) = cutLines isLineBoundary (c :: taken) rest := by
  have hreturn : c ≠ '\r' := by
    rintro rfl
    exact absurd hc (by decide)
  rw [cutLines.eq_def]
  split
  · rename_i heq
    exact nomatch heq
  · rename_i heq
    exact nomatch heq
  · rename_i heq
    exact absurd (List.cons.inj heq).1 hreturn
  · rename_i heq
    obtain ⟨rfl, rfl⟩ := List.cons.inj heq
    rw [hc, if_neg Bool.false_ne_true]

theorem cutLines_line (h : ∀ c ∈ line, IsFlat c) (taken rest : List Char) :
    cutLines isLineBoundary taken (line ++ rest)
      = cutLines isLineBoundary (line.reverse ++ taken) rest := by
  induction line generalizing taken with
  | nil => rfl
  | cons c line ih =>
      rw [List.forall_mem_cons] at h
      rw [List.cons_append, cutLines_step h.1.1, ih h.2, List.reverse_cons, List.append_assoc]
      rfl

theorem cutLines_newline (taken rest : List Char) :
    cutLines isLineBoundary taken ('\n' :: rest)
      = ('\n' :: taken).reverse :: cutLines isLineBoundary [] rest := by
  rw [cutLines.eq_def]
  split
  · rename_i heq
    exact nomatch heq
  · rename_i heq
    exact nomatch heq
  · rename_i heq
    exact absurd (List.cons.inj heq).1 (by decide)
  · rename_i heq
    obtain ⟨rfl, rfl⟩ := List.cons.inj heq
    exact if_pos (by decide)

theorem layoutLines_cons (h : ∀ c ∈ line, IsFlat c) (rest : List Char) :
    layoutLines (line ++ '\n' :: rest) = (line ++ ['\n']) :: layoutLines rest := by
  rw [layoutLines, cutLines_line h, List.append_nil]
  rw [cutLines_newline, List.reverse_cons, List.reverse_reverse]
  rfl

theorem layoutLines_last (h : ∀ c ∈ line, IsFlat c) :
    layoutLines line = if line = [] then [] else [line] := by
  have hcut := cutLines_line h [] []
  rw [List.append_nil, List.append_nil] at hcut
  rw [layoutLines, hcut]
  split_ifs with hline
  · subst hline
    rfl
  · have hne : line.reverse ≠ [] := fun h => hline (List.reverse_eq_nil_iff.mp h)
    obtain ⟨c, more, hreverse⟩ := List.exists_cons_of_ne_nil hne
    rw [hreverse]
    show [(c :: more).reverse] = [line]
    rw [← hreverse, List.reverse_reverse]

/-! ## Indenting -/

/-- A line with four blanks in front of it, if it has more than blanks. -/
def indented (line : List Char) : List Char :=
  if line.all isBlank then line else ' ' :: ' ' :: ' ' :: ' ' :: line

theorem indented_newline (line : List Char) :
    (if (line ++ ['\n']).all isBlank then line ++ ['\n']
      else ' ' :: ' ' :: ' ' :: ' ' :: (line ++ ['\n'])) = indented line ++ ['\n'] := by
  have hall : (line ++ ['\n']).all isBlank = line.all isBlank := by
    rw [List.all_append]
    exact Bool.and_true _
  rw [hall, indented]
  split_ifs <;> rfl

/-- **INDENTING** flat lines moves each of them that has more than blanks. -/
theorem toList_indentBlock {text : String} (h : text.toList = stacked lines) (hflat : Flat lines) :
    (indentBlock text).toList = stacked (lines.map indented) := by
  rw [indentBlock, String.toList_ofList, h, stacked, stacked]
  clear h
  induction lines with
  | nil => rfl
  | cons line lines ih =>
      have hline : ∀ c ∈ line, IsFlat c := hflat line List.mem_cons_self
      cases lines with
      | nil =>
          rw [List.map_singleton, List.intercalate_singleton, List.intercalate_singleton,
            layoutLines_last hline]
          split_ifs with hempty
          · subst hempty
            rfl
          · exact List.append_nil _
      | cons next lines =>
          rw [List.map_cons, List.map_cons, List.intercalate_cons_cons,
            List.intercalate_cons_cons, List.append_assoc, List.singleton_append,
            layoutLines_cons hline, List.flatMap_cons, ih hflat.of_cons, List.map_cons,
            indented_newline, List.append_assoc]

/-! ## Texts of lines -/

/-- A text that consists of lines, at least of one. -/
def LinesOf (text : String) (lines : List (List Char)) : Prop :=
  lines ≠ [] ∧ text.toList = stacked lines

theorem linesOf_line (text : String) : LinesOf text [text.toList] :=
  ⟨List.cons_ne_nil _ _, (List.intercalate_singleton ..).symm⟩

theorem forall₂_linesOf (texts : List String) :
    List.Forall₂ LinesOf texts (texts.map ([·.toList])) := by
  induction texts with
  | nil => exact .nil
  | cons text texts ih => exact .cons (linesOf_line text) ih

theorem stacked_append (h : lines ≠ []) (more : List (List Char)) (hmore : more ≠ []) :
    stacked (lines ++ more) = stacked lines ++ '\n' :: stacked more := by
  obtain ⟨next, more, rfl⟩ := List.exists_cons_of_ne_nil hmore
  induction lines with
  | nil => exact absurd rfl h
  | cons line lines ih =>
      cases lines with
      | nil =>
          rw [List.singleton_append, stacked, List.intercalate_cons_cons, stacked,
            List.intercalate_singleton, List.append_assoc]
          rfl
      | cons line' lines =>
          have ih := ih (List.cons_ne_nil _ _)
          rw [List.cons_append] at ih
          rw [List.cons_append, List.cons_append, stacked, List.intercalate_cons_cons, stacked,
            List.intercalate_cons_cons, List.append_assoc _ _ ('\n' :: _)]
          exact congrArg (line ++ ['\n'] ++ ·) ih

/-- **TEXTS** below each other consist of all their lines. -/
theorem linesOf_intercalate {texts : List String} {lss : List (List (List Char))} (hne : texts ≠ [])
    (h : List.Forall₂ LinesOf texts lss) : LinesOf ("\n".intercalate texts) lss.flatten := by
  rw [LinesOf, String.toList_intercalate]
  induction h with
  | nil => exact absurd rfl hne
  | cons hone hmore ih =>
      rename_i text lines texts lss
      obtain ⟨hlines, htext⟩ := hone
      cases hmore with
      | nil =>
          rw [List.map_singleton, List.intercalate_singleton, List.flatten_singleton]
          exact ⟨hlines, htext⟩
      | cons hnext hmore =>
          obtain ⟨hrest, hstacked⟩ := ih (List.cons_ne_nil _ _)
          refine ⟨List.append_ne_nil_of_left_ne_nil hlines _, ?_⟩
          rw [List.map_cons, List.map_cons, List.intercalate_cons_cons, List.flatten_cons,
            stacked_append hlines _ hrest, ← htext, ← hstacked, List.append_assoc]
          rfl

/-- Texts of one line each. -/
theorem linesOf_texts {texts : List String} (hne : texts ≠ []) :
    LinesOf ("\n".intercalate texts) (texts.map String.toList) := by
  have hlines := linesOf_intercalate hne (forall₂_linesOf texts)
  rwa [← List.flatMap_def, ← List.map_eq_flatMap] at hlines

theorem LinesOf.indentBlock {text : String} (h : LinesOf text lines) (hflat : Flat lines) :
    LinesOf (indentBlock text) (lines.map indented) :=
  ⟨fun hnil => h.1 (List.map_eq_nil_iff.mp hnil), toList_indentBlock h.2 hflat⟩

/-! ## Lines in blocks -/

/-- A line that is moved some blocks deep. -/
def moved (k : Nat) (line : List Char) : List Char :=
  if line.all isBlank then line else margin k ++ line

/-- Lines, each with its end. -/
def ended (lines : List (List Char)) : List Char := lines.flatMap (· ++ ['\n'])

theorem moved_zero (line : List Char) : moved 0 line = line := by
  rw [moved]
  split_ifs <;> rfl

theorem moved_indented (k : Nat) (line : List Char) : moved k (indented line) = moved (k + 1) line := by
  rw [indented]
  split_ifs with hblank
  · rw [moved, moved, if_pos hblank, if_pos hblank]
  · have hmore : ¬ (' ' :: ' ' :: ' ' :: ' ' :: line).all isBlank = true := fun h =>
      hblank (List.all_eq_true.mpr fun c hc => List.all_eq_true.mp h c
        (List.mem_cons_of_mem _ (List.mem_cons_of_mem _ (List.mem_cons_of_mem _
          (List.mem_cons_of_mem _ hc)))))
    have hmargin : margin (k + 1) = margin k ++ [' ', ' ', ' ', ' '] := by
      rw [margin, margin, Nat.mul_succ, ← List.replicate_append_replicate]
      rfl
    rw [moved, moved, if_neg hmore, if_neg hblank, hmargin, List.append_assoc]
    rfl

theorem ended_append (lines more : List (List Char)) :
    ended (lines ++ more) = ended lines ++ ended more := List.flatMap_append

theorem stacked_append_newline (h : lines ≠ []) : stacked lines ++ ['\n'] = ended lines := by
  induction lines with
  | nil => exact absurd rfl h
  | cons line lines ih =>
      cases lines with
      | nil =>
          rw [stacked, List.intercalate_singleton, ended, List.flatMap_singleton]
      | cons next lines =>
          rw [stacked, List.intercalate_cons_cons, List.append_assoc]
          exact congrArg (line ++ ['\n'] ++ ·) (ih (List.cons_ne_nil _ _))

/-- Lines that, wherever they stand, have these faces, blocks of some depth included. -/
def Sits (depth : Nat) (lines : List (List Char)) (fs : List Face) : Prop :=
  ∀ ⦃k cs gs⦄, k + depth < maxIndents → Laid k cs gs →
    Laid k (ended (lines.map (moved k)) ++ cs) (fs ++ gs)

variable {n : Nat} {fs gs hs : List Face} {head : List Char} {more : List (List Char)}

theorem sits_nil : Sits n [] [] := fun _ _ _ _ h => h

theorem sits_gap : Sits n [[]] [] := fun _ _ _ _ h => .gap h

theorem Sits.append (h : Sits n lines fs) (h' : Sits n more gs) :
    Sits n (lines ++ more) (fs ++ gs) := fun k cs hs hk hlaid => by
  rw [List.map_append, ended_append, List.append_assoc, List.append_assoc]
  exact h hk (h' hk hlaid)

theorem Sits.mono {m : Nat} (h : Sits n lines fs) (hle : n ≤ m) : Sits m lines fs :=
  fun _ _ _ hk hlaid => h (Nat.lt_of_le_of_lt (Nat.add_le_add_left hle _) hk) hlaid

theorem sits_line (h : LineText line fs) (hblank : line.all isBlank = false) :
    Sits n [line] (fs ++ [lineEnd]) := fun k cs gs _ hlaid => by
  have hmoved : moved k line = margin k ++ line := if_neg (Bool.not_eq_true _ ▸ hblank)
  have hline : Laid k (margin k ++ line ++ '\n' :: cs) (fs ++ lineEnd :: gs) := .line h hlaid
  have hcs : ended ([line].map (moved k)) ++ cs = margin k ++ line ++ '\n' :: cs := by
    rw [List.map_singleton, hmoved, ended, List.flatMap_singleton, List.append_assoc]
    rfl
  rw [hcs, List.append_assoc fs]
  exact hline

/-- A line and the block below it. -/
theorem Sits.block (h : Sits n lines fs) (hfs : fs ≠ []) (hhead : LineText head hs)
    (hblank : head.all isBlank = false) :
    Sits (n + 1) (head :: lines.map indented)
      (hs ++ lineEnd :: blockStart :: (fs ++ [blockEnd])) := fun k cs gs hk hlaid => by
  have hmoved : moved k head = margin k ++ head := if_neg (Bool.not_eq_true _ ▸ hblank)
  have hlines : (lines.map indented).map (moved k) = lines.map (moved (k + 1)) := by
    rw [List.map_map]
    exact List.map_congr_left fun line _ => moved_indented k line
  have hbody : Laid (k + 1) (ended (lines.map (moved (k + 1)))) fs := by
    have h := h (k := k + 1) (by omega) .done
    rwa [List.append_nil, List.append_nil] at h
  have hblock := Laid.block hhead (by omega) hbody hfs hlaid
  have hcs : ended ((head :: lines.map indented).map (moved k)) ++ cs
      = margin k ++ head ++ '\n' :: (ended (lines.map (moved (k + 1))) ++ cs) := by
    rw [List.map_cons, hmoved, hlines, ended, List.flatMap_cons, List.append_assoc,
      List.append_assoc]
    rfl
  have hfaces : hs ++ lineEnd :: blockStart :: (fs ++ [blockEnd]) ++ gs
      = hs ++ lineEnd :: blockStart :: (fs ++ blockEnd :: gs) := by
    simp only [List.append_assoc, List.cons_append, List.nil_append]
  rw [hcs, hfaces]
  exact hblock

/-- Lines that are not indented are laid out as they stand. -/
theorem Sits.laid (h : Sits n lines fs) (hn : n < maxIndents) : Laid 0 (ended lines) fs := by
  have h := h (k := 0) (by omega) .done
  rwa [List.append_nil, List.append_nil, List.map_congr_left fun line _ => moved_zero line,
    List.map_id'] at h

end Covenant.Wrapper
