import Covenant.Condition.Splice
import Covenant.Proofs.Text.Bytes
import Covenant.Proofs.Tree.Places
import Covenant.Proofs.Weaving.Outcome
import Mathlib.Data.List.Induction
import Mathlib.Data.List.Infix
import Mathlib.Data.List.Pairwise

/-! # Splicing — edits of a text, in any order

    The splicer goes over the bytes of a text with the edits sorted by their
    starts.  What comes out can be said without bytes, lines and an order of
    the edits: `replaced` walks over the characters once, leaves out those that
    an edit covers, and puts the text of an edit where its span starts.

    * `offset?_advanceAll`: the table of line starts gives the place behind a
      part of the text its number of bytes.
    * A text is `Cut` by edits in reading order into the parts that stay and the
      parts that are replaced; `spliceFrom_of_cut` says what the splicer makes
      of such a text, and `replaced_of_cut` what the walk makes of it.
    * `splice_replaces` is the law for edits that lie in the text and apart from
      each other: splicing gives the walk, in whatever order the edits come, and
      it does not matter whether they are applied at once or one by one from
      the last to the first. -/

namespace Covenant.Condition

open Text Covenant.Tree

/-! ## The walk -/

/-- The text of the edit that starts at a place, if one does. -/
def textAt (edits : List Edit) (p : Pos) : List Char :=
  ((edits.find? fun e => e.span.start = p).map fun e => e.text.toList).getD []

/-- Whether the character behind a place stands in the span of an edit. -/
def covers (edits : List Edit) (p : Pos) : Bool :=
  edits.any fun e => e.span.start ≤ p ∧ p < e.span.stop

/-- What becomes of the text behind a place: a character stays unless it is covered, and the text
    of an edit follows the character in front of its span. -/
def replacedBehind (edits : List Edit) (p : Pos) : List Char → List Char
  | [] => []
  | c :: cs =>
    (if covers edits p then [] else [c]) ++ textAt edits (p.advance c)
      ++ replacedBehind edits (p.advance c) cs

/-- The text with the span of every edit replaced by the text of the edit. -/
def replaced (edits : List Edit) (text : List Char) : List Char :=
  textAt edits .start ++ replacedBehind edits .start text

/-! ## Edits of a text -/

/-- A place of a text is the place behind a part that it starts with.  Lines end at line feeds. -/
def IsPlace (text : List Char) (p : Pos) : Prop :=
  ∃ part, part <+: text ∧ p = .advanceAll .start part

/-- A span of a text goes from one of its places to one that is not in front of it. -/
structure InText (text : List Char) (span : Span) : Prop where
  start : IsPlace text span.start
  stop : IsPlace text span.stop
  ordered : span.start ≤ span.stop

/-- Edits of a text that do not get in each other's way. -/
structure Compatible (source : String) (edits : List Edit) : Prop where
  inText : ∀ e ∈ edits, InText source.toList e.span
  apart : edits.Pairwise fun e e' => e.span.Apart e'.span
  starts : edits.Pairwise fun e e' => e.span.start ≠ e'.span.start

instance (text : List Char) (p : Pos) : Decidable (IsPlace text p) :=
  decidable_of_iff (∃ part ∈ text.inits, p = .advanceAll .start part)
    (exists_congr fun _ => and_congr_left' (List.mem_inits _ _))

instance (text : List Char) (span : Span) : Decidable (InText text span) :=
  decidable_of_iff (IsPlace text span.start ∧ IsPlace text span.stop ∧ span.start ≤ span.stop)
    ⟨fun h => ⟨h.1, h.2.1, h.2.2⟩, fun h => ⟨h.start, h.stop, h.ordered⟩⟩

instance (a b : Span) : Decidable (a.Apart b) :=
  inferInstanceAs (Decidable (a.stop ≤ b.start ∨ b.stop ≤ a.start))

instance (source : String) (edits : List Edit) : Decidable (Compatible source edits) :=
  decidable_of_iff ((∀ e ∈ edits, InText source.toList e.span) ∧
      (edits.Pairwise fun e e' => e.span.Apart e'.span) ∧
      edits.Pairwise fun e e' => e.span.start ≠ e'.span.start)
    ⟨fun h => ⟨h.1, h.2.1, h.2.2⟩, fun h => ⟨h.inText, h.apart, h.starts⟩⟩

/-- The order in which edits are applied. -/
def Edit.Before (e e' : Edit) : Prop := e.span.start < e'.span.start

/-! ## Line starts -/

section LineStarts

/-- The offsets behind the line feeds of some bytes that stand at an offset. -/
def feedsFrom (bytes : List UInt8) (k : Nat) : List Nat :=
  ((bytes.zipIdx k).filter fun p => p.1 = 10).map (·.2 + 1)

theorem lineStarts_eq (bytes : List UInt8) : lineStarts bytes = 0 :: feedsFrom bytes 0 := rfl

theorem feedsFrom_append (xs ys : List UInt8) (k : Nat) :
    feedsFrom (xs ++ ys) k = feedsFrom xs k ++ feedsFrom ys (k + xs.length) := by
  rw [feedsFrom, List.zipIdx_append, List.filter_append, List.map_append]
  rfl

theorem feedsFrom_eq_nil {bytes : List UInt8} (h : 10 ∉ bytes) (k : Nat) :
    feedsFrom bytes k = [] := by
  rw [feedsFrom, List.map_eq_nil_iff, List.filter_eq_nil_iff]
  intro p hp hten
  have hbyte : p.1 ∈ bytes := List.fst_mem_of_mem_zipIdx hp
  rw [decide_eq_true_eq] at hten
  exact h (hten ▸ hbyte)

/-- The line behind a part of a text is the last one that starts in it, and what it has is the
    column. -/
theorem lineStarts_bytesOf (cs : List Char) :
    ∃ front last, lineStarts (bytesOf cs) = front ++ [last] ∧
      (Pos.start.advanceAll cs).line = front.length + 1 ∧
      last + (Pos.start.advanceAll cs).col = (bytesOf cs).length := by
  induction cs using List.reverseRecOn with
  | nil => exact ⟨[], 0, rfl, rfl, rfl⟩
  | append_singleton cs c ih =>
      obtain ⟨front, last, hstarts, hline, hcol⟩ := ih
      have hone : bytesOf [c] = String.utf8EncodeChar c := List.flatMap_singleton _ _
      have hmore : lineStarts (bytesOf cs ++ String.utf8EncodeChar c)
          = front ++ [last] ++ feedsFrom (String.utf8EncodeChar c) (bytesOf cs).length := by
        rw [lineStarts_eq, feedsFrom_append, ← List.cons_append, ← lineStarts_eq, hstarts,
          Nat.zero_add]
      rw [Pos.advanceAll_append, bytesOf_append, hone, List.length_append,
        String.length_utf8EncodeChar]
      show ∃ front' last', _ ∧ ((Pos.start.advanceAll cs).advance c).line = _ ∧
        last' + ((Pos.start.advanceAll cs).advance c).col = _
      unfold Pos.advance
      by_cases hfeed : c = '\n'
      · subst hfeed
        refine ⟨front ++ [last], (bytesOf cs).length + 1, hmore, ?_, rfl⟩
        rw [if_pos rfl, List.length_append, List.length_singleton, hline]
      · rw [if_neg hfeed]
        refine ⟨front, last, ?_, hline, ?_⟩
        · rw [hmore, feedsFrom_eq_nil (ten_not_mem_utf8EncodeChar hfeed), List.append_nil]
        · rw [← hcol]
          exact (Nat.add_assoc _ _ _).symm

/-- **OFFSETS**: the place behind a part of a text is found at the number of its bytes. -/
theorem offset?_advanceAll (cs rest : List Char) :
    offset? (lineStarts (bytesOf (cs ++ rest))) (.advanceAll .start cs)
      = some (bytesOf cs).length := by
  obtain ⟨front, last, hstarts, hline, hcol⟩ := lineStarts_bytesOf cs
  have hall : lineStarts (bytesOf (cs ++ rest))
      = front ++ last :: feedsFrom (bytesOf rest) (bytesOf cs).length := by
    rw [bytesOf_append, lineStarts_eq, feedsFrom_append, ← List.cons_append, ← lineStarts_eq,
      hstarts, Nat.zero_add, List.append_assoc]
    rfl
  rw [offset?, hline, if_neg (Nat.succ_ne_zero _), hall, Nat.add_sub_cancel,
    List.getElem?_append_right (le_refl _), Nat.sub_self, List.getElem?_cons_zero, Option.map_some,
    hcol]

end LineStarts

/-! ## Cut texts -/

/-- `Cut p edits text out`: edits in reading order cut the text behind the place `p` into parts that
    stay and parts that are replaced, and `out` has the texts of the edits in their places. -/
inductive Cut : Pos → List Edit → List Char → List Char → Prop
  | done (p : Pos) (text : List Char) : Cut p [] text text
  | edit {p : Pos} {stays goes text out : List Char} {e : Edit} {es : List Edit}
      (hstart : e.span.start = p.advanceAll stays)
      (hstop : e.span.stop = e.span.start.advanceAll goes) (hrest : Cut e.span.stop es text out) :
      Cut p (e :: es) (stays ++ (goes ++ text)) (stays ++ (e.text.toList ++ out))

section Cuts

variable {p : Pos} {es : List Edit} {text out : List Char}

theorem Cut.le_start (h : Cut p es text out) : ∀ e ∈ es, p ≤ e.span.start := by
  induction h with
  | done => exact fun e he => absurd he List.not_mem_nil
  | @edit p stays goes _ _ e es hstart hstop _ ih =>
      have hp : p ≤ e.span.start := hstart ▸ p.le_advanceAll stays
      intro e' he'
      rcases List.mem_cons.mp he' with rfl | he'
      · exact hp
      · exact (hp.trans (hstop ▸ e.span.start.le_advanceAll goes)).trans (ih e' he')

/-- Edits of a text that come in reading order cut it. -/
theorem exists_cut {before : List Char} {p : Pos} (hp : p = .advanceAll .start before)
    (hes : ∀ e ∈ es, InText (before ++ text) e.span ∧ p ≤ e.span.start)
    (hapart : es.Pairwise fun e e' => e.span.stop ≤ e'.span.start) : ∃ out, Cut p es text out := by
  induction es generalizing before p text with
  | nil => exact ⟨text, .done p text⟩
  | cons e es ih =>
      obtain ⟨hin, hle⟩ := hes e List.mem_cons_self
      obtain ⟨hbehind, hapart⟩ := List.pairwise_cons.mp hapart
      obtain ⟨front, hfront, hstart⟩ := hin.start
      obtain ⟨part, hpart, hstop⟩ := hin.stop
      obtain ⟨stays, rfl⟩ : before <+: front :=
        Pos.isPrefix_of_le (List.prefix_append _ _) hfront (by rw [← hp, ← hstart]; exact hle)
      obtain ⟨goes, rfl⟩ : before ++ stays <+: part :=
        Pos.isPrefix_of_le hfront hpart (by rw [← hstart, ← hstop]; exact hin.ordered)
      obtain ⟨rest, hrest⟩ := hpart
      obtain rfl : text = stays ++ (goes ++ rest) := by
        rw [List.append_assoc, List.append_assoc] at hrest
        exact (List.append_cancel_left hrest).symm
      have hwhole : before ++ (stays ++ (goes ++ rest)) = before ++ stays ++ goes ++ rest := by
        simp only [List.append_assoc]
      have hrests : ∀ e' ∈ es, InText (before ++ stays ++ goes ++ rest) e'.span ∧
          e.span.stop ≤ e'.span.start := by
        intro e' he'
        rw [← hwhole]
        exact ⟨(hes e' (List.mem_cons_of_mem e he')).1, hbehind e' he'⟩
      obtain ⟨out, hout⟩ := ih hstop hrests hapart
      refine ⟨_, .edit ?_ ?_ hout⟩
      · rw [hstart, hp, Pos.advanceAll_append]
      · rw [hstop, hstart, ← Pos.advanceAll_append]

end Cuts

/-! ## Bytes of cut texts -/

theorem slice_bytesOf (xs ys zs : List Char) :
    slice (bytesOf (xs ++ ys ++ zs)) (bytesOf xs).length (bytesOf (xs ++ ys)).length
      = bytesOf ys := by
  rw [slice, List.append_assoc, bytesOf_append xs (ys ++ zs), bytesOf_append xs ys, List.drop_left,
    List.length_append, Nat.add_sub_cancel_left, bytesOf_append ys zs, List.take_left]

/-- **THE SPLICER** gives the bytes of what a cut text becomes. -/
theorem spliceFrom_of_cut {p : Pos} {es : List Edit} {text out before : List Char}
    (h : Cut p es text out) (hp : p = .advanceAll .start before) :
    spliceFrom (bytesOf (before ++ text)) (lineStarts (bytesOf (before ++ text)))
      (bytesOf before).length es = .ok (bytesOf out) := by
  induction h generalizing before with
  | done p text => rw [spliceFrom, bytesOf_append, List.drop_left]
  | @edit p stays goes text out e es hstart hstop _ ih =>
      have hfront : e.span.start = .advanceAll .start (before ++ stays) := by
        rw [hstart, hp, Pos.advanceAll_append]
      have hbehind : e.span.stop = .advanceAll .start (before ++ stays ++ goes) := by
        rw [hstop, hfront, ← Pos.advanceAll_append]
      have hwhole : before ++ (stays ++ (goes ++ text)) = before ++ stays ++ goes ++ text := by
        simp only [List.append_assoc]
      have hrest := ih hbehind
      have hfound := offset?_advanceAll (before ++ stays) (goes ++ text)
      rw [← List.append_assoc, ← hfront] at hfound
      rw [hwhole, spliceFrom, hfound, hbehind, offset?_advanceAll]
      dsimp only
      rw [hrest, List.append_assoc (before ++ stays), slice_bytesOf, toList_toUTF8, bytesOf_append,
        bytesOf_append, ← List.append_assoc]
      rfl

/-! ## Sorting -/

theorem perm_insertEdit (e : Edit) (es : List Edit) : (insertEdit e es).Perm (e :: es) := by
  induction es with
  | nil => exact .refl _
  | cons x xs ih =>
      unfold insertEdit
      split
      · exact .refl _
      · exact (ih.cons x).trans (.swap e x xs)

/-- Sorting keeps the edits. -/
theorem perm_sortEdits (es : List Edit) : (sortEdits es).Perm es := by
  induction es using List.reverseRecOn with
  | nil => exact .refl _
  | append_singleton es e ih =>
      unfold sortEdits at ih ⊢
      rw [List.foldl_append]
      exact (perm_insertEdit e _).trans ((ih.cons e).trans (List.perm_append_singleton e es).symm)

theorem pairwise_insertEdit {e : Edit} {es : List Edit} (h : es.Pairwise Edit.Before)
    (hne : ∀ x ∈ es, x.span.start ≠ e.span.start) : (insertEdit e es).Pairwise Edit.Before := by
  induction es with
  | nil => exact List.pairwise_singleton _ _
  | cons x xs ih =>
      obtain ⟨hx, hxs⟩ := List.pairwise_cons.mp h
      unfold insertEdit
      by_cases hbefore : e.span.start.before x.span.start = true
      · rw [if_pos hbefore]
        have hex : e.Before x := Pos.before_iff_lt.mp hbefore
        refine List.pairwise_cons.mpr ⟨?_, h⟩
        intro y hy
        rcases List.mem_cons.mp hy with rfl | hy
        · exact hex
        · exact hex.trans (hx y hy)
      · rw [if_neg hbefore]
        have hxe : x.Before e :=
          lt_of_le_of_ne (not_lt.mp fun hlt => hbefore (Pos.before_iff_lt.mpr hlt))
            (hne x List.mem_cons_self)
        refine List.pairwise_cons.mpr ⟨?_, ih hxs fun y hy => hne y (List.mem_cons_of_mem x hy)⟩
        intro y hy
        rcases List.mem_cons.mp ((perm_insertEdit e xs).mem_iff.mp hy) with rfl | hy
        · exact hxe
        · exact hx y hy

/-- Edits that start at distinct places come out in reading order. -/
theorem pairwise_sortEdits {es : List Edit}
    (h : es.Pairwise fun e e' => e.span.start ≠ e'.span.start) :
    (sortEdits es).Pairwise Edit.Before := by
  induction es using List.reverseRecOn with
  | nil => exact .nil
  | append_singleton es e ih =>
      obtain ⟨hes, -, hlast⟩ := List.pairwise_append.mp h
      have hkept := perm_sortEdits es
      have hsorted := ih hes
      unfold sortEdits at hkept hsorted ⊢
      rw [List.foldl_append]
      refine pairwise_insertEdit hsorted fun x hx => ?_
      exact hlast x (hkept.mem_iff.mp hx) e (List.mem_singleton_self e)

/-- There is only one way to put edits in reading order. -/
theorem eq_sortEdits {es sorted : List Edit} (hperm : sorted.Perm es)
    (h : sorted.Pairwise Edit.Before) : sorted = sortEdits es := by
  have hstarts : es.Pairwise fun e e' => e.span.start ≠ e'.span.start :=
    (h.imp fun hlt => ne_of_lt hlt).perm hperm Ne.symm
  refine List.Perm.eq_of_pairwise ?_ h (pairwise_sortEdits hstarts)
    (hperm.trans (perm_sortEdits es).symm)
  intro a b _ _ hab hba
  exact absurd hab (lt_asymm hba)

/-! ## Compatible edits -/

section Compatible

variable {source : String} {edits : List Edit}

/-- Edits that can be applied to a text can be applied in any order. -/
theorem Compatible.perm {edits' : List Edit} (h : Compatible source edits)
    (hperm : edits'.Perm edits) : Compatible source edits' where
  inText e he := h.inText e (hperm.mem_iff.mp he)
  apart := h.apart.perm hperm.symm Span.Apart.symm
  starts := h.starts.perm hperm.symm Ne.symm

/-- Compatible edits cut their text. -/
theorem Compatible.exists_cut (h : Compatible source edits) :
    ∃ out, Cut .start (sortEdits edits) source.toList out := by
  have hsorted := h.perm (perm_sortEdits edits)
  refine @Condition.exists_cut _ _ [] _ rfl (fun e he => ⟨hsorted.inText e he, ?_⟩) ?_
  · obtain ⟨part, -, hpart⟩ := (hsorted.inText e he).start
    rw [hpart]
    exact Pos.le_advanceAll _ part
  · have hboth := (pairwise_sortEdits h.starts).and hsorted.apart
    refine hboth.imp_of_mem fun {e e'} _ he' hpair => ?_
    obtain ⟨hbefore, hle | hle⟩ := hpair
    · exact hle
    · exact absurd hbefore (not_lt_of_ge ((hsorted.inText e' he').ordered.trans hle))

theorem splice_of_cut {out : List Char} (h : Cut .start (sortEdits edits) source.toList out) :
    splice source edits = .ok (String.ofList out) := by
  have hbytes := @spliceFrom_of_cut _ _ _ _ [] h rfl
  rw [splice, toList_toUTF8]
  refine bind_eq_ok.mpr ⟨bytesOf out, hbytes, ?_⟩
  rw [fromUTF8?_bytesOf]

end Compatible

/-! ## The walk over a cut text -/

-- its equations are made here, once for the proofs below that rewrite with it
attribute [local simp] replacedBehind

section Walk

variable {es : List Edit} {p q : Pos}

theorem textAt_eq_nil (h : ∀ e ∈ es, e.span.start ≠ q) : textAt es q = [] := by
  have hnone : (es.find? fun e => e.span.start = q) = none := by
    rw [List.find?_eq_none]
    intro e he
    simpa using h e he
  rw [textAt, hnone]
  rfl

/-- The edit that starts at a place is found there. -/
theorem textAt_of_mem (hstarts : es.Pairwise fun e e' => e.span.start ≠ e'.span.start) {e : Edit}
    (he : e ∈ es) : textAt es e.span.start = e.text.toList := by
  cases hfound : es.find? fun e' => e'.span.start = e.span.start with
  | none =>
      have hnot := List.find?_eq_none.mp hfound e he
      simp at hnot
  | some e' =>
      have hsame : e'.span.start = e.span.start := by simpa using List.find?_some hfound
      have heq : e' = e := by
        by_contra hne
        have : Std.Symm fun e e' : Edit => e.span.start ≠ e'.span.start := ⟨fun _ _ => Ne.symm⟩
        exact hstarts.forall (List.mem_of_find?_eq_some hfound) he hne hsame
      rw [textAt, hfound, heq]
      rfl

theorem textAt_cons_of_ne {e : Edit} (h : e.span.start ≠ q) : textAt (e :: es) q = textAt es q := by
  rw [textAt, List.find?_cons_of_neg (by simpa using h)]
  rfl

theorem covers_iff : covers es q = true ↔ ∃ e ∈ es, e.span.start ≤ q ∧ q < e.span.stop := by
  simp [covers]

theorem covers_eq_false (h : ∀ e ∈ es, q < e.span.start) : covers es q = false := by
  rw [← Bool.not_eq_true, covers_iff]
  rintro ⟨e, he, hle, -⟩
  exact absurd (h e he) (not_lt_of_ge hle)

theorem covers_cons_of_stop_le {e : Edit} (h : e.span.stop ≤ q) :
    covers (e :: es) q = covers es q := by
  rw [Bool.eq_iff_iff, covers_iff, covers_iff, List.exists_mem_cons_iff]
  exact or_iff_right fun hin => absurd hin.2 (not_lt_of_ge h)

/-- The walk does not depend on the order of edits that start at distinct places. -/
theorem replaced_perm {es' : List Edit} (hperm : es'.Perm es)
    (hstarts : es.Pairwise fun e e' => e.span.start ≠ e'.span.start) :
    textAt es' = textAt es ∧ covers es' = covers es := by
  constructor
  · funext q
    by_cases hsome : ∃ e ∈ es, e.span.start = q
    · obtain ⟨e, he, rfl⟩ := hsome
      rw [textAt_of_mem hstarts he,
        textAt_of_mem (hstarts.perm hperm.symm Ne.symm) (hperm.mem_iff.mpr he)]
    · have hnone : ∀ e ∈ es, e.span.start ≠ q := fun e he heq => hsome ⟨e, he, heq⟩
      rw [textAt_eq_nil hnone, textAt_eq_nil fun e he => hnone e (hperm.mem_iff.mp he)]
  · funext q
    rw [Bool.eq_iff_iff, covers_iff, covers_iff]
    exact exists_congr fun e => and_congr_left' hperm.mem_iff

theorem replacedBehind_append (edits : List Edit) (p : Pos) (xs ys : List Char) :
    replacedBehind edits p (xs ++ ys)
      = replacedBehind edits p xs ++ replacedBehind edits (p.advanceAll xs) ys := by
  induction xs generalizing p with
  | nil => rfl
  | cons c cs ih =>
      rw [List.cons_append, replacedBehind, ih, replacedBehind]
      simp only [List.append_assoc]
      rfl

/-- A stretch in which no edit starts stays as a whole, or goes as a whole; then comes the text of
    the edit that starts behind it. -/
theorem replacedBehind_stretch {edits : List Edit} {stretch : List Char} (stays : Bool)
    (hcovers : ∀ q, p ≤ q → q < p.advanceAll stretch → covers edits q = !stays)
    (htext : ∀ q, p < q → q < p.advanceAll stretch → textAt edits q = []) :
    replacedBehind edits p stretch = (if stays then stretch else [])
      ++ if stretch = [] then [] else textAt edits (p.advanceAll stretch) := by
  induction stretch generalizing p with
  | nil => cases stays <;> rfl
  | cons c cs ih =>
      have hhere : covers edits p = !stays :=
        hcovers p (le_refl p) (p.lt_advanceAll (List.cons_ne_nil c cs))
      by_cases hcs : cs = []
      · subst hcs
        rw [replacedBehind, hhere, if_neg (List.cons_ne_nil c [])]
        cases stays
        · exact List.append_nil _
        · exact List.append_nil _
      · have hnext : textAt edits (p.advance c) = [] :=
          htext (p.advance c) (p.lt_advance c) ((p.advance c).lt_advanceAll hcs)
        have hrest := @ih (p.advance c)
          (fun q hq hstop => hcovers q ((p.lt_advance c).le.trans hq) hstop)
          (fun q hq hstop => htext q ((p.lt_advance c).trans hq) hstop)
        rw [replacedBehind, hhere, hnext, hrest, if_neg hcs, if_neg (List.cons_ne_nil c cs)]
        cases stays <;> rfl

/-- **THE WALK** over a cut text replaces its parts; `edits` may have more edits in front. -/
theorem replaced_of_cut {edits : List Edit} {text out : List Char} (h : Cut p es text out)
    (hsorted : es.Pairwise Edit.Before) (htext : ∀ q, p < q → textAt edits q = textAt es q)
    (hcovers : ∀ q, p ≤ q → covers edits q = covers es q) :
    textAt es p ++ replacedBehind edits p text = out := by
  induction h with
  | done p text =>
      rw [replacedBehind_stretch true (fun q hq _ => hcovers q hq) (fun q hq _ => htext q hq)]
      by_cases hnil : text = []
      · rw [hnil]
        rfl
      · rw [if_neg hnil, htext _ (p.lt_advanceAll hnil)]
        exact List.append_nil text
  | @edit p stays goes text out e es hstart hstop hrest ih =>
      obtain ⟨hbehind, hsorted⟩ := List.pairwise_cons.mp hsorted
      have hstarts : (e :: es).Pairwise fun e e' => e.span.start ≠ e'.span.start :=
        List.pairwise_cons.mpr ⟨fun e' he' => ne_of_lt (hbehind e' he'),
          hsorted.imp fun hlt => ne_of_lt hlt⟩
      have hle : p ≤ e.span.start := hstart ▸ p.le_advanceAll stays
      have hordered : e.span.start ≤ e.span.stop := hstop ▸ e.span.start.le_advanceAll goes
      have hfollows : ∀ e' ∈ es, e.span.stop ≤ e'.span.start := hrest.le_start
      have hlater : ∀ e' ∈ e :: es, e.span.start ≤ e'.span.start := by
        intro e' he'
        rcases List.mem_cons.mp he' with rfl | he'
        · exact le_refl _
        · exact (hbehind e' he').le
      have hhere : textAt (e :: es) e.span.start = e.text.toList :=
        textAt_of_mem hstarts List.mem_cons_self
      -- up to the span the text stays
      have hstays :
          textAt (e :: es) p ++ replacedBehind edits p stays = stays ++ e.text.toList := by
        rw [replacedBehind_stretch true
          (fun q hq hlt => (hcovers q hq).trans (covers_eq_false fun e' he' =>
            (hstart ▸ hlt).trans_le (hlater e' he')))
          (fun q hq hlt => (htext q hq).trans (textAt_eq_nil fun e' he' heq =>
            absurd (hlater e' he') (not_le_of_gt (heq ▸ hstart ▸ hlt)))), ← hstart]
        by_cases hnil : stays = []
        · have hp : e.span.start = p := by rw [hstart, hnil]; rfl
          rw [if_pos hnil, hnil, ← hp, hhere]
          simp
        · have hlt : p < e.span.start := hstart ▸ p.lt_advanceAll hnil
          rw [if_neg hnil, htext _ hlt, hhere, textAt_eq_nil fun e' he' heq =>
            absurd (hlater e' he') (not_le_of_gt (heq ▸ hlt))]
          rfl
      -- the span goes, and the next edit may start right behind it
      have hgoes : replacedBehind edits e.span.start goes = textAt es e.span.stop := by
        rw [replacedBehind_stretch false
          (fun q hq hlt => (hcovers q (hle.trans hq)).trans
            (covers_iff.2 ⟨e, List.mem_cons_self, hq, hstop ▸ hlt⟩))
          (fun q hq hlt => by
            rw [htext q (hle.trans_lt hq), textAt_cons_of_ne hq.ne]
            exact textAt_eq_nil fun e' he' heq =>
              absurd (hfollows e' he') (not_le_of_gt (heq ▸ hstop ▸ hlt))), ← hstop]
        by_cases hnil : goes = []
        · have hsame : e.span.stop = e.span.start := by rw [hstop, hnil]; rfl
          rw [if_pos hnil, hsame, textAt_eq_nil fun e' he' => (hbehind e' he').ne']
          rfl
        · have hlt : e.span.start < e.span.stop := hstop ▸ e.span.start.lt_advanceAll hnil
          rw [if_neg hnil, htext _ (hle.trans_lt hlt), textAt_cons_of_ne hlt.ne]
          rfl
      have hout := ih hsorted
        (fun q hq => by
          rw [htext q ((hle.trans hordered).trans_lt hq),
            textAt_cons_of_ne (hordered.trans_lt hq).ne])
        (fun q hq => by
          rw [hcovers q ((hle.trans hordered).trans hq), covers_cons_of_stop_le hq])
      rw [replacedBehind_append, ← hstart, replacedBehind_append, ← hstop, ← List.append_assoc,
        hstays, hgoes, hout, List.append_assoc]

end Walk

/-! ## The law -/

section Law

variable {source : String} {edits : List Edit}

/-- Applying the edits of a cut text one by one, the last one first, gives what cutting gives: what
    follows the place of an edit has been changed before, what is in front of it has not. -/
theorem foldrM_of_cut {p : Pos} {es : List Edit} {text out before : List Char}
    (h : Cut p es text out) (hp : p = .advanceAll .start before) :
    es.foldrM (fun e t => splice t [e]) (String.ofList (before ++ text))
      = .ok (String.ofList (before ++ out)) := by
  induction h generalizing before with
  | done => rfl
  | @edit p stays goes text out e es hstart hstop _ ih =>
      have hfront : e.span.start = .advanceAll .start (before ++ stays) := by
        rw [hstart, hp, Pos.advanceAll_append]
      have hbehind : e.span.stop = .advanceAll .start (before ++ stays ++ goes) := by
        rw [hstop, hfront, ← Pos.advanceAll_append]
      have hlater := ih hbehind
      have hcut : Cut .start [e] (before ++ stays ++ (goes ++ out))
          (before ++ stays ++ (e.text.toList ++ out)) := .edit hfront hstop (.done _ _)
      have hlast : splice (String.ofList (before ++ stays ++ goes ++ out)) [e]
          = .ok (String.ofList (before ++ stays ++ (e.text.toList ++ out))) := by
        refine splice_of_cut ?_
        rw [String.toList_ofList, List.append_assoc]
        exact hcut
      rw [List.foldrM_cons, ← List.append_assoc before, ← List.append_assoc (before ++ stays),
        ← List.append_assoc before]
      exact bind_eq_ok.mpr ⟨_, hlater, hlast⟩

/-- **SPLICING REPLACES** the spans of edits that lie in the text, apart from each other, with
    distinct starts: it succeeds, with the text that one walk over the source gives, whatever the
    order of the edits; and applying them one by one, from the last one to the first, gives the
    same. -/
theorem splice_replaces (h : Compatible source edits) :
    splice source edits = .ok (String.ofList (replaced edits source.toList)) ∧
    (∀ edits', edits'.Perm edits → splice source edits' = splice source edits) ∧
    ∀ sorted : List Edit, sorted.Perm edits → sorted.Pairwise Edit.Before →
      sorted.foldrM (fun e text => splice text [e]) source = splice source edits := by
  obtain ⟨out, hcut⟩ := h.exists_cut
  have hspliced := splice_of_cut hcut
  refine ⟨?_, ?_, ?_⟩
  · obtain ⟨htext, hcovers⟩ := replaced_perm (perm_sortEdits edits) h.starts
    have hwalk := replaced_of_cut hcut (pairwise_sortEdits h.starts)
      (fun q _ => (congrFun htext q).symm) (fun q _ => (congrFun hcovers q).symm)
    rw [htext] at hwalk
    rw [hspliced, replaced, hwalk]
  · intro edits' hperm
    have hsame : sortEdits edits' = sortEdits edits :=
      eq_sortEdits ((perm_sortEdits edits').trans hperm) (pairwise_sortEdits (h.perm hperm).starts)
    rw [splice, hsame, ← splice]
  · intro sorted hperm hsorted
    rw [eq_sortEdits hperm hsorted, hspliced]
    have hfold := @foldrM_of_cut _ _ _ _ [] hcut rfl
    rw [List.nil_append, List.nil_append, String.ofList_toList] at hfold
    exact hfold

end Law

/-- Two edits of a text with longer characters, the later one first and over the end of a line. -/
def accents : List Edit := [⟨⟨⟨1, 6⟩, ⟨2, 5⟩⟩, "ñ"⟩, ⟨⟨⟨1, 0⟩, ⟨1, 2⟩⟩, "self.é"⟩]

/-- The edits are put in order, and the characters between them stay. -/
theorem splice_replaces_accents : Compatible "é < 3\n+ ü or n" accents ∧
    splice "é < 3\n+ ü or n" accents = .ok "self.é < 3ñor n" ∧
    splice "é < 3\n+ ü or n" accents.reverse = .ok "self.é < 3ñor n" := by
  have hcompatible : Compatible "é < 3\n+ ü or n" accents := by decide +kernel
  have hreplaced : replaced accents "é < 3\n+ ü or n".toList = "self.é < 3ñor n".toList := by
    decide +kernel
  obtain ⟨hspliced, horder, -⟩ := splice_replaces hcompatible
  rw [hreplaced, String.ofList_toList] at hspliced
  exact ⟨hcompatible, hspliced, (horder _ accents.reverse_perm).trans hspliced⟩

end Covenant.Condition
