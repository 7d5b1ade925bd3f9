import Covenant.Proofs.Grammar.Reading
import Covenant.Proofs.Token.Order
import Covenant.Proofs.Tree.Nesting

/-! # Between two cursors — what has been read, and where

    A reader goes from one cursor to another, over tokens that come in order.
    The trees that it gives are laid in the stretch of text between the start
    of the first token and the end of the last.

    * `Between limit c es c'` says that the trees `es` have been read between two
      cursors.  Such stretches are put together (`Between.trans`), and a node
      closes one (`Between.node`).
    * `Triple P p Q` takes a property of cursors over a reader, step by step.  A
      property that taking a token keeps (`Stable`) is kept by every reader that
      gives no tree.
    * `Lays trees p` is the law for a reader: wherever it starts, the trees of
      what it gives are laid in the stretch that it takes. -/

namespace Covenant.Grammar

open Covenant.Tree Covenant.Token Reader

/-! ## Cursors -/

/-- The tokens that are left come in order, behind what has been read. -/
def Cursor.Orderly (limit : Pos) (c : Cursor) : Prop := InOrder limit c.lastStop c.tokens

/-- The place where the next token starts; without one, the end of the text. -/
def Cursor.front (limit : Pos) (c : Cursor) : Pos :=
  (c.tokens.head?.map (·.span.start)).getD limit

/-- The trees `es` have been read between two cursors. -/
structure Between (limit : Pos) (c : Cursor) (es : List Expr) (c' : Cursor) : Prop where
  orderly : c'.Orderly limit
  front : c.front limit ≤ c'.front limit
  stop : c.lastStop ≤ c'.lastStop
  laid : LaidIn ⟨c.front limit, c'.lastStop⟩ es

section Cursors

variable {limit : Pos} {c c' c'' : Cursor} {t : Token} {e : Expr} {es es' : List Expr}

theorem front_of_tokens {ts : List Token} (h : c.tokens = t :: ts) :
    c.front limit = t.span.start := by
  rw [Cursor.front, h]
  rfl

theorem Cursor.Orderly.le_front (h : c.Orderly limit) : c.lastStop ≤ c.front limit := by
  obtain ⟨tokens, stop⟩ := c
  cases tokens with
  | nil => exact h
  | cons t ts => exact h.1

/-- Taking a token goes on in order. -/
theorem Cursor.Orderly.next (h : c.Orderly limit) (hnext : next c = some (t, c')) :
    c'.Orderly limit ∧ c.front limit ≤ c'.front limit ∧ c.lastStop ≤ c'.lastStop := by
  obtain ⟨tokens, stop⟩ := c
  cases tokens with
  | nil => cases hnext
  | cons u us =>
      obtain ⟨rfl, rfl⟩ := Prod.mk.inj (Option.some.inj hnext)
      obtain ⟨hstart, hlength, hrest⟩ := h
      have hstop : stop ≤ u.span.stop := hstart.trans (le_stop hlength)
      refine ⟨?_, ?_, ?_⟩
      · unfold Cursor.Orderly
        dsimp only
        split
        · exact hrest.weaken hstop
        · exact hrest
      · show u.span.start ≤ _
        refine (le_stop hlength).trans ?_
        cases us with
        | nil => exact hrest
        | cons v vs => exact hrest.1
      · dsimp only
        split
        · exact le_refl stop
        · exact hstop

theorem Between.refl (h : c.Orderly limit) : Between limit c [] c :=
  ⟨h, le_refl _, le_refl _, .nil⟩

theorem Between.trans (h : Between limit c es c') (h' : Between limit c' es' c'') :
    Between limit c (es ++ es') c'' := by
  refine ⟨h'.orderly, h.front.trans h'.front, h.stop.trans h'.stop, ?_⟩
  exact h.laid.append h'.laid (.inl h.orderly.le_front) ⟨le_refl _, h'.stop⟩
    ⟨h.front, le_refl _⟩

theorem Between.perm (h : Between limit c es c') (hperm : es.Perm es') :
    Between limit c es' c' :=
  ⟨h.orderly, h.front, h.stop, h.laid.perm hperm⟩

/-- A node that spans the stretch has all that has been read in it. -/
theorem Between.node (h : Between limit c es c') (hspan : e.span = ⟨c.front limit, c'.lastStop⟩)
    (hparts : es.Perm e.parts) : Between limit c [e] c' :=
  ⟨h.orderly, h.front, h.stop, .node (h.laid.perm hparts) fun _ => hspan⟩

theorem Between.follow (h : Between limit c es c')
    (hfollows : List.Forall₂ Expr.Follows es' es) : Between limit c es' c' :=
  ⟨h.orderly, h.front, h.stop, h.laid.follow hfollows⟩

end Cursors

/-! ## Triples -/

section Triples

variable {α β : Type} {P P' : Cursor → Prop} {Q Q' : α → Cursor → Prop} {R : β → Cursor → Prop}
  {p q : Reader α}

/-- If the reader is started where `P` holds and gives something, then `Q` holds of that. -/
def Triple (P : Cursor → Prop) (p : Reader α) (Q : α → Cursor → Prop) : Prop :=
  ∀ ⦃c a c'⦄, P c → p c = some (a, c') → Q a c'

/-- The reader keeps a property of the cursor. -/
abbrev Keeps (P : Cursor → Prop) (p : Reader α) : Prop := Triple P p fun _ => P

/-- Taking a token keeps a property of the cursor. -/
def Stable (P : Cursor → Prop) : Prop := Keeps P next

theorem Triple.bind {f : α → Reader β} (hp : Triple P p Q) (hf : ∀ a, Triple (Q a) (f a) R) :
    Triple P (p >>= f) R := by
  intro c b c' hc h
  obtain ⟨a, d, ha, hb⟩ := bind_eq_some.mp h
  exact hf a (hp hc ha) hb

theorem Triple.pure {a : α} (h : ∀ c, P c → Q a c) : Triple P (pure a) Q := by
  intro c b c' hc hb
  obtain ⟨rfl, rfl⟩ := pure_eq_some.mp hb
  exact h c hc

theorem triple_failure : Triple P (failure : Reader α) Q :=
  fun _ _ _ _ h => (failure_eq_some.mp h).elim

theorem Triple.weaken (h : Triple P p Q) (hP : ∀ c, P' c → P c) (hQ : ∀ a c, Q a c → Q' a c) :
    Triple P' p Q' :=
  fun c a c' hc ha => hQ a c' (h (hP c hc) ha)

theorem Triple.ite {b : Bool} (hp : Triple P p Q) (hq : Triple P q Q) :
    Triple P (if b then p else q) Q := by
  cases b
  · exact hq
  · exact hp

theorem Triple.maybe (h : Triple P p Q) : Triple P (maybe p) fun o => o.elim P Q := by
  intro c o c' hc ho
  rcases maybe_eq_some ho with ⟨a, rfl, ha⟩ | ⟨rfl, rfl⟩
  · exact h hc ha
  · exact hc

/-- What each step keeps, the whole repetition keeps. -/
theorem Triple.whileSome {step : α → Reader (Option α)} (h : ∀ a, Triple (Q a) (step a)
    fun o => o.elim (Q a) Q) (a : α) : Triple (Q a) (whileSome step a) Q := by
  intro c b c' hc hb
  obtain ⟨n, d, hsteps, hlast⟩ := whileSome_eq_some hb
  have hd : Q b d := hsteps.invariant (fun hone hhere => h _ hhere hone) hc
  rcases hlast with rfl | hlast
  · exact hd
  · exact h b hd hlast

end Triples

/-! ## Readers that give no trees -/

section Keeping

variable {α : Type} {P : Cursor → Prop}

theorem keeps_peek : Keeps P peek := by
  intro c t c' hc h
  exact (peek_eq_some.mp h).1 ▸ hc

theorem keeps_sees {test : Token → Bool} : Keeps P (sees test) := by
  intro c b c' hc h
  exact (sees_eq_some.mp h).1 ▸ hc

theorem keeps_ahead {p : Reader α} : Keeps P (ahead p) := by
  intro c b c' hc h
  exact (ahead_eq_some.mp h).1 ▸ hc

theorem keeps_require {b : Bool} : Keeps P (require b) := by
  intro c u c' hc h
  exact (require_eq_some.mp h).2 ▸ hc

theorem keeps_seesFor : Keeps P seesFor :=
  keeps_sees.bind fun _ => .ite (.pure fun _ => id) keeps_ahead

theorem Stable.nextIf (hP : Stable P) {test : Token → Bool} : Keeps P (nextIf test) :=
  hP.bind fun _ => .ite (.pure fun _ => id) triple_failure

theorem Stable.op (hP : Stable P) {o : String} : Keeps P (op o) :=
  hP.nextIf.bind fun _ => .pure fun _ => id

theorem Stable.word (hP : Stable P) {w : String} : Keeps P (word w) :=
  hP.nextIf.bind fun _ => .pure fun _ => id

theorem Stable.takesOp (hP : Stable P) {o : String} : Keeps P (takesOp o) :=
  keeps_sees.bind fun _ => .ite (hP.op.bind fun _ => .pure fun _ => id) (.pure fun _ => id)

theorem Stable.takesWord (hP : Stable P) {w : String} : Keeps P (takesWord w) :=
  keeps_sees.bind fun _ => .ite (hP.word.bind fun _ => .pure fun _ => id) (.pure fun _ => id)

theorem Stable.binder (hP : Stable P) : Keeps P binder :=
  hP.nextIf.bind fun _ => .pure fun _ => id

theorem Stable.comparisonOp (hP : Stable P) : Keeps P comparisonOp := by
  refine keeps_peek.bind fun t => ?_
  split
  · split
    · exact hP.bind fun _ => .pure fun _ => id
    · exact .pure fun _ => id
  · refine .ite (hP.bind fun _ => .pure fun _ => id) (.ite ?_ (.ite ?_ (.pure fun _ => id)))
    · exact hP.bind fun _ => hP.takesWord.bind fun _ => .pure fun _ => id
    · have hnot : Keeps P (do Reader.word "not"; Reader.word "in"; pure CmpOp.notMember) :=
        hP.word.bind fun _ => hP.word.bind fun _ => .pure fun _ => id
      exact hnot.maybe.weaken (fun _ => id) fun o _ h => by cases o <;> exact h
  · exact .pure fun _ => id

end Keeping

/-! ## Readers of trees -/

section Trees

variable {α β : Type} {limit : Pos} {c c' : Cursor} {es : List Expr} {trees : α → List Expr}
  {p : Reader α}

theorem stable_between : Stable (Between limit c es) := by
  intro d t c' h hnext
  obtain ⟨horderly, hfront, hstop⟩ := h.orderly.next hnext
  exact ⟨horderly, h.front.trans hfront, h.stop.trans hstop,
    h.laid.mono ⟨le_refl _, hstop⟩⟩

/-- The trees of what the reader gives are laid in the stretch that it takes. -/
def Lays (trees : α → List Expr) (p : Reader α) : Prop :=
  ∀ ⦃limit c a c'⦄, c.Orderly limit → p c = some (a, c') → Between limit c (trees a) c'

/-- The law for readers that give one tree. -/
abbrev LaysOne (p : Reader Expr) : Prop := Lays (fun e => [e]) p

/-- What is read is laid behind what has been read before. -/
theorem Lays.triple (h : Lays trees p) :
    Triple (Between limit c es) p fun a => Between limit c (es ++ trees a) :=
  fun _ _ _ hbefore ha => hbefore.trans (h hbefore.orderly ha)

theorem lays_of_triple
    (h : ∀ limit c, Triple (Between limit c []) p fun a => Between limit c (trees a)) :
    Lays trees p :=
  fun limit c _ _ hc ha => h limit c (.refl hc) ha

/-- A reader that asks for the place of the next token asks for the start of a stretch. -/
theorem triple_here {f : Pos → Reader α} {Q : α → Cursor → Prop}
    (h : ∀ d, Between limit c es d → Triple (Between limit d []) (f (d.front limit)) Q) :
    Triple (Between limit c es) (here >>= f) Q := by
  intro d a c' hd ha
  obtain ⟨start, d', hhere, hf⟩ := bind_eq_some.mp ha
  obtain ⟨rfl, t, ts, hts, rfl⟩ := here_eq_some.mp hhere
  have hfront : d.front limit = t.span.start := front_of_tokens hts
  rw [← hfront] at hf
  exact h d hd (.refl hd.orderly) hf

theorem lays_of_here {f : Pos → Reader α} (h : ∀ limit c,
    Triple (Between limit c []) (f (c.front limit)) fun a => Between limit c (trees a)) :
    Lays trees (here >>= f) := by
  intro limit c a c' hc ha
  exact triple_here (fun d hd => (h limit d).weaken (fun _ => id) fun _ _ => hd.trans) (.refl hc) ha

theorem triple_spanFrom {start : Pos} : Triple (Between limit c es) (spanFrom start)
    fun s d => s = ⟨start, d.lastStop⟩ ∧ Between limit c es d := by
  intro d s c' hd h
  obtain ⟨rfl, rfl⟩ := spanFrom_eq_some.mp h
  exact ⟨rfl, hd⟩

/-- A node that is made of all that has been read. -/
theorem triple_node {mk : Span → Expr} (hspan : ∀ s, (mk s).span = s)
    (hparts : ∀ s, es.Perm (mk s).parts) :
    Triple (Between limit c es) (do pure (mk (← spanFrom (c.front limit))))
      fun e => Between limit c [e] :=
  triple_spanFrom.bind fun s => .pure fun _ h => h.2.node ((hspan s).trans h.1) (hparts s)

theorem Lays.many (h : Lays trees p) : Lays (fun as => as.flatMap trees) (many p) := by
  intro limit c as c' hc has
  have hreads := many_eq_some has
  clear has
  induction hreads with
  | nil => exact .refl hc
  | cons hone _ ih =>
      have hfirst := h hc hone
      exact hfirst.trans (ih hfirst.orderly)

theorem LaysOne.many {p : Reader Expr} (h : LaysOne p) : Lays id (many p) := by
  intro limit c es c' hc hes
  have hall : Between limit c (es.flatMap fun e => [e]) c' := Lays.many h hc hes
  rwa [List.flatMap_singleton'] at hall

/-- A tree that may be missing. -/
theorem LaysOne.maybe {p : Reader Expr} (h : LaysOne p) : Lays Option.toList (maybe p) := by
  intro limit c o c' hc ho
  rcases maybe_eq_some ho with ⟨e, rfl, he⟩ | ⟨rfl, rfl⟩
  · exact h hc he
  · exact .refl hc

/-- Behind an operator. -/
theorem Lays.behindOp (h : Lays trees p) {o : String} : Lays trees (do op o; p) :=
  lays_of_triple fun _ _ => stable_between.op.bind fun _ => h.triple

/-- Behind a word. -/
theorem Lays.behindWord (h : Lays trees p) {w : String} : Lays trees (do word w; p) :=
  lays_of_triple fun _ _ => stable_between.word.bind fun _ => h.triple

/-- Several trees between commas. -/
theorem LaysOne.commaList {p : Reader Expr} (h : LaysOne p) :
    Lays (fun items => items.1) (commaList p) := by
  refine lays_of_triple fun limit c => ?_
  have hitems : Triple (Between limit c []) (separated "," p) (Between limit c) :=
    h.triple.bind fun e => (LaysOne.many h.behindOp).triple.bind fun es => .pure fun _ => id
  exact hitems.bind fun items => stable_between.takesOp.bind fun _ => .pure fun _ => id

end Trees

end Covenant.Grammar
