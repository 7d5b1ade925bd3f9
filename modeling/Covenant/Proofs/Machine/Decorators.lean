import Covenant.Proofs.Declaration.Layers
import Covenant.Proofs.Machine.Forwarding

/-! # Decorators — what layers evaluate to

    The decorators of a definition are evaluated before anything else.  One
    that is called becomes an object that waits for its target and holds its
    conditions as a mapping.

    * `evaluate_conditions`: a literal becomes a mapping with its clauses.
    * `Means` relates a layer and the value of its decorator; `evaluateItems_layers`
      follows the evaluation of all of them. -/

namespace Covenant.Machine

open Covenant.Value (Datum)
open Covenant.Source Covenant.Tree Signature Declaration

variable {h h' h'' : Heap} {host : Host} {s : Scope} {e : Expr} {v : Value}

/-! ## Mappings of texts -/

/-- Texts under texts, as the items of a mapping. -/
def textPairs (ps : Names String) : List (Value × Value) :=
  ps.map fun p => (.str p.1, .str p.2)

theorem setKey_texts (seen : Names String) (t m : String) :
    setKey h.same (.str t) (.str m) (textPairs seen) = some (textPairs (Names.set seen t m)) := by
  induction seen with
  | nil => rfl
  | cons p ps ih =>
      obtain ⟨k, m'⟩ := p
      have hsame : h.same (.str k) (.str t) = some (k == t) := by
        show some ((Datum.str k).same (.str t)) = _
        rw [same_texts]
      show setKey h.same (.str t) (.str m) ((Value.str k, Value.str m') :: textPairs ps) = _
      rw [setKey, hsame, ih, Names.set]
      by_cases hkt : k = t
      · rw [if_pos hkt, beq_iff_eq.mpr hkt, hkt]
        rfl
      · rw [if_neg hkt, beq_false_of_ne hkt]
        rfl

theorem withKeys_texts (seen items : Names String) (h : Heap) :
    Comp.withKeys (textPairs seen) (textPairs items) h
      = .done (textPairs (Names.setAll seen items)) h := by
  induction items generalizing seen with
  | nil => rfl
  | cons p items ih =>
      have hkey : Comp.withKey (textPairs seen) (.str p.1) (.str p.2) h
          = .done (textPairs (Names.set seen p.1 p.2)) h := by
        show (if h.isKey (.str p.1) then
          Comp.decided (setKey h.same (.str p.1) (.str p.2) (textPairs seen))
          else Comp.fail .wrongType : Comp _) h = _
        rw [if_pos (show h.isKey (.str p.1) = true from rfl), setKey_texts]
        rfl
      show (Comp.withKey (textPairs seen) (.str p.1) (.str p.2) >>= fun ps =>
        Comp.withKeys ps (textPairs items)) h = _
      rw [bind_of_done hkey]
      exact ih _

/-! ## Conditions -/

/-- Every mapping and every decorator of a heap is in another one as it is. -/
def Retains (h h' : Heap) : Prop :=
  ∀ v x, h.object? v = some x → (∃ ps, x = .dict ps) ∨ (∃ d, x = .decorator d) →
    h'.object? v = some x

theorem Heap.Grows.retains (hg : h.Grows h') : Retains h h' := fun _ _ hx _ => hg.object? hx

/-- A value that gives conditions. -/
def Holds (h : Heap) (c : Conditions) (v : Value) : Prop :=
  match c with
  | .absent => v = .none
  | .texts items => h.object? v = some (.dict (textPairs (Names.setAll [] items)))

theorem Holds.retained {c : Conditions} (hv : Holds h c v) (hr : Retains h h') :
    Holds h' c v := by
  cases c with
  | absent => exact hv
  | texts items => exact hr _ _ hv (.inl ⟨_, rfl⟩)

-- its equations are made here, once for the proofs below that rewrite with it
attribute [local simp] delayed

theorem delayed_append (es es' : List Expr) :
    delayed host s (es ++ es') = delayed host s es ++ delayed host s es' := by
  induction es with
  | nil => rw [List.nil_append, delayed, List.nil_append]
  | cons e es ih => rw [List.cons_append, delayed, delayed, ih, List.cons_append]

theorem delayed_texts {ts : List String} {es : List Expr}
    (hes : List.Forall₂ Conditions.IsText ts es) :
    delayed host s es = ts.map fun t => pure (.str t) := by
  induction hes with
  | nil => rw [delayed, List.map_nil]
  | @cons t e ts es ht _ ih =>
      obtain ⟨span, marked, rfl⟩ := ht
      rw [delayed, ih, evaluate]
      rfl

theorem displayItems_texts (items : Names String) (h : Heap) :
    displayItems (List.replicate items.length true)
        ((items.map (·.1)).map fun t => pure (.str t))
        ((items.map (·.2)).map fun t => pure (.str t)) h = .done (textPairs items) h := by
  induction items with
  | nil => rfl
  | cons p items ih =>
      show (displayItems (List.replicate items.length true) _ _ >>= fun rest =>
        pure ((.str p.1, .str p.2) :: rest) : Comp (List (Value × Value))) h = _
      rw [bind_of_done ih]
      rfl

/-- **A LITERAL** of conditions is evaluated to a value that gives them. -/
theorem evaluate_conditions (host : Host) (s : Scope) {c : Conditions} (he : c.Written e)
    (h : Heap) :
    ∃ v h', evaluate host s e h = .done v h' ∧ h.Grows h' ∧ Holds h' c v := by
  cases he with
  | absent span =>
      refine ⟨.none, h, ?_, .refl h, rfl⟩
      rw [evaluate]
      rfl
  | @texts items keys values span hkeys hvalues =>
      have hlength : ((items.map (·.1)).map fun t => (pure (.str t) : Comp Value)).length
          = ((List.replicate items.length true).filter id).length := by simp
      have hparts : delayed host s (keys ++ values)
          = ((items.map (·.1)).map fun t => pure (.str t))
            ++ ((items.map (·.2)).map fun t => pure (.str t)) := by
        rw [delayed_append, delayed_texts hkeys, delayed_texts hvalues]
      have hkeyed : Comp.withKeys [] (textPairs items) h
          = .done (textPairs (Names.setAll [] items)) h := withKeys_texts [] items h
      obtain ⟨o, ho⟩ : ∃ o, o = Object.dict (textPairs (Names.setAll [] items)) := ⟨_, rfl⟩
      refine ⟨.ref (h.add o).1, (h.add o).2, ?_, h.grows_add o, ?_⟩
      swap
      · show (h.add o).2.get? (h.add o).1 = _
        rw [h.get?_add_self, ho]
      rw [evaluate, hparts, ← hlength, List.take_left, List.drop_left, bind_of_done (displayItems_texts _ h)]
      show (Comp.withKeys [] (textPairs items) >>= fun ps => Comp.make (.dict ps)) h = _
      rw [bind_of_done hkeyed, ho]
      rfl

/-- The clauses of a value that gives conditions. -/
theorem clausesOf_holds {c : Conditions} (hv : Holds h c v) :
    clausesOf v h = .done c.clauses h := by
  cases c with
  | absent =>
      obtain rfl : v = .none := hv
      rfl
  | texts items =>
      have hv : h.object? v = some (.dict (textPairs (Names.setAll [] items))) := hv
      have hclauses : (textPairs (Names.setAll [] items)).map (fun p =>
          ({ text := h.text p.1, message := h.text p.2 } : Clause))
          = (Conditions.texts items).clauses := by
        rw [textPairs, List.map_map]
        rfl
      have htrue : h.isTrue v = !(textPairs (Names.setAll [] items)).isEmpty := by
        cases v with
        | ref a =>
            have hv : h.get? a = some (.dict (textPairs (Names.setAll [] items))) := hv
            rw [Heap.isTrue, hv]
        | atom | type | routine | module => cases hv
      rw [clausesOf, bind_of_done (show Comp.heap h = .done h h from rfl), htrue, Bool.not_not, hv]
      by_cases hempty : (textPairs (Names.setAll [] items)).isEmpty = true
      · rw [if_pos hempty, ← hclauses, List.isEmpty_iff.mp hempty]
        rfl
      · rw [if_neg hempty, ← hclauses]
        rfl

/-! ## Arguments -/

theorem evaluateItems_cons (hplain : ∀ span access e', e ≠ .compound span (.starred access) [e'])
    (es : List Expr) : evaluateItems host s (e :: es) = (do
      let v ← evaluate host s e
      pure (v :: (← evaluateItems host s es))) := by
  rw [evaluateItems]
  intro span access e' heq
  exact hplain span access e' heq

/-- Literals by position are evaluated to values that give their conditions. -/
theorem evaluateItems_conditions (host : Host) (s : Scope) {cs : List Conditions} {es : List Expr}
    (hes : List.Forall₂ Conditions.Written cs es) (h : Heap) :
    ∃ vs h', evaluateItems host s es h = .done vs h' ∧ h.Grows h' ∧
      List.Forall₂ (Holds h') cs vs := by
  induction hes generalizing h with
  | nil =>
      refine ⟨[], h, ?_, .refl h, .nil⟩
      rw [evaluateItems]
      rfl
  | @cons c e cs es he _ ih =>
      obtain ⟨v, h₁, hv, hg, hholds⟩ := evaluate_conditions host s he h
      obtain ⟨vs, h₂, hvs, hg', hall⟩ := ih h₁
      refine ⟨v :: vs, h₂, ?_, hg.trans hg', .cons (hholds.retained hg'.retains) hall⟩
      have hplain : ∀ span access e', e ≠ .compound span (.starred access) [e'] := by
        rintro span access e' rfl
        cases he
      rw [evaluateItems_cons hplain, bind_of_done hv, bind_of_done hvs]
      rfl

/-- The parameters of decorators are no private names. -/
theorem nameHere_parameter {m : Marker} {name : String} (hname : name ∈ m.parameters) :
    s.nameHere name = name := by
  have hpublic : "__".isPrefixOf name = false := by
    have hall : ∀ m : Marker, ∀ n ∈ m.parameters, ¬"__".toList <+: n.toList := by
      intro m
      cases m <;> decide
    exact String.startsWith_string_eq_false_iff.mpr (hall m name hname)
  unfold Scope.nameHere privateName
  cases s.owner with
  | none => rfl
  | some c =>
      dsimp only
      rw [hpublic]
      rfl

/-- Literals by name are evaluated to values that give their conditions, under their names. -/
theorem evaluateKeywords_conditions {named : Names Conditions} {ks : List Keyword}
    {before kwargs : Names Value}
    (hhere : ∀ p ∈ named, s.nameHere p.1 = p.1)
    (hks : List.Forall₂ (fun p k => ∃ span e, k = Keyword.mk span (some p.1) e ∧
      Conditions.Written p.2 e) named ks)
    (hdone : evaluateKeywords host s before ks h = .done kwargs h') :
    h.Grows h' ∧ ∃ passed, kwargs = before ++ passed ∧
      List.Forall₂ (fun p q => q.1 = p.1 ∧ Holds h' p.2 q.2) named passed := by
  induction hks generalizing h before with
  | nil =>
      rw [evaluateKeywords] at hdone
      cases hdone
      exact ⟨.refl _, [], (List.append_nil _).symm, .nil⟩
  | @cons p k named ks hk _ ih =>
      obtain ⟨hhere₁, hhere⟩ := List.forall_mem_cons.mp hhere
      obtain ⟨span, e, rfl, he⟩ := hk
      obtain ⟨v, h₁, hv, hg, hholds⟩ := evaluate_conditions host s he h
      rw [evaluateKeywords, bind_of_done hv] at hdone
      have hrest : (addArgument before (s.nameHere p.1) v >>= fun kwargs =>
          evaluateKeywords host s kwargs ks) h₁ = .done kwargs h' := hdone
      obtain ⟨kwargs', h₂, hadd, hrest⟩ := Run.bind_eq_done hrest
      rw [hhere₁, addArgument] at hadd
      split at hadd
      · cases hadd
      · cases hadd
        obtain ⟨hg', passed, rfl, hall⟩ := ih hhere hrest
        refine ⟨hg.trans hg', (p.1, v) :: passed, ?_, .cons ⟨rfl, hholds.retained hg'.retains⟩ hall⟩
        rw [List.append_assoc]
        rfl

/-! ## Layers -/

/-- The routine that a marker stands for. -/
def routineOf : Marker → Routine
  | .precondition => .precondition
  | .postcondition => .postcondition
  | .invariant => .invariant
  | .constructor => .constructor
  | .functionContract => .functionContract

/-- A value that gives what is given for a parameter. -/
def Gives (h : Heap) (o : Option Conditions) (v : Value) : Prop :=
  match o with
  | none => v = .none
  | some c => Holds h c v

/-- A decorator that was made from a layer. -/
inductive Waits (h : Heap) (l : Layer) : Decorator → Prop
  | precondition {v : Value} (hm : l.marker = .precondition)
      (hv : Gives h (l.argument 0 "asserts") v) : Waits h l (.precondition v)
  | postcondition {v : Value} (hm : l.marker = .postcondition)
      (hv : Gives h (l.argument 0 "asserts") v) : Waits h l (.postcondition v)
  | invariant (hm : l.marker = .invariant) : Waits h l .invariant
  | constructor (hm : l.marker = .constructor) : Waits h l .constructor
  | functionContract {pre post : Value} (hm : l.marker = .functionContract)
      (hpre : Gives h (l.argument 0 "preconditions") pre)
      (hpost : Gives h (l.argument 1 "postconditions") post) :
      Waits h l (.functionContract pre post)

/-- The value of the decorator of a layer: the routine, or what it gave when it was called. -/
inductive Means (h : Heap) (l : Layer) : Value → Prop
  | routine (hm : l.marker.isMark = true) : Means h l (.routine (routineOf l.marker))
  | waiting {v : Value} {d : Decorator} (hd : h.object? v = some (.decorator d))
      (hw : Waits h l d) : Means h l v

/-- An expression that is read as a marker, and stands for it wherever a heap has grown to. -/
structure StandsFor (host : Host) (s : Scope) (h : Heap) (m : Marker) (f : Expr) : Prop where
  calls : Calls m f
  evaluated : ∀ h', h.Grows h' → evaluate host s f h' = .done (.routine (routineOf m)) h'

theorem Gives.retained {o : Option Conditions} (hv : Gives h o v) (hr : Retains h h') :
    Gives h' o v := by
  cases o with
  | none => exact hv
  | some c => exact Holds.retained hv hr

theorem Waits.retained {l : Layer} {d : Decorator} (hw : Waits h l d) (hr : Retains h h') :
    Waits h' l d := by
  cases hw with
  | precondition hm hv => exact .precondition hm (hv.retained hr)
  | postcondition hm hv => exact .postcondition hm (hv.retained hr)
  | invariant hm => exact .invariant hm
  | constructor hm => exact .constructor hm
  | functionContract hm hpre hpost =>
      exact .functionContract hm (hpre.retained hr) (hpost.retained hr)

theorem Means.retained {l : Layer} (hv : Means h l v) (hr : Retains h h') : Means h' l v := by
  cases hv with
  | routine hm => exact .routine hm
  | waiting hd hw => exact .waiting (hr _ _ hd (.inr ⟨_, rfl⟩)) (hw.retained hr)

/-- What is given for a parameter is found among the values of the arguments. -/
theorem gives_argument {l : Layer} {args : List Value} {kwargs : Names Value} (place : Nat)
    (name : String) (hargs : List.Forall₂ (Holds h) l.positional args)
    (hkwargs : List.Forall₂ (fun p q => q.1 = p.1 ∧ Holds h p.2 q.2) l.named kwargs) :
    Option.Rel (Holds h) (l.argument place name) (argument args kwargs place name) := by
  have hnamed : Option.Rel (Holds h) (l.named.lookup name) (kwargs.lookup name) := by
    generalize l.named = named at hkwargs ⊢
    induction hkwargs with
    | nil => exact .none
    | @cons p q ps qs hq _ ih =>
        obtain ⟨t, c⟩ := p
        obtain ⟨t', v⟩ := q
        obtain ⟨rfl, hv⟩ := hq
        rw [List.lookup_cons, List.lookup_cons]
        cases name == t' with
        | true => exact .some hv
        | false => exact ih
  have hpositional := getElem?_rel hargs place
  unfold Layer.argument argument
  generalize l.positional[place]? = o, args[place]? = o' at hpositional ⊢
  cases hpositional with
  | none => exact hnamed
  | some hv => exact .some hv

theorem expect_done {args : List Value} {kwargs : Names Value} {least most : Nat}
    {names : List String} {u : Unit} (hdone : expect args kwargs least most names h = .done u h') :
    h' = h := by
  unfold expect at hdone
  split at hdone
  · cases hdone
    rfl
  · exact nomatch hdone

theorem ofOption_done {α : Type} {m : Mistake} {o : Option α} {x : α}
    (hdone : Comp.ofOption m o h = .done x h') : o = some x ∧ h' = h := by
  cases o with
  | none => exact nomatch hdone
  | some y =>
      cases hdone
      exact ⟨rfl, rfl⟩

/-- What was made for a layer waits, where it was made. -/
theorem means_made {l : Layer} {d : Decorator} (hw : Waits h l d)
    (hdone : Comp.make (.decorator d) h = .done v h') : h.Grows h' ∧ Means h' l v := by
  cases hdone
  have hg := h.grows_add (.decorator d)
  exact ⟨hg, .waiting (h.get?_add_self _) (hw.retained hg.retains)⟩

variable {program : List Stmt} {n : Nat} {l : Layer} {args : List Value} {kwargs : Names Value}

/-- A mark that is called without a target waits for one. -/
theorem means_markOr {d : Decorator} {o : Option Conditions} {target : Option Value}
    (hd : d = .invariant ∨ d = .constructor) (hw : Waits h l d)
    (htarget : Option.Rel (Holds h) o target)
    (hdone : markOr program d target h = .done v h') : h.Grows h' ∧ Means h' l v := by
  cases htarget with
  | none => exact means_made hw hdone
  | @some c t ht =>
      cases c with
      | absent =>
          obtain rfl : t = .none := ht
          exact means_made hw hdone
      | texts items =>
          -- a mapping is no target
          have ht : h.object? t = some (.dict (textPairs (Names.setAll [] items))) := ht
          cases t with
          | ref a =>
              have hrefused : ∀ change, changeSpecs (.ref a) change h
                  = .thrown (.mistake .noAttribute) h := by
                intro change
                unfold changeSpecs
                rw [bind_of_done (show Comp.heap h = .done h h from rfl), ht]
                rfl
              have hdone : applyDecorator program d (.ref a) h = .done v h' := hdone
              rcases hd with rfl | rfl
              · obtain ⟨_, _, hchanged, -⟩ := Run.bind_eq_done hdone
                exact nomatch (hrefused _).symm.trans hchanged
              · obtain ⟨_, _, hchanged, -⟩ := Run.bind_eq_done hdone
                exact nomatch (hrefused _).symm.trans hchanged
          | atom | type | routine | module => exact nomatch ht

/-- **A MARKER THAT IS CALLED** with the arguments of a layer gives what waits for its target. -/
theorem means_of_call (hargs : List.Forall₂ (Holds h) l.positional args)
    (hkwargs : List.Forall₂ (fun p q => q.1 = p.1 ∧ Holds h p.2 q.2) l.named kwargs)
    (hdone : (level program (n + 1)).call (.routine (routineOf l.marker)) args kwargs h
      = .done v h') : h.Grows h' ∧ Means h' l v := by
  have hcall : (callDeclaring program (routineOf l.marker) args kwargs).getD
      (callStandard (level program n) (routineOf l.marker) args kwargs) h = .done v h' := hdone
  have hgiven (place : Nat) (name : String) :
      Gives h (l.argument place name) ((argument args kwargs place name).getD .none) := by
    have hrel := gives_argument place name hargs hkwargs
    generalize l.argument place name = o, argument args kwargs place name = o' at hrel ⊢
    cases hrel with
    | none => rfl
    | some hv => exact hv
  cases hm : l.marker with
  | precondition =>
      rw [hm] at hcall
      obtain ⟨_, h₁, hexpect, hrest⟩ := Run.bind_eq_done hcall
      obtain ⟨x, h₂, hx, hmake⟩ := Run.bind_eq_done hrest
      obtain ⟨hsome, rfl⟩ := ofOption_done hx
      obtain rfl := expect_done hexpect
      have hv := hgiven 0 "asserts"
      rw [hsome] at hv
      exact means_made (.precondition hm hv) hmake
  | postcondition =>
      rw [hm] at hcall
      obtain ⟨_, h₁, hexpect, hrest⟩ := Run.bind_eq_done hcall
      obtain ⟨x, h₂, hx, hmake⟩ := Run.bind_eq_done hrest
      obtain ⟨hsome, rfl⟩ := ofOption_done hx
      obtain rfl := expect_done hexpect
      have hv := hgiven 0 "asserts"
      rw [hsome] at hv
      exact means_made (.postcondition hm hv) hmake
  | invariant =>
      rw [hm] at hcall
      obtain ⟨_, h₁, hexpect, hmark⟩ := Run.bind_eq_done hcall
      obtain rfl := expect_done hexpect
      exact means_markOr (.inl rfl) (.invariant hm) (gives_argument 0 "func" hargs hkwargs) hmark
  | constructor =>
      rw [hm] at hcall
      obtain ⟨_, h₁, hexpect, hmark⟩ := Run.bind_eq_done hcall
      obtain rfl := expect_done hexpect
      exact means_markOr (.inr rfl) (.constructor hm) (gives_argument 0 "func" hargs hkwargs) hmark
  | functionContract =>
      rw [hm] at hcall
      obtain ⟨_, h₁, hexpect, hmake⟩ := Run.bind_eq_done hcall
      obtain rfl := expect_done hexpect
      exact means_made (.functionContract hm (hgiven 0 _) (hgiven 1 _)) hmake

/-- A decorator is evaluated to what its layer means. -/
theorem evaluate_layer {h₀ : Heap} (hg₀ : h₀.Grows h)
    (he : l.Written (StandsFor (level program (n + 1)) s h₀) e)
    (hdone : evaluate (level program (n + 1)) s e h = .done v h') :
    h.Grows h' ∧ Means h' l v := by
  cases he with
  | bare hcalled he =>
      rw [he.evaluated h hg₀] at hdone
      cases hdone
      exact ⟨.refl h, .routine (l.bare hcalled).1⟩
  | @called span f args keywords _ hf hargs hkeywords =>
      have hhere : ∀ p ∈ l.named, s.nameHere p.1 = p.1 := fun p hp =>
        nameHere_parameter (List.mem_of_mem_drop (l.fits p hp))
      obtain ⟨vs, h₁, hvs, hg₁, hholds⟩ :=
        evaluateItems_conditions (level program (n + 1)) s hargs h
      rw [evaluate, bind_of_done (hf.evaluated h hg₀), bind_of_done hvs] at hdone
      obtain ⟨kwargs, h₂, hkwargs, hcall⟩ := Run.bind_eq_done hdone
      obtain ⟨hg₂, _, rfl, hpassed⟩ := evaluateKeywords_conditions hhere hkeywords hkwargs
      have hrouted : (level program (n + 1)).call (.routine (routineOf l.marker)) vs kwargs h₂
          = .done v h' := by
        cases hm : l.marker <;> (rw [hm] at hcall; exact hcall)
      obtain ⟨hg₃, hmeans⟩ := means_of_call (hholds.imp fun _ _ hv => hv.retained hg₂.retains) hpassed hrouted
      exact ⟨hg₁.trans (hg₂.trans hg₃), hmeans⟩

/-- **THE DECORATORS** of a definition are evaluated to what their layers mean. -/
theorem evaluateItems_layers {h₀ : Heap} {ls : List Layer} {es : List Expr} {vs : List Value}
    (hes : List.Forall₂ (Layer.Written (StandsFor (level program (n + 1)) s h₀)) ls es)
    (hg₀ : h₀.Grows h) (hdone : evaluateItems (level program (n + 1)) s es h = .done vs h') :
    h.Grows h' ∧ List.Forall₂ (Means h') ls vs := by
  induction hes generalizing h vs with
  | nil =>
      rw [evaluateItems] at hdone
      cases hdone
      exact ⟨.refl _, .nil⟩
  | @cons l e ls es he _ ih =>
      have hplain : ∀ span access e', e ≠ .compound span (.starred access) [e'] := by
        rintro span access e' rfl
        cases markerName_written (fun m f hf => hf.calls) he
      rw [evaluateItems_cons hplain] at hdone
      obtain ⟨v, h₁, hv, hdone⟩ := Run.bind_eq_done hdone
      obtain ⟨vs, h₂, hvs, hdone⟩ := Run.bind_eq_done hdone
      cases hdone
      obtain ⟨hg₁, hmeans⟩ := evaluate_layer hg₀ he hv
      obtain ⟨hg₂, hall⟩ := ih (hg₀.trans hg₁) hvs
      exact ⟨hg₁.trans hg₂, .cons (hmeans.retained hg₂.retains) hall⟩

end Covenant.Machine
