import Covenant.Proofs.Machine.Stacks
import Covenant.Proofs.Weaving.PublicNames

/-! # Publishing — whose names a module gives away

    The contract of a function puts a wrapper under the public name in the
    module of the function.  The name may stand for something: a wrapper of a
    function with the same internal name gives way, and nothing else does.

    * `SameWrappers` is the frame: an application only changes objects that are
      neither wrappers nor bound wrappers, so that the bindings which a
      namespace has stay wrappers of the functions they were wrappers of.
    * `weaveFunction_ends` is one application: refused, without a contract, or
      published, and nothing but the public name changes.
    * `History.owned` is the invariant of a module over applications and whatever
      happens between them: what is bound under a public name and would give
      way was published by an earlier application.
    * `publishing_keeps_names` puts the two together.  The invariant can be
      broken from outside: a wrapper of a method with the right internal
      name gives way as well (`publishing_keeps_names_fails`). -/

namespace Covenant.Machine

open Condition Declaration Signature Weaving Wrapper

variable {h h' h₁ h₂ : Heap} {a g : Address} {f : FunctionInfo} {v v' w : Value}
  {ns : Names Value} {name : String} {d : Descriptor Value}

/-! ## Wrappers stay wrappers -/

/-- Every object is as it was, or it is plain and was so. -/
def SameWrappers (h h' : Heap) : Prop :=
  ∀ b x, h.get? b = some x → h'.get? b = some x ∨ IsPlain x ∧ ∃ y, h'.get? b = some y ∧ IsPlain y

theorem Heap.Grows.sameWrappers (hg : h.Grows h') : SameWrappers h h' :=
  fun b x hx => .inl (hg b x hx)

theorem Heap.GrowsBut.sameWrappers {x y : Object} (hg : Heap.GrowsBut a h h')
    (hx : h.get? a = some x) (hplain : IsPlain x) (hy : h'.get? a = some y)
    (hplain' : IsPlain y) : SameWrappers h h' := by
  intro b z hz
  by_cases hb : b = a
  · subst hb
    obtain rfl := Option.some.inj (hx.symm.trans hz)
    exact .inr ⟨hplain, y, hy, hplain'⟩
  · exact .inl (hg b z hb hz)

theorem SameWrappers.trans (hs : SameWrappers h h₁) (hs' : SameWrappers h₁ h') :
    SameWrappers h h' := by
  intro b x hx
  rcases hs b x hx with hx₁ | ⟨hplain, y, hy, hplain'⟩
  · exact hs' b x hx₁
  · rcases hs' b y hy with hy' | ⟨-, z, hz, hplain''⟩
    · exact .inr ⟨hplain, y, hy', hplain'⟩
    · exact .inr ⟨hplain, z, hz, hplain''⟩

theorem SameWrappers.isNew (hs : SameWrappers h h') (hw : h'.object? w = none) :
    h.object? w = none := by
  cases w with
  | ref b =>
      cases hx : h.get? b with
      | none => exact hx
      | some x =>
          have hnone : h'.get? b = none := hw
          rcases hs b x hx with hx' | ⟨-, y, hy, -⟩
          · cases hnone.symm.trans hx'
          · cases hnone.symm.trans hy
  | atom | type | routine | module => rfl

/-- The object of a value is there, and so is the function that it binds. -/
structure Heap.Holds (h : Heap) (v : Value) : Prop where
  object : ∀ a, v = .ref a → (h.get? a).isSome
  bound : ∀ a r b, v = .ref a → h.get? a = some (.bound r (.ref b)) → (h.get? b).isSome

theorem SameWrappers.holds (hs : SameWrappers h h') (hv : h.Holds v) : h'.Holds v where
  object := by
    intro a ha
    obtain ⟨x, hx⟩ := Option.isSome_iff_exists.mp (hv.object a ha)
    rcases hs a x hx with hx' | ⟨-, y, hy, -⟩
    · exact Option.isSome_iff_exists.mpr ⟨x, hx'⟩
    · exact Option.isSome_iff_exists.mpr ⟨y, hy⟩
  bound := by
    intro a r b ha hbound
    obtain ⟨x, hx⟩ := Option.isSome_iff_exists.mp (hv.object a ha)
    have hx' : h.get? a = some (.bound r (.ref b)) := by
      rcases hs a x hx with hx' | ⟨-, y, hy, hplain⟩
      · rw [hx, ← hx', hbound]
      · obtain rfl := Option.some.inj (hy.symm.trans hbound)
        exact hplain.elim
    obtain ⟨y, hy⟩ := Option.isSome_iff_exists.mp (hv.bound a r b ha hx')
    rcases hs b y hy with hy' | ⟨-, z, hz, -⟩
    · exact Option.isSome_iff_exists.mpr ⟨y, hy'⟩
    · exact Option.isSome_iff_exists.mpr ⟨z, hz⟩

/-- The descriptor of an object that is a wrapper itself. -/
def Object.checked? : Option Object → Option (Descriptor Value)
  | some (.function { code := .checked d _ _, .. }) => some d
  | _ => none

theorem IsPlain.checked? {x : Object} (hx : IsPlain x) : Object.checked? (some x) = none := by
  cases x with
  | function info =>
      obtain ⟨name, qualname, module, doc, slots, hints, isAsync, code, specs, fields⟩ := info
      cases code with
      | checked => exact hx.elim
      | block | result => rfl
  | _ => rfl

theorem contract?_eq (h : Heap) (v : Value) : h.contract? v = match h.object? v with
    | some (.bound _ u) => Object.checked? (h.object? u)
    | x => Object.checked? x := by
  unfold Heap.contract? Object.checked?
  dsimp only
  cases h.object? v with
  | none => rfl
  | some x => cases x <;> rfl

theorem contract?_of_plain {x : Object} (hx : h.object? v = some x) (hplain : IsPlain x) :
    h.contract? v = none := by
  rw [contract?_eq, hx]
  cases x with
  | bound => exact hplain.elim
  | _ => exact hplain.checked?

theorem SameWrappers.checked? (hs : SameWrappers h h') (hv : ∀ b, v = .ref b → (h.get? b).isSome) :
    Object.checked? (h'.object? v) = Object.checked? (h.object? v) := by
  cases v with
  | ref b =>
      obtain ⟨x, hx⟩ := Option.isSome_iff_exists.mp (hv b rfl)
      show Object.checked? (h'.get? b) = Object.checked? (h.get? b)
      rw [hx]
      rcases hs b x hx with hx' | ⟨hplain, y, hy, hplain'⟩
      · rw [hx']
      · rw [hy, hplain.checked?, hplain'.checked?]
  | atom | type | routine | module => rfl

/-- **WRAPPERS STAY WRAPPERS** of the functions that they were wrappers of, and nothing else
    becomes one. -/
theorem SameWrappers.contract? (hs : SameWrappers h h') (hv : h.Holds v) :
    h'.contract? v = h.contract? v := by
  cases v with
  | ref b =>
      obtain ⟨x, hx⟩ := Option.isSome_iff_exists.mp (hv.object b rfl)
      have hobject : h.object? (.ref b) = some x := hx
      rcases hs b x hx with hx' | ⟨hplain, y, hy, hplain'⟩
      · have hobject' : h'.object? (.ref b) = some x := hx'
        rw [contract?_eq, contract?_eq, hobject, hobject']
        cases x with
        | bound r u =>
            refine hs.checked? fun c hc => ?_
            subst hc
            exact hv.bound b r c rfl hx
        | _ => rfl
      · have hobject' : h'.object? (.ref b) = some y := hy
        rw [contract?_of_plain hobject hplain, contract?_of_plain hobject' hplain']
  | atom | type | routine | module => rfl

/-! ## The function of a module -/

/-- A function that was made in the module whose namespace is at an address. -/
structure Defined (h : Heap) (g a : Address) (f : FunctionInfo) : Prop where
  function : h.get? a = some (.function f)
  globals : f.code.globals? = some g

theorem Defined.isPlain (hd : Defined h g a f) (specs : Option Specs) :
    IsPlain (.function { f with specs := specs }) := by
  have hcode := hd.globals
  obtain ⟨name, qualname, module, doc, slots, hints, isAsync, code, specs', fields⟩ := f
  cases code with
  | checked => cases hcode
  | block | result => exact trivial

theorem Defined.ne (hd : Defined h g a f) (hns : h.get? g = some (.names ns)) : g ≠ a := by
  rintro rfl
  cases hd.function.symm.trans hns

/-- What a marked function declares. -/
def declared (h : Heap) (a : Address) (f : FunctionInfo) (specs : Specs) : Callable Value :=
  describeFunction h (.ref a) { f with specs := some specs } f.name .function specs.isInvariant

theorem Marked.sameWrappers {specs : Specs} (hd : Defined h g a f) (hm : Marked h a f specs h₁) :
    SameWrappers h h₁ :=
  hm.others.sameWrappers hd.function (hd.isPlain f.specs) hm.function (hd.isPlain _)

/-- Whatever the clauses are given as, they only change the record of the function. -/
theorem addConditions_ends (hf : h.get? a = some (.function f)) (v v' : Value) :
    ∃ specs h₁, Marked h a f specs h₁ ∧ (addConditions (.ref a) v v' h = .done () h₁ ∨
      ∃ e, addConditions (.ref a) v v' h = .thrown e h₁) := by
  obtain ⟨h₁, hchange₁, hm₁⟩ := changeSpecs_marks hf id
  unfold addConditions
  rw [bind_of_done hchange₁]
  rcases clausesOf_eq v h₁ with ⟨pre, hpre⟩ | ⟨e, hthrown⟩
  · obtain ⟨h₂, hchange₂, hm₂⟩ := hm₁.change fun s => s.withConditions pre []
    rw [bind_of_done hpre, bind_of_done hchange₂]
    rcases clausesOf_eq v' h₂ with ⟨post, hpost⟩ | ⟨e, hthrown⟩
    · obtain ⟨h₃, hchange₃, hm₃⟩ := hm₂.change fun s => s.withConditions [] post
      rw [bind_of_done hpost]
      exact ⟨_, h₃, hm₃, .inl hchange₃⟩
    · refine ⟨_, h₂, hm₂, .inr ⟨e, ?_⟩⟩
      show Run.bind (clausesOf v' h₂) _ = _
      rw [hthrown]
      rfl
  · refine ⟨_, h₁, hm₁, .inr ⟨e, ?_⟩⟩
    show Run.bind (clausesOf v h₁) _ = _
    rw [hthrown]
    rfl

/-! ## Whether the name is free -/

/-- A wrapper of a function with some internal name. -/
def IsWrapperOf (h : Heap) (name : String) (v : Value) : Prop :=
  ∃ d, h.contract? v = some d ∧ d.internalName = name

/-- The public name of a function stands for something that does not give way to it. -/
def Taken (h : Heap) (ns : Names Value) (name : String) : Prop :=
  ∃ old, ns.lookup (publicName name .function) = some old ∧ ¬ IsWrapperOf h name old

theorem publicName_method (name : String) : publicName name .method = publicName name .function := by
  simp [publicName]

theorem mem_takenNames {n : String} :
    n ∈ takenNames h ns name ↔ n = publicName name .function ∧ Taken h ns name := by
  unfold takenNames Taken
  dsimp only
  rw [publicName_method]
  cases hlookup : ns.lookup (publicName name .function) with
  | none =>
      refine iff_of_false List.not_mem_nil ?_
      rintro ⟨-, old, hold, -⟩
      cases hold
  | some old =>
      dsimp only
      have hgives : ((h.contract? old).any fun d => d.internalName == name) = true
          ↔ IsWrapperOf h name old := by
        rw [Option.any_eq_true]
        exact exists_congr fun d => and_congr_right fun _ => beq_iff_eq
      by_cases hold : IsWrapperOf h name old
      · rw [if_pos (hgives.mpr hold)]
        refine iff_of_false List.not_mem_nil ?_
        rintro ⟨-, old', hold', hnot⟩
        cases hold'
        exact hnot hold
      · rw [if_neg (mt hgives.mp hold), List.mem_singleton]
        exact ⟨fun hn => ⟨hn, old, rfl, hold⟩, And.left⟩

section Accepting

variable {c : Callable Value}

/-- What becomes of the function of a module that is to be wrapped. -/
inductive Accepting (h : Heap) (ns : Names Value) (c : Callable Value) :
    Except Thrown (Option (Descriptor Value)) → Prop where
  /-- A clause cannot be enforced. -/
  | escaped {m : Mistake} (hworks : ¬ Workable c none []) : Accepting h ns c (.error (.mistake m))
  | nothing (hc : c.hasContract = false) : Accepting h ns c (.ok none)
  | invalid {e : GenerationError} (hv : validateCallable c none [] = .error e) :
      Accepting h ns c (.error (.rejected [e.locate none (some c.name)]))
  | taken {made : Validated Value} (hv : validateCallable c none [] = .ok (some made))
      (htaken : Taken h ns c.name) :
      Accepting h ns c (.error (.rejected [GenerationError.locate
        { cause := .duplicateName (publicName c.name .function) c.name
            (presentOr c.module "module") .defined } none (some c.name)]))
  | accepted {made : Validated Value} {d : Descriptor Value}
      (hv : validateCallable c none [] = .ok (some made)) (hd : describe made none = .ok d)
      (hfree : ¬ Taken h ns c.name) : Accepting h ns c (.ok (some d))

/-- **WHETHER A FUNCTION IS WRAPPED**: its name is looked at once its clauses are accepted. -/
theorem accepting_acceptFunction (hrole : c.role = .function) :
    Accepting h ns c (acceptFunction h ns c) := by
  have hi : ∀ T : TypeDecl Value, none = some T → validateType T = .ok [] := by
    intro T hT
    cases hT
  unfold acceptFunction
  dsimp only
  split
  · rename_i hweave
    refine .escaped fun hworks => ?_
    obtain ⟨made, hmade⟩ := (weaveCallable_ok_iff hi).mpr hworks
    cases hmade.symm.trans hweave
  · rename_i hweave
    cases settles_of_weaveCallable hi hweave with
    | invalid hv => exact .invalid hv
    | refused hv hconflict =>
        rw [hrole] at hconflict ⊢
        cases hconflict with
        | claimed hclaimed => cases hclaimed
        | defined _ htaken => exact .taken hv (mem_takenNames.1 htaken).2
  · rename_i hweave
    cases settles_of_weaveCallable hi hweave with
    | woven hv hd _ htaken =>
        refine .accepted hv hd fun hold => htaken ?_
        refine mem_takenNames.2 ⟨?_, hold⟩
        rw [(names_of_describe hv hd).1, hrole]
  · rename_i hweave
    cases settles_of_weaveCallable hi hweave with
    | nothing hv => exact .nothing (hasContract_of_validateCallable hv)

/-- **A TAKEN NAME IS REFUSED**, whatever else is wrong with the function. -/
theorem acceptFunction_taken (hrole : c.role = .function) (hc : c.hasContract = true)
    (hworks : Workable c none []) (htaken : Taken h ns c.name) :
    ∃ e, acceptFunction h ns c = .error (.rejected [e]) ∧ e.callableName = some c.name ∧
      ∀ made, validateCallable c none [] = .ok (some made) →
        e.cause = .duplicateName (publicName c.name .function) c.name
          (presentOr c.module "module") .defined := by
  have haccepting : Accepting h ns c _ := accepting_acceptFunction hrole
  generalize acceptFunction h ns c = r at haccepting ⊢
  cases haccepting with
  | escaped hnot => exact absurd hworks hnot
  | nothing hnone =>
      rw [hc] at hnone
      cases hnone
  | accepted _ _ hfree => exact absurd htaken hfree
  | taken hv => exact ⟨_, rfl, rfl, fun _ _ => rfl⟩
  | invalid hv =>
      have hlocated := (validateCallable_reported none c [] _ hv).unlocated.locate (some c.name)
      refine ⟨_, rfl, hlocated.2, fun made hmade => ?_⟩
      cases hv.symm.trans hmade

end Accepting

/-! ## One application -/

theorem makeWrapper_ends (hd : d.implementation = some (.ref a))
    (hf : h.get? a = some (.function f)) :
    (∃ w h', makeWrapper d h = .done w h' ∧ h.Grows h') ∨ ∃ e, makeWrapper d h = .thrown e h := by
  rcases makeWrapper_planned ⟨_, f, hd, hf⟩ with ⟨_, w, h', -, hdone, hgrows, -⟩ | ⟨m, -, hthrown⟩
  · exact .inl ⟨w, h', hdone, hgrows⟩
  · exact .inr ⟨_, hthrown⟩

/-- A new object is where none was. -/
theorem object?_add (h : Heap) (o : Object) : h.object? (.ref (h.add o).1) = none := by
  show h.get? h.objects.size = none
  cases hx : h.get? h.objects.size with
  | none => rfl
  | some x => exact absurd (Heap.lt_of_get? hx) (Nat.lt_irrefl _)

/-- A namespace binds the public name of a function to a new wrapper of it, and what it bound
    there was a wrapper of a function with the same internal name. -/
structure Publishes (h : Heap) (g : Address) (f : FunctionInfo) (ns : Names Value) (w : Value)
    (h' : Heap) : Prop where
  names : h'.get? g = some (.names (Names.set ns (publicName f.name .function) w))
  isNew : h.object? w = none
  isWrapper : IsWrapperOf h' f.name w
  replaces : ∀ old, ns.lookup (publicName f.name .function) = some old → IsWrapperOf h f.name old

/-- How applying the contract of a function ends in its module. -/
inductive ApplicationEnds (h : Heap) (g a : Address) (f : FunctionInfo) (ns : Names Value) :
    Run Heap Thrown Value → Prop where
  | refused {e : Thrown} {h' : Heap} (hnames : h'.get? g = some (.names ns))
      (hsame : SameWrappers h h') : ApplicationEnds h g a f ns (.thrown e h')
  /-- The function has no contract. -/
  | nothing {specs : Specs} {h' : Heap} (hnames : h'.get? g = some (.names ns))
      (hm : Marked h a f specs h') (hc : (declared h' a f specs).hasContract = false) :
      ApplicationEnds h g a f ns (.done (.ref a) h')
  | published {w : Value} {h' : Heap} (hp : Publishes h g f ns w h') (hsame : SameWrappers h h') :
      ApplicationEnds h g a f ns (.done (.ref a) h')

/-- What the namespace of a module binds is there. -/
def Held (h : Heap) (ns : Names Value) : Prop := ∀ n u, ns.lookup n = some u → h.Holds u

section Application

variable {specs : Specs}

/-- An accepted function is published, or its wrapper cannot be made. -/
theorem publish_ends (hd : Defined h g a f) (hns : h.get? g = some (.names ns)) (hheld : Held h ns)
    (hm : Marked h a f specs h₁)
    (haccept : acceptFunction h₁ ns (declared h₁ a f specs) = .ok (some d)) :
    ApplicationEnds h g a f ns ((do
      let w ← makeWrapper d
      Comp.setNameAt g d.publicName w
      pure (.ref a) : Comp Value) h₁) := by
  have hsame := hm.sameWrappers hd
  have hns₁ : h₁.get? g = some (.names ns) := hm.others g _ (hd.ne hns) hns
  have haccepting : Accepting h₁ ns (declared h₁ a f specs) _ := accepting_acceptFunction rfl
  rw [haccept] at haccepting
  cases haccepting with
  | accepted hv hdescribe hfree =>
      obtain ⟨hpublic, hinternal⟩ := names_of_describe hv hdescribe
      have himplementation : d.implementation = some (.ref a) := by
        rw [(signature_of_describe hdescribe).2.1, (accepts_of_validateCallable hv).declaration]
        rfl
      have hfactory : d.isFactory = false := by
        rw [Descriptor.isFactory, (describes_of_describe hdescribe).role,
          (accepts_of_validateCallable hv).declaration]
        rfl
      rcases makeWrapper_ends himplementation hm.function with ⟨w, h₂, hmake, hgrows⟩ | ⟨e, hthrown⟩
      · obtain ⟨-, hcontract⟩ := makeWrapper_contract himplementation hm.function hfactory hmake
        have hns₂ : h₂.get? g = some (.names ns) := hgrows _ _ hns₁
        have hput := h₂.growsBut_put g (.names (Names.set ns d.publicName w))
        have hself : (h₂.put g (.names (Names.set ns d.publicName w))).get? g = _ :=
          Heap.get?_put_self hns₂
        rw [bind_of_done hmake, bind_of_done (setNameAt_done hns₂ _ _)]
        refine .published (w := w) ⟨?_, ?_, ⟨d, ?_, hinternal⟩, fun old hold => ?_⟩ ?_
        · rw [hself, hpublic]
          rfl
        · obtain ⟨info, -, -, rfl, -⟩ := makeWrapper_made himplementation hm.function hfactory hmake
          exact hsame.isNew (object?_add h₁ _)
        · exact hput.contract? hns₂ trivial hcontract
        · have hgives : IsWrapperOf h₁ f.name old := by
            by_contra hnot
            exact hfree ⟨old, hold, hnot⟩
          obtain ⟨d', hd', hname⟩ := hgives
          exact ⟨d', (hsame.contract? (hheld _ old hold)).symm.trans hd', hname⟩
        · exact hsame.trans (hgrows.sameWrappers.trans
            (hput.sameWrappers hns₂ trivial hself trivial))
      · have hrun : (makeWrapper d >>= fun w => (Comp.setNameAt g d.publicName w >>= fun _ =>
            pure (.ref a)) : Comp Value) h₁ = .thrown e h₁ := by
          show Run.bind (makeWrapper d h₁) _ = _
          rw [hthrown]
          rfl
        exact hrun ▸ .refused hns₁ hsame

/-- **ONE APPLICATION** is refused, or finds no contract, or publishes a wrapper; it changes no name
    but the public one, and that only if it stands for a wrapper of the same internal name. -/
theorem weaveFunction_ends (hd : Defined h g a f) (hns : h.get? g = some (.names ns))
    (hheld : Held h ns) (v v' : Value) :
    ApplicationEnds h g a f ns (weaveFunction (.ref a) v v' h) := by
  obtain ⟨specs, h₁, hm, hadd | ⟨e, hthrown⟩⟩ := addConditions_ends hd.function v v'
  · have hns₁ : h₁.get? g = some (.names ns) := hm.others g _ (hd.ne hns) hns
    rw [weaveFunction_done hadd hm.function hd.globals hns₁]
    cases haccept : acceptFunction h₁ ns (declared h₁ a f specs) with
    | error e =>
        rw [declared] at haccept
        rw [haccept]
        exact .refused hns₁ (hm.sameWrappers hd)
    | ok r =>
        cases r with
        | some d =>
            have hends := publish_ends hd hns hheld hm haccept
            rw [declared] at haccept
            rw [haccept]
            exact hends
        | none =>
            have haccepting : Accepting h₁ ns (declared h₁ a f specs) _ :=
              accepting_acceptFunction rfl
            rw [haccept] at haccepting
            rw [declared] at haccept
            rw [haccept]
            cases haccepting with
            | nothing hc => exact .nothing hns₁ hm hc
  · have hrun : weaveFunction (.ref a) v v' h = .thrown e h₁ := by
      unfold weaveFunction
      show Run.bind (addConditions (.ref a) v v' h) _ = _
      rw [hthrown]
      rfl
    exact hrun ▸ .refused (hm.others g _ (hd.ne hns) hns) (hm.sameWrappers hd)

/-- **A TAKEN NAME REFUSES** the function, and the namespace is as before. -/
theorem weaveFunction_taken (hd : Defined h g a f) (hns : h.get? g = some (.names ns))
    (hheld : Held h ns) (htaken : Taken h ns f.name) (hm : Marked h a f specs h₁)
    (hadd : addConditions (.ref a) v v' h = .done () h₁)
    (hc : (declared h₁ a f specs).hasContract = true)
    (hworks : Workable (declared h₁ a f specs) none []) :
    ∃ e, weaveFunction (.ref a) v v' h = .thrown (.rejected [e]) h₁ ∧
      h₁.get? g = some (.names ns) ∧ e.callableName = some f.name ∧
      ∀ made, validateCallable (declared h₁ a f specs) none [] = .ok (some made) →
        e.cause = .duplicateName (publicName f.name .function) f.name
          (presentOr (text? f.module) "module") .defined := by
  have hns₁ : h₁.get? g = some (.names ns) := hm.others g _ (hd.ne hns) hns
  have htaken₁ : Taken h₁ ns f.name := by
    obtain ⟨old, hold, hnot⟩ := htaken
    refine ⟨old, hold, fun ⟨d, hd', hname⟩ => hnot ⟨d, ?_, hname⟩⟩
    exact ((hm.sameWrappers hd).contract? (hheld _ old hold)).symm.trans hd'
  obtain ⟨e, haccept, hname, hcause⟩ :=
    acceptFunction_taken (c := declared h₁ a f specs) rfl hc hworks htaken₁
  refine ⟨e, ?_, hns₁, hname, hcause⟩
  rw [weaveFunction_done hadd hm.function hd.globals hns₁]
  rw [declared] at haccept
  rw [haccept]
  rfl

end Application

/-! ## A module over time -/

theorem holds_of_isWrapperOf (hw : IsWrapperOf h name w) : h.Holds w := by
  obtain ⟨d, hd, -⟩ := hw
  rw [contract?_eq] at hd
  refine ⟨?_, ?_⟩
  · rintro b rfl
    show (h.object? (.ref b)).isSome
    cases hx : h.object? (.ref b) with
    | none =>
        rw [hx] at hd
        cases hd
    | some x => rfl
  · rintro b r c rfl hbound
    have hobject : h.object? (.ref b) = some (.bound r (.ref c)) := hbound
    rw [hobject] at hd
    show (h.object? (.ref c)).isSome
    cases hx : h.object? (.ref c) with
    | none =>
        dsimp only at hd
        rw [hx] at hd
        cases hd
    | some x => rfl

/-- A binding of a namespace is there, and if it would give way to a function, it is among the
    wrappers that were published, each of them with the internal name of its function. -/
structure Owned (ps : List (String × Value)) (h : Heap) (ns : Names Value) : Prop where
  held : Held h ns
  published : ∀ name w, ns.lookup (publicName name .function) = some w → IsWrapperOf h name w →
    (name, w) ∈ ps

/-- The state in which a run has ended. -/
def Run.Ends {σ ε α : Type} (r : Run σ ε α) (s : σ) : Prop :=
  (∃ x, r = .done x s) ∨ ∃ e, r = .thrown e s

/-- The states of a module, with the wrappers that the contracts of its functions have published up
    to there. -/
inductive History (g : Address) : List (String × Value) → Heap → Prop where
  | start {h : Heap} {ns : Names Value} (hns : h.get? g = some (.names ns)) (ho : Owned [] h ns) :
      History g [] h
  /-- A contract is applied, and a wrapper is published. -/
  | published {ps : List (String × Value)} {h h' : Heap} {a : Address} {f : FunctionInfo}
      {ns : Names Value} {v v' w x : Value} (hist : History g ps h) (hd : Defined h g a f)
      (hns : h.get? g = some (.names ns)) (hrun : weaveFunction (.ref a) v v' h = .done x h')
      (hp : Publishes h g f ns w h') : History g ((f.name, w) :: ps) h'
  /-- A contract is applied, and nothing is published. -/
  | unpublished {ps : List (String × Value)} {h h' : Heap} {a : Address} {f : FunctionInfo}
      {ns : Names Value} {v v' : Value} (hist : History g ps h) (hd : Defined h g a f)
      (hns : h.get? g = some (.names ns)) (hrun : (weaveFunction (.ref a) v v' h).Ends h')
      (hnone : ∀ w, ¬ Publishes h g f ns w h') : History g ps h'
  /-- Whatever else happens, it brings in no wrapper that would give way. -/
  | other {ps : List (String × Value)} {h h' : Heap} {ns : Names Value} (hist : History g ps h)
      (hns : h'.get? g = some (.names ns)) (ho : Owned ps h' ns) : History g ps h'

section Run

variable {ps : List (String × Value)} {r : Run Heap Thrown Value}

theorem ApplicationEnds.sameWrappers (hd : Defined h g a f) (hr : ApplicationEnds h g a f ns r)
    (hends : r.Ends h') : SameWrappers h h' := by
  rcases hends with ⟨x, rfl⟩ | ⟨e, rfl⟩
  · cases hr with
    | nothing _ hm => exact hm.sameWrappers hd
    | published _ hsame => exact hsame
  · cases hr with
    | refused _ hsame => exact hsame

/-- What publishes nothing leaves the namespace as it is. -/
theorem ApplicationEnds.names (hr : ApplicationEnds h g a f ns r) (hends : r.Ends h')
    (hnone : ∀ w, ¬ Publishes h g f ns w h') : h'.get? g = some (.names ns) := by
  rcases hends with ⟨x, rfl⟩ | ⟨e, rfl⟩
  · cases hr with
    | nothing hnames => exact hnames
    | published hp => exact absurd hp (hnone _)
  · cases hr with
    | refused hnames => exact hnames

theorem SameWrappers.isWrapperOf (hs : SameWrappers h h') (hv : h.Holds v) :
    IsWrapperOf h' name v ↔ IsWrapperOf h name v := by
  unfold IsWrapperOf
  rw [hs.contract? hv]

/-- Wrappers that stay wrappers stay owned. -/
theorem Owned.kept (ho : Owned ps h ns) (hs : SameWrappers h h') : Owned ps h' ns where
  held := fun n u hu => hs.holds (ho.held n u hu)
  published := fun name w hw hwrapper =>
    ho.published name w hw ((hs.isWrapperOf (ho.held _ w hw)).mp hwrapper)

/-- A published wrapper is owned. -/
theorem Owned.publish (ho : Owned ps h ns) (hs : SameWrappers h h')
    (hp : Publishes h g f ns w h') :
    Owned ((f.name, w) :: ps) h' (Names.set ns (publicName f.name .function) w) where
  held := by
    intro n u hu
    rw [Names.lookup_set] at hu
    by_cases hn : n = publicName f.name .function
    · rw [if_pos hn] at hu
      cases hu
      exact holds_of_isWrapperOf hp.isWrapper
    · rw [if_neg hn] at hu
      exact hs.holds (ho.held n u hu)
  published := by
    intro name u hu hwrapper
    rw [Names.lookup_set] at hu
    by_cases hn : publicName name .function = publicName f.name .function
    · rw [if_pos hn] at hu
      cases hu
      -- a wrapper has one descriptor, and this one has the name of the function
      obtain ⟨d, hd, hname⟩ := hp.isWrapper
      obtain ⟨d', hd', rfl⟩ := hwrapper
      obtain rfl := Option.some.inj (hd.symm.trans hd')
      rw [hname]
      exact List.mem_cons_self
    · rw [if_neg hn] at hu
      exact List.mem_cons_of_mem _
        (ho.published name u hu ((hs.isWrapperOf (ho.held _ u hu)).mp hwrapper))

/-- **THE INVARIANT OF A MODULE**: what would give way was published. -/
theorem History.owned (hist : History g ps h) :
    ∃ ns, h.get? g = some (.names ns) ∧ Owned ps h ns := by
  induction hist with
  | start hns ho => exact ⟨_, hns, ho⟩
  | other _ hns ho => exact ⟨_, hns, ho⟩
  | published _ hd hns hrun hp ih =>
      obtain ⟨ns, hns', ho⟩ := ih
      cases hns.symm.trans hns'
      have hends := weaveFunction_ends hd hns ho.held
      exact ⟨_, hp.names, ho.publish ((hends _ _).sameWrappers hd (.inl ⟨_, hrun⟩)) hp⟩
  | unpublished _ hd hns hrun hnone ih =>
      obtain ⟨ns, hns', ho⟩ := ih
      cases hns.symm.trans hns'
      have hends := weaveFunction_ends hd hns ho.held
      exact ⟨_, (hends _ _).names hrun hnone, ho.kept ((hends _ _).sameWrappers hd hrun)⟩

/-- Some application has published a wrapper for a function with an internal name. -/
def WasPublished (g : Address) (name : String) (w : Value) : Prop :=
  ∃ h a f ns v v' x h', Defined h g a f ∧ f.name = name ∧
    weaveFunction (.ref a) v v' h = .done x h' ∧ Publishes h g f ns w h'

theorem History.wasPublished (hist : History g ps h) (hmem : (name, w) ∈ ps) :
    WasPublished g name w := by
  induction hist with
  | start => cases hmem
  | other _ _ _ ih | unpublished _ _ _ _ _ ih => exact ih hmem
  | published _ hd _ hrun hp ih =>
      rcases List.mem_cons.mp hmem with heq | hmem
      · cases heq
        exact ⟨_, _, _, _, _, _, _, _, hd, rfl, hrun, hp⟩
      · exact ih hmem

/-- What applying the contract of a function does to the names of its module. -/
structure KeepsNames (h : Heap) (g a : Address) (f : FunctionInfo) (v v' : Value)
    (ps : List (String × Value)) (ns : Names Value) : Prop where
  names : h.get? g = some (.names ns)
  /-- Nothing is bound anew but the public name. -/
  ends : ApplicationEnds h g a f ns (weaveFunction (.ref a) v v' h)
  /-- What gives way was published for a function with the same internal name. -/
  replaces : ∀ w h' old, Publishes h g f ns w h' →
    ns.lookup (publicName f.name .function) = some old →
    (f.name, old) ∈ ps ∧ WasPublished g f.name old
  /-- Anything else refuses a function that has a contract. -/
  refuses : ∀ specs h₁, Taken h ns f.name → Marked h a f specs h₁ →
    addConditions (.ref a) v v' h = .done () h₁ → (declared h₁ a f specs).hasContract = true →
    Workable (declared h₁ a f specs) none [] →
    ∃ e, weaveFunction (.ref a) v v' h = .thrown (.rejected [e]) h₁ ∧
      h₁.get? g = some (.names ns) ∧ e.callableName = some f.name ∧
      ∀ made, validateCallable (declared h₁ a f specs) none [] = .ok (some made) →
        e.cause = .duplicateName (publicName f.name .function) f.name
          (presentOr (text? f.module) "module") .defined

/-- **PUBLISHING KEEPS NAMES**: over every history of a module that brings in no wrapper of someone
    else, a contract only replaces what an earlier one has published for a function with the same
    internal name, and binds nothing else. -/
theorem publishing_keeps_names (hist : History g ps h) (hd : Defined h g a f) (v v' : Value) :
    ∃ ns, KeepsNames h g a f v v' ps ns := by
  obtain ⟨ns, hns, ho⟩ := hist.owned
  refine ⟨ns, hns, weaveFunction_ends hd hns ho.held v v', fun w h' old hp hold => ?_,
    fun specs h₁ htaken hm hadd hc hworks =>
      weaveFunction_taken hd hns ho.held htaken hm hadd hc hworks⟩
  have hmem := ho.published f.name old hold (hp.replaces old hold)
  exact ⟨hmem, hist.wasPublished hmem⟩

end Run

/-! ## Whose wrapper it is -/

/-- A function or method `_add` that asks for a positive amount. -/
def addingFunction (slots : List (Slot Value)) : FunctionInfo where
  name := "_add"
  qualname := "_add"
  slots := slots
  code := .result (.name default "amount" .load) { globals := 0 }
  specs := some { preconditions := [⟨"amount > 0", "positive"⟩] }

/-- A module with two functions of one name. -/
def twins : Heap :=
  ⟨#[.names [], .function (addingFunction (amountSlots.drop 1)),
    .function (addingFunction (amountSlots.drop 1))]⟩

/-- The class of the wrapper that a module has under the name `add`, if it has one there and that
    has a class. -/
def ownerOfAdd (h : Heap) : Option (Option String) :=
  match h.get? 0 with
  | some (.names ns) => ((ns.lookup "add").bind h.contract?).map (·.owner)
  | _ => none

/-- Whether an object is a function `_add` of the module. -/
def isAddAt (h : Heap) (a : Address) : Bool :=
  match h.get? a with
  | some (.function f) => f.name == "_add" && f.code.globals? == some 0
  | _ => false

theorem defined_of_isAddAt (ha : isAddAt h a = true) : ∃ f, Defined h 0 a f ∧ f.name = "_add" := by
  unfold isAddAt at ha
  split at ha
  · rename_i f hf
    rw [Bool.and_eq_true, beq_iff_eq, beq_iff_eq] at ha
    exact ⟨f, ⟨hf, ha.2⟩, ha.1⟩
  · cases ha

/-- The heap after the contract of a function has been applied. -/
def applied (a : Address) (h : Heap) : Option Heap :=
  match weaveFunction (.ref a) .none .none h with
  | .done _ h' => some h'
  | _ => none

theorem weaveFunction_of_applied (ha : applied a h = some h') :
    ∃ x, weaveFunction (.ref a) .none .none h = .done x h' := by
  unfold applied at ha
  split at ha
  · rename_i x h₁ hrun
    cases ha
    exact ⟨x, hrun⟩
  · cases ha

/-- Only a published wrapper is bound under a name that was free. -/
theorem publishes_of_bound (hd : Defined h 0 a f)
    (hns : h.get? 0 = some (.names ns)) (hheld : Held h ns) (hfree : ns.lookup "add" = none)
    (ha : applied a h = some h') (howner : (ownerOfAdd h').isSome = true) :
    ∃ w, Publishes h 0 f ns w h' := by
  by_contra hnone
  obtain ⟨x, hrun⟩ := weaveFunction_of_applied ha
  have hends := weaveFunction_ends hd hns hheld .none .none
  have hnames := hends.names (.inl ⟨x, hrun⟩) (not_exists.mp hnone)
  rw [ownerOfAdd, hnames] at howner
  dsimp only at howner
  rw [hfree] at howner
  cases howner

/-- Who has the name after each of two applications, and whether the second function is there in
    between. -/
def ownersOfAdd (first second : Address) (h : Heap) :
    Option (Bool × Option (Option String) × Option (Option String)) :=
  (applied first h).bind fun h' => (applied second h').map fun h'' =>
    (isAddAt h' second, ownerOfAdd h', ownerOfAdd h'')

/-- A function gives way to one of the same name. -/
theorem publishing_keeps_names_again : ∃ w h f ns h', History 0 [("_add", w)] h ∧
    Defined h 0 2 f ∧ KeepsNames h 0 2 f .none .none [("_add", w)] ns ∧
    applied 2 h = some h' ∧ ownerOfAdd h = some none ∧ ownerOfAdd h' = some none := by
  have howners : ownersOfAdd 1 2 twins = some (true, some none, some none) := by decide +kernel
  obtain ⟨h, happlied, hrest⟩ := Option.bind_eq_some_iff.mp howners
  obtain ⟨h', happlied', hpair⟩ := Option.map_eq_some_iff.mp hrest
  obtain ⟨hadd, howner, howner'⟩ : isAddAt h 2 = true ∧ ownerOfAdd h = some none ∧
      ownerOfAdd h' = some none := by
    simpa only [Prod.mk.injEq] using hpair
  have hstart : Owned [] twins [] := by
    refine ⟨?_, ?_⟩
    · intro n u hu
      cases hu
    · intro name w hw
      cases hw
  have hd : Defined twins 0 1 (addingFunction (amountSlots.drop 1)) := ⟨rfl, rfl⟩
  obtain ⟨w, hp⟩ := publishes_of_bound hd rfl hstart.held rfl happlied (by rw [howner]; rfl)
  obtain ⟨x, hrun⟩ := weaveFunction_of_applied happlied
  obtain ⟨f, hf, -⟩ := defined_of_isAddAt hadd
  have hist : History 0 [("_add", w)] h := (History.start rfl hstart).published hd rfl hrun hp
  obtain ⟨ns, hkeeps⟩ := publishing_keeps_names hist hf .none .none
  exact ⟨w, h, f, ns, h', hist, hf, hkeeps, happlied', howner, howner'⟩

/-- A class with a method `_add`. -/
def addingClass : ClassInfo where
  name := "Ledger"
  qualname := "Ledger"
  bases := [.type .object]
  line := [.ref 2, .type .object]
  fields := [("_add", .ref 1)]

/-- A module with the method, its class and a function of the same name. -/
def namesakes : Heap :=
  ⟨#[.names [], .function (addingFunction amountSlots), .cls addingClass,
    .function (addingFunction (amountSlots.drop 1))]⟩

/-- The heap after the class has been woven and the wrapper of its method has been given the name
    `add` in the module. -/
def borrowed : Option Heap :=
  match weaveClass [] (.ref 2) .none namesakes with
  | .done _ h => (h.classInfo? (.ref 2)).bind fun c => (c.fields.lookup "add").map fun w =>
      h.put 0 (.names [("add", w)])
  | _ => none

/-- The wrapper of a method gives way to that of a function, though nothing was published before. -/
theorem publishing_keeps_names_fails : ∃ h f x h', borrowed = some h ∧ Defined h 0 3 f ∧
    f.name = "_add" ∧ weaveFunction (.ref 3) .none .none h = .done x h' ∧
    ownerOfAdd h = some (some "Ledger") ∧ ownerOfAdd h' = some none := by
  have howners : (borrowed.bind fun h => (applied 3 h).map fun h' =>
      (isAddAt h 3, ownerOfAdd h, ownerOfAdd h')) = some (true, some (some "Ledger"), some none) := by
    decide +kernel
  obtain ⟨h, hborrowed, hrest⟩ := Option.bind_eq_some_iff.mp howners
  obtain ⟨h', happlied, hpair⟩ := Option.map_eq_some_iff.mp hrest
  obtain ⟨hadd, howner, howner'⟩ : isAddAt h 3 = true ∧ ownerOfAdd h = some (some "Ledger") ∧
      ownerOfAdd h' = some none := by
    simpa only [Prod.mk.injEq] using hpair
  obtain ⟨f, hf, hname⟩ := defined_of_isAddAt hadd
  obtain ⟨x, hrun⟩ := weaveFunction_of_applied happlied
  exact ⟨h, f, x, h', hborrowed, hf, hname, hrun, howner, howner'⟩

end Covenant.Machine
