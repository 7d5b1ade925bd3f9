import Covenant.Proofs.Machine.Decorators
import Covenant.Proofs.Machine.Installation
import Covenant.Proofs.Weaving.Placement
import Covenant.Proofs.Weaving.PublicNames

/-! # Stacks — decorators applied one around the other

    Decorators are applied from the innermost to the outermost.  Each of them
    puts its clauses in front of those that the function has, and the contract
    of a function makes a wrapper from what it finds at its turn. -/

namespace Covenant.Machine

open Condition Covenant.Source Covenant.Tree Declaration Signature Weaving Wrapper

variable {h h' h₀ : Heap} {a g : Address} {f : FunctionInfo} {v v' w : Value}
  {o o' : Option Conditions} {l : Layer} {ls : List Layer} {program : List Stmt} {n : Nat}

/-! ## Clauses on a function -/

/-- The clauses that a record has. -/
def termsOn (specs : Option Specs) : Terms :=
  ((specs.getD {}).preconditions, (specs.getD {}).postconditions)

/-- The function at an address has got another record, and nothing else was changed. -/
structure Marked (h : Heap) (a : Address) (f : FunctionInfo) (specs : Specs) (h' : Heap) :
    Prop where
  function : h'.get? a = some (.function { f with specs := some specs })
  others : Heap.GrowsBut a h h'

theorem changeSpecs_marks (hf : h.get? a = some (.function f)) (change : Specs → Specs) :
    ∃ h', changeSpecs (.ref a) change h = .done () h' ∧
      Marked h a f (change (f.specs.getD {})) h' := by
  have hobject : h.object? (.ref a) = some (.function f) := hf
  refine ⟨h.put a (.function { f with specs := some (change (f.specs.getD {})) }), ?_,
    Heap.get?_put_self hf, h.growsBut_put a _⟩
  unfold changeSpecs
  rw [bind_of_done (show Comp.heap h = .done h h from rfl), hobject]
  rfl

theorem Marked.change {specs : Specs} (hm : Marked h₀ a f specs h) (change : Specs → Specs) :
    ∃ h', changeSpecs (.ref a) change h = .done () h' ∧ Marked h₀ a f (change specs) h' := by
  obtain ⟨h', hdone, hm'⟩ := changeSpecs_marks hm.function change
  exact ⟨h', hdone, hm'.function, hm.others.trans hm'.others⟩

/-- Neither mappings nor decorators are where the function is. -/
theorem Marked.retains {specs : Specs} (hf : h.get? a = some (.function f))
    (hm : Marked h a f specs h') : Retains h h' := by
  intro v x hx hpart
  cases v with
  | ref b =>
      refine hm.others b x ?_ hx
      rintro rfl
      rcases hpart with ⟨ps, rfl⟩ | ⟨d, rfl⟩ <;> exact nomatch hf.symm.trans hx
  | atom | type | routine | module => exact nomatch hx

theorem clausesOf_gives (hv : Gives h o v) : clausesOf v h = .done (stated o) h := by
  cases o with
  | none =>
      obtain rfl : v = .none := hv
      rfl
  | some c => exact clausesOf_holds hv

/-- **CLAUSES ARE PUT IN FRONT** of those that the function has. -/
theorem addConditions_marks (hf : h.get? a = some (.function f)) (hv : Gives h o v)
    (hv' : Gives h o' v') : ∃ h' specs, addConditions (.ref a) v v' h = .done () h' ∧
      Marked h a f specs h' ∧
      termsOn (some specs) = (stated o ++ (termsOn f.specs).1, stated o' ++ (termsOn f.specs).2) := by
  obtain ⟨h₁, hchange₁, hm₁⟩ := changeSpecs_marks hf id
  obtain ⟨h₂, hchange₂, hm₂⟩ := hm₁.change fun s => s.withConditions (stated o) []
  obtain ⟨h₃, hchange₃, hm₃⟩ := hm₂.change fun s => s.withConditions [] (stated o')
  refine ⟨h₃, _, ?_, hm₃, rfl⟩
  unfold addConditions
  rw [bind_of_done hchange₁, bind_of_done (clausesOf_gives (hv.retained (hm₁.retains hf))),
    bind_of_done hchange₂, bind_of_done (clausesOf_gives (hv'.retained (hm₂.retains hf))), hchange₃]

/-! ## Wrappers -/

/-- The promises of a descriptor. -/
def termsOf (d : Descriptor Value) : Terms :=
  (d.preconditions.map promise, d.postconditions.map promise)

theorem Weaves.terms {c : Callable Value} {enclosing : Option (TypeDecl Value)}
    {invariants : List ParsedClause} {d : Descriptor Value}
    (hw : Weaves c enclosing invariants d) : termsOf d = c.terms :=
  Prod.ext hw.promises.1 hw.promises.2

/-- What a function is accepted with. -/
theorem of_acceptFunction {c : Callable Value} {names : Names Value}
    {r : Option (Descriptor Value)} (h : acceptFunction h₀ names c = .ok r) :
    (r = none ∧ c.hasContract = false) ∨ ∃ d, r = some d ∧ c.hasContract = true ∧
      Weaves c none [] d := by
  unfold acceptFunction at h
  dsimp only at h
  split at h
  · exact nomatch h
  · exact nomatch h
  · rename_i d after hd
    cases h
    cases comesTo_of_weaveCallable hd with
    | woven hc hw _ => exact .inr ⟨d, rfl, hc, hw⟩
  · rename_i after hd
    cases h
    cases comesTo_of_weaveCallable hd with
    | nothing hc => exact .inl ⟨rfl, hc⟩

/-- The wrapper of a function is one new object. -/
theorem makeWrapper_made {d : Descriptor Value} (hv : d.implementation = some v)
    (hf : h.object? v = some (.function f)) (hfactory : d.isFactory = false)
    (hdone : makeWrapper d h = .done w h') : ∃ info slots, info.code = .checked d v slots ∧
      w = .ref (h.add (.function info)).1 ∧ h' = (h.add (.function info)).2 := by
  cases hinfo : wrapperInfo d v f with
  | error fault => cases (makeWrapper_of_error hv hf hinfo).symm.trans hdone
  | ok info =>
      obtain ⟨slots, hcode⟩ : ∃ slots, info.code = .checked d v slots := by
        unfold wrapperInfo at hinfo
        obtain ⟨slots, -, hinfo⟩ := bind_eq_ok.mp hinfo
        obtain ⟨published, -, hinfo⟩ := bind_eq_ok.mp hinfo
        cases hinfo
        exact ⟨slots, rfl⟩
      have hmade : makeWrapper d h
          = .done (.ref (h.add (.function info)).1) (h.add (.function info)).2 := by
        have hobject : Comp.object? v h = .done (h.object? v) h := rfl
        have himplementation : Comp.ofOption .wrongValue (some v) h = .done v h := rfl
        rw [makeWrapper, hv, bind_of_done himplementation, bind_of_done hobject, hf]
        simp only [hinfo, hfactory]
        rfl
      rw [hmade] at hdone
      cases hdone
      exact ⟨info, slots, hcode, rfl, rfl⟩

/-- The wrapper of a function is found with its descriptor. -/
theorem makeWrapper_contract {d : Descriptor Value} (hv : d.implementation = some v)
    (hf : h.object? v = some (.function f)) (hfactory : d.isFactory = false)
    (hdone : makeWrapper d h = .done w h') : h.Grows h' ∧ h'.contract? w = some d := by
  refine ⟨growing_makeWrapper d h w h' hdone, ?_⟩
  obtain ⟨info, slots, hcode, rfl, rfl⟩ := makeWrapper_made hv hf hfactory hdone
  have hobject : (h.add (.function info)).2.object? (.ref (h.add (.function info)).1)
      = some (.function info) := h.get?_add_self _
  obtain ⟨name, qualname, module, doc, slots', hints, isAsync, code, specs, fields⟩ := info
  dsimp only at hcode
  subst hcode
  unfold Heap.contract?
  simp only [hobject]

theorem namesAt_done {ns : Names Value} (hns : h.get? g = some (.names ns)) :
    Comp.namesAt g h = .done ns h := by
  unfold Comp.namesAt
  rw [bind_of_done (show Comp.heap h = .done h h from rfl), hns]
  rfl

theorem setNameAt_done {ns : Names Value} (hns : h.get? g = some (.names ns)) (name : String)
    (v : Value) : Comp.setNameAt g name v h
      = .done () (h.put g (.names (Names.set ns name v))) := by
  unfold Comp.setNameAt
  rw [bind_of_done (namesAt_done hns)]
  rfl

/-- Whether an object is neither a wrapper nor binds a function. -/
def IsPlain : Object → Prop
  | .bound .. => False
  | .function { code := .checked .., .. } => False
  | _ => True

/-- What a value is a wrapper by is not plain. -/
theorem exists_not_plain {d : Descriptor Value} (hv : (match h.object? v with
      | some (.function { code := .checked d _ _, .. }) => some d
      | _ => none) = some d) : ∃ y, h.object? v = some y ∧ ¬ IsPlain y := by
  split at hv
  · rename_i hy
    exact ⟨_, hy, id⟩
  · cases hv

/-- Changing an object that is no wrapper changes no wrapper. -/
theorem Heap.GrowsBut.contract? {x : Object} {d : Descriptor Value}
    (hg : Heap.GrowsBut a h h') (hx : h.get? a = some x) (hplain : IsPlain x)
    (hd : h.contract? w = some d) : h'.contract? w = some d := by
  have hkept : ∀ v y, h.object? v = some y → ¬ IsPlain y → h'.object? v = some y := by
    intro v y hy hne
    cases v with
    | ref b =>
        refine hg b y ?_ hy
        rintro rfl
        exact hne (Option.some.inj (hx.symm.trans hy) ▸ hplain)
    | atom | type | routine | module => cases hy
  unfold Heap.contract? at hd ⊢
  dsimp only at hd ⊢
  cases hobject : h.object? w with
  | none =>
      rw [hobject] at hd
      cases hd
  | some y =>
      rw [hobject] at hd
      cases y with
      | bound r v =>
          obtain ⟨y, hy, hnot⟩ := exists_not_plain hd
          rw [hkept w _ hobject id]
          dsimp only at hd ⊢
          rw [hkept v y hy hnot, ← hy]
          exact hd
      | function info =>
          obtain ⟨y, hy, hnot⟩ := exists_not_plain (h := h) (v := w) (by rw [hobject]; exact hd)
          rw [hkept w y hy hnot, ← hy, hobject]
          exact hd
      | _ => cases hd

/-- What a namespace has under the public name of a function whose contract has found some
    clauses: the wrapper that promises them, or what it had if there are none. -/
inductive Publication (h : Heap) (a : Address) (name : String) (before : Names Value)
    (t : Terms) : Names Value → Prop where
  | nothing (ht : t = ([], [])) : Publication h a name before t before
  | wrapper {after : Names Value} {w : Value} {d : Descriptor Value} (ht : t ≠ ([], []))
      (hname : publicName name .function ≠ name)
      (hw : after.lookup (publicName name .function) = some w) (hd : h.contract? w = some d)
      (himplementation : d.implementation = some (.ref a)) (hterms : termsOf d = t)
      (hothers : ∀ n, n ≠ publicName name .function → after.lookup n = before.lookup n) :
      Publication h a name before t after

/-- The namespace of the module that a function was made in; a wrapper has none. -/
def Code.globals? : Code → Option Address
  | .block _ s _ | .result _ s => some s.globals
  | .checked .. => none

/-- What the contract of a function does once the clauses are in the record. -/
theorem weaveFunction_done {f : FunctionInfo} {specs : Specs} {ns : Names Value}
    (hadd : addConditions (.ref a) v v' h = .done () h₁)
    (hobject : h₁.object? (.ref a) = some (.function { f with specs := some specs }))
    (hcode : f.code.globals? = some g) (hns : h₁.get? g = some (.names ns)) :
    weaveFunction (.ref a) v v' h
      = (match acceptFunction h₁ ns (describeFunction h₁ (.ref a) { f with specs := some specs }
          f.name .function specs.isInvariant) with
        | .error e => Comp.throw e
        | .ok none => pure (.ref a)
        | .ok (some d) => do
          let w ← makeWrapper d
          Comp.setNameAt g d.publicName w
          pure (.ref a) : Comp Value) h₁ := by
  unfold weaveFunction
  rw [bind_of_done hadd, bind_of_done (show Comp.heap h₁ = .done h₁ h₁ from rfl), hobject]
  obtain ⟨name, qualname, module, doc, slots, hints, isAsync, code, specs', fields⟩ := f
  dsimp only at hcode ⊢
  cases code with
  | checked => cases hcode
  | block _ s _ | result _ s =>
      cases hcode
      show (Comp.namesAt s.globals >>= fun ns => _) h₁ = _
      rw [bind_of_done (namesAt_done hns)]
      rfl

/-- **THE CONTRACT OF A FUNCTION** publishes a wrapper that promises the clauses of its record. -/
theorem weaveFunction_publishes {body : List Stmt} {s : Scope} {locals : List String}
    {ns : Names Value} (hf : h.get? a = some (.function f)) (hcode : f.code = .block body s locals)
    (hns : h.get? s.globals = some (.names ns)) (hv : Gives h o v) (hv' : Gives h o' v')
    (hdone : weaveFunction (.ref a) v v' h = .done w h') :
    w = .ref a ∧ ∃ specs after, h'.get? a = some (.function { f with specs := some specs }) ∧
      termsOn (some specs) = (stated o ++ (termsOn f.specs).1, stated o' ++ (termsOn f.specs).2) ∧
      (∀ b x, b ≠ a → b ≠ s.globals → h.get? b = some x → h'.get? b = some x) ∧
      h'.get? s.globals = some (.names after) ∧
      Publication h' a f.name ns (termsOn (some specs)) after := by
  obtain ⟨h₁, specs, hadd, hm, hterms⟩ := addConditions_marks hf hv hv'
  have hobject : h₁.object? (.ref a) = some (.function { f with specs := some specs }) :=
    hm.function
  have hne : s.globals ≠ a := by
    rintro heq
    rw [heq] at hns
    cases hf.symm.trans hns
  have hns₁ : h₁.get? s.globals = some (.names ns) := hm.others _ _ hne hns
  obtain ⟨c, hc⟩ : ∃ c, c = describeFunction h₁ (.ref a) { f with specs := some specs } f.name
    .function specs.isInvariant := ⟨_, rfl⟩
  have hrest := (weaveFunction_done hadd hobject (hcode ▸ rfl) hns₁).symm.trans hdone
  rw [← hc] at hrest
  have hfound : c.terms = termsOn (some specs) := by
    rw [hc]
    rfl
  cases haccept : acceptFunction h₁ ns c with
  | error e =>
      rw [haccept] at hrest
      cases hrest
  | ok r =>
      rw [haccept] at hrest
      rcases of_acceptFunction haccept with ⟨rfl, hnone⟩ | ⟨d, rfl, hsome, hw⟩
      · -- without clauses nothing is published
        cases hrest
        have hnothing : termsOn (some specs) = ([], []) := by
          rw [← hfound]
          unfold Callable.hasContract at hnone
          simp only [Bool.or_eq_false_iff, Bool.not_eq_false', List.isEmpty_iff] at hnone
          exact Prod.ext hnone.1.1 hnone.1.2
        refine ⟨rfl, specs, ns, hm.function, hterms, ?_, hns₁, .nothing hnothing⟩
        exact fun b x hb _ hx => hm.others b x hb hx
      · obtain ⟨w₁, h₂, hmake, hpublish⟩ := Run.bind_eq_done hrest
        have hterms' : termsOf d = termsOn (some specs) := (Weaves.terms hw).trans hfound
        obtain ⟨validated, hvalidated, hdescribed⟩ := hw
        have haccepts := accepts_of_validateCallable hvalidated
        obtain ⟨hpublic, himplementation, -⟩ := signature_of_describe hdescribed
        have hrole := (describes_of_describe hdescribed).role
        rw [haccepts.declaration, hc] at hpublic himplementation hrole
        have hfactory : d.isFactory = false := by
          unfold Descriptor.isFactory
          rw [hrole]
          rfl
        have hplaced := placementFault?_eq_none.mp haccepts.placed
        have hname : publicName f.name .function ≠ f.name := by
          have hprivate := hplaced.privateName
          rw [hc] at hprivate
          exact publicName_ne_self hprivate
        have hsomething : termsOn (some specs) ≠ ([], []) := by
          intro hnothing
          rw [← hfound] at hnothing
          obtain ⟨hpre, hpost⟩ := Prod.mk.inj hnothing
          rw [Callable.hasContract, hpre, hpost, (hplaced.enclosed rfl).2] at hsome
          cases hsome
        obtain ⟨hg₂, hcontract⟩ := makeWrapper_contract himplementation hobject hfactory hmake
        have hns₂ := hg₂ _ _ hns₁
        rw [bind_of_done (setNameAt_done hns₂ _ _)] at hpublish
        cases hpublish
        have hput := h₂.growsBut_put s.globals (.names (Names.set ns d.publicName w₁))
        refine ⟨rfl, specs, Names.set ns d.publicName w₁, ?_, hterms, ?_, ?_, ?_⟩
        · exact hput a _ hne.symm (hg₂ _ _ hm.function)
        · exact fun b x hb hbg hx => hput b x hbg (hg₂ b x (hm.others b x hb hx))
        · exact Heap.get?_put_self hns₂
        · have hpublic : d.publicName = publicName f.name .function := hpublic
          refine .wrapper hsomething hname ?_ (hput.contract? hns₂ trivial hcontract) himplementation
            hterms' fun n hn => ?_
          · rw [Names.lookup_set, if_pos hpublic.symm]
          · rw [Names.lookup_set, if_neg (hpublic ▸ hn)]

/-! ## One layer -/

/-- A decorator that is called with its target is applied to it. -/
theorem call_decorator {d : Decorator} (hd : h.object? v = some (.decorator d)) (x : Value) :
    (level program (n + 1)).call v [x] [] h = applyDecorator program d x h := by
  cases v with
  | ref b =>
      show callValue (level program n) program (.ref b) [x] [] h = _
      unfold callValue
      rw [bind_of_done (show Comp.heap h = .done h h from rfl), hd]
  | atom | type | routine | module => exact nomatch hd

/-- Whatever a layer means, it is applied to a function that it is called with. -/
theorem exists_decorator (hv : Means h l v) (hdone : (level program (n + 1)).call v [.ref a] [] h
      = .done w h') : ∃ d, Waits h l d ∧ applyDecorator program d (.ref a) h = .done w h' := by
  cases hv with
  | waiting hd hw => exact ⟨_, hw, (call_decorator hd (.ref a)).symm.trans hdone⟩
  | routine hmark =>
      cases hm : l.marker with
      | invariant =>
          rw [hm] at hdone
          exact ⟨.invariant, .invariant hm, hdone⟩
      | constructor =>
          rw [hm] at hdone
          exact ⟨.constructor, .constructor hm, hdone⟩
      | precondition | postcondition | functionContract =>
          rw [hm] at hmark
          exact nomatch hmark

/-- A function as layers have left it: its record has their clauses, and the namespace of its
    module has what the outermost contract among them has published. -/
structure Built (h : Heap) (a g : Address) (f : FunctionInfo) (before : Names Value)
    (ls : List Layer) (h' : Heap) : Prop where
  function : ∃ specs, h'.get? a = some (.function { f with specs := specs }) ∧
    termsOn specs = recorded ls
  names : ∃ after, h'.get? g = some (.names after) ∧
    Publication h' a f.name before (publishedBy ls) after
  others : ∀ b x, b ≠ a → b ≠ g → h.get? b = some x → h'.get? b = some x

section Layers

variable {before : Names Value} {body : List Stmt} {s : Scope} {locals : List String}
  {h₁ h₂ : Heap}

theorem Built.ne (hb : Built h a g f before ls h₁) : g ≠ a := by
  obtain ⟨specs, hf, -⟩ := hb.function
  obtain ⟨after, hg, -⟩ := hb.names
  rintro rfl
  exact nomatch hf.symm.trans hg

/-- A layer that only changes the record publishes nothing. -/
theorem Built.marked {specs₁ : Option Specs} {specs : Specs} (hb : Built h a g f before ls h₁)
    (hcode : f.code = .block body s locals)
    (hf : h₁.get? a = some (.function { f with specs := specs₁ }))
    (hm : Marked h₁ a { f with specs := specs₁ } specs h₂)
    (hterms : termsOn (some specs) = recorded (l :: ls)) (hl : l.isContract = false) :
    Built h a g f before (l :: ls) h₂ where
  function := ⟨some specs, hm.function, hterms⟩
  names := by
    obtain ⟨after, hg, hpublication⟩ := hb.names
    refine ⟨after, hm.others g _ hb.ne hg, ?_⟩
    rw [published_cons_of_other hl]
    cases hpublication with
    | nothing ht => exact .nothing ht
    | wrapper ht hname hw hd himplementation hterms hothers =>
        have hplain : IsPlain (.function { f with specs := specs₁ }) := by
          obtain ⟨name, qualname, module, doc, slots, hints, isAsync, code, specs, fields⟩ := f
          dsimp only at hcode
          subst hcode
          exact trivial
        exact .wrapper ht hname hw (hm.others.contract? hf hplain hd) himplementation hterms
          hothers
  others := fun b x hb' hg' hx => hm.others b x hb' (hb.others b x hb' hg' hx)

/-- What is published anew takes the place of what was published before. -/
theorem Publication.again {after after' : Names Value} {t t' : Terms}
    (hp : Publication h₁ a f.name before t after)
    (hp' : Publication h₂ a f.name after t' after') (ht : t' = ([], []) → t = ([], [])) :
    Publication h₂ a f.name before t' after' := by
  cases hp' with
  | nothing ht' =>
      cases hp with
      | nothing => exact .nothing ht'
      | wrapper hne => exact absurd (ht ht') hne
  | wrapper hne hname hw hd himplementation hterms hothers =>
      refine .wrapper hne hname hw hd himplementation hterms fun n hn => (hothers n hn).trans ?_
      cases hp with
      | nothing => rfl
      | wrapper _ _ _ _ _ _ hothers => exact hothers n hn

/-- A mark leaves the clauses as they are. -/
theorem Built.mark (hb : Built h a g f before ls h₁) (hcode : f.code = .block body s locals)
    {change : Specs → Specs} (hchange : ∀ specs, termsOn (some (change specs)) = termsOn (some specs))
    (hm : l.marker.isMark = true)
    (hdone : (changeSpecs (.ref a) change >>= fun _ => pure (.ref a)) h₁ = .done w h₂) :
    w = .ref a ∧ Built h a g f before (l :: ls) h₂ := by
  obtain ⟨specs, hf, hrecorded⟩ := hb.function
  obtain ⟨h₃, hchanged, hmarked⟩ := changeSpecs_marks hf change
  rw [bind_of_done hchanged] at hdone
  cases hdone
  refine ⟨rfl, hb.marked hcode hf hmarked ?_ ?_⟩
  · rw [hchange, recorded_cons, Layer.preconditions, Layer.postconditions, ← hrecorded]
    cases hmarker : l.marker with
    | invariant | constructor => rfl
    | precondition | postcondition | functionContract =>
        rw [hmarker] at hm
        cases hm
  · rw [Layer.isContract]
    cases hmarker : l.marker with
    | invariant | constructor | precondition | postcondition => rfl
    | functionContract =>
        rw [hmarker] at hm
        cases hm

/-- Clauses are added in front, and published later if at all. -/
theorem Built.add (hb : Built h a g f before ls h₁) (hcode : f.code = .block body s locals)
    (hv : Gives h₁ o v) (hv' : Gives h₁ o' v')
    (hterms : (l.preconditions, l.postconditions) = (stated o, stated o'))
    (hl : l.isContract = false)
    (hdone : (addConditions (.ref a) v v' >>= fun _ => pure (.ref a)) h₁ = .done w h₂) :
    w = .ref a ∧ Built h a g f before (l :: ls) h₂ := by
  obtain ⟨specs, hf, hrecorded⟩ := hb.function
  obtain ⟨h₃, specs', hadd, hmarked, hadded⟩ := addConditions_marks hf hv hv'
  rw [bind_of_done hadd] at hdone
  cases hdone
  obtain ⟨hpre, hpost⟩ := Prod.mk.inj hterms
  refine ⟨rfl, hb.marked hcode hf hmarked ?_ hl⟩
  rw [hadded, recorded_cons, hpre, hpost, ← hrecorded]

/-- **ONE LAYER** puts its clauses in front of those under it.  The contract of a function publishes
    all of these, and any other layer publishes nothing. -/
theorem Built.layer (hb : Built h a s.globals f before ls h₁)
    (hcode : f.code = .block body s locals) (hv : Means h₁ l v)
    (hdone : (level program (n + 1)).call v [.ref a] [] h₁ = .done w h₂) :
    w = .ref a ∧ Built h a s.globals f before (l :: ls) h₂ := by
  obtain ⟨d, hd, hdone⟩ := exists_decorator hv hdone
  cases hd with
  | invariant hm =>
      have hrest : (changeSpecs (.ref a) (fun s => { s with isInvariant := true }) >>= fun _ =>
          pure (.ref a)) h₁ = .done w h₂ := hdone
      refine hb.mark hcode ?_ ?_ hrest
      · exact fun _ => rfl
      · rw [hm]
        rfl
  | constructor hm =>
      have hrest : (changeSpecs (.ref a) (fun s => { s with isConstructor := true }) >>= fun _ =>
          pure (.ref a)) h₁ = .done w h₂ := hdone
      refine hb.mark hcode ?_ ?_ hrest
      · exact fun _ => rfl
      · rw [hm]
        rfl
  | precondition hm hv =>
      refine hb.add hcode hv (show Gives h₁ none .none from rfl) ?_ ?_ hdone
      · rw [Layer.preconditions, Layer.postconditions, hm]
        rfl
      · rw [Layer.isContract, hm]
        rfl
  | postcondition hm hv =>
      refine hb.add hcode (show Gives h₁ none .none from rfl) hv ?_ ?_ hdone
      · rw [Layer.preconditions, Layer.postconditions, hm]
        rfl
      · rw [Layer.isContract, hm]
        rfl
  | functionContract hm hpre hpost =>
      obtain ⟨specs, hf, hrecorded⟩ := hb.function
      obtain ⟨after, hg, hpublication⟩ := hb.names
      obtain ⟨rfl, specs', after', hf', hterms, hothers, hg', hpublication'⟩ :=
        weaveFunction_publishes hf hcode hg hpre hpost hdone
      have hall : termsOn (some specs') = recorded (l :: ls) := by
        rw [hterms, recorded_cons, Layer.preconditions, Layer.postconditions, hm, ← hrecorded]
      have hcontract : l.isContract = true := by
        rw [Layer.isContract, hm]
        rfl
      rw [hall, ← published_cons_of_contract hcontract] at hpublication'
      refine ⟨rfl, ⟨some specs', hf', hall⟩, ⟨after', hg', hpublication.again hpublication' ?_⟩, ?_⟩
      · intro hnothing
        rw [published_cons_of_contract hcontract, recorded_cons] at hnothing
        obtain ⟨hpre, hpost⟩ := Prod.mk.inj hnothing
        exact published_eq_nil (Prod.ext (List.append_eq_nil_iff.mp hpre).2
          (List.append_eq_nil_iff.mp hpost).2)
      · exact fun b x hb' hg' hx => hothers b x hb' hg' (hb.others b x hb' hg' hx)

/-! ## All layers -/

/-- A function without a record, before any layer. -/
theorem Built.start (hf : h.get? a = some (.function f)) (hspecs : f.specs = none)
    (hg : h.get? g = some (.names before)) : Built h a g f before [] h where
  function := ⟨none, by rw [hf, ← hspecs], rfl⟩
  names := ⟨before, hg, .nothing rfl⟩
  others := fun _ _ _ _ hx => hx

theorem Built.retains (hf : h.get? a = some (.function f)) (hg : h.get? g = some (.names before))
    (hb : Built h a g f before ls h₁) : Retains h h₁ := by
  intro v x hx hpart
  cases v with
  | ref b =>
      refine hb.others b x ?_ ?_ hx
      · rintro rfl
        rcases hpart with ⟨ps, rfl⟩ | ⟨d, rfl⟩ <;> exact nomatch hf.symm.trans hx
      · rintro rfl
        rcases hpart with ⟨ps, rfl⟩ | ⟨d, rfl⟩ <;> exact nomatch hg.symm.trans hx
  | atom | type | routine | module => exact nomatch hx

section Run

variable (hf : h.get? a = some (.function f)) (hg : h.get? s.globals = some (.names before))
  (hcode : f.code = .block body s locals)
include hf hg hcode

/-- More layers around those that were applied, the innermost of them first. -/
theorem Built.layers {more : List Layer} {vs : List Value}
    (hb : Built h a s.globals f before ls h₁) (hvs : List.Forall₂ (Means h) more vs)
    (hdone : vs.foldlM (fun v d => (level program (n + 1)).call d [v] []) (.ref a) h₁
      = .done w h₂) :
    w = .ref a ∧ Built h a s.globals f before (more.reverse ++ ls) h₂ := by
  induction hvs generalizing ls h₁ with
  | nil =>
      cases hdone
      exact ⟨rfl, hb⟩
  | @cons l v more vs hv _ ih =>
      have hrest : ((level program (n + 1)).call v [.ref a] [] >>= fun u =>
          vs.foldlM (fun v d => (level program (n + 1)).call d [v] []) u) h₁ = .done w h₂ := hdone
      obtain ⟨u, h₃, hcall, hrest⟩ := Run.bind_eq_done hrest
      obtain ⟨rfl, hb'⟩ := hb.layer hcode (hv.retained (hb.retains hf hg)) hcall
      rw [List.reverse_cons, List.append_assoc]
      exact ih hb' hrest

/-- **A STACK OF DECORATORS** gives the function back, with the clauses of all layers in the order of
    the text, and has published those that its outermost contract has found. -/
theorem decorate_builds {vs : List Value} (hspecs : f.specs = none)
    (hvs : List.Forall₂ (Means h) ls vs)
    (hdone : decorate (level program (n + 1)) vs (.ref a) h = .done w h₁) :
    w = .ref a ∧ Built h a s.globals f before ls h₁ := by
  have hall := Built.layers hf hg hcode (.start hf hspecs hg) (List.forall₂_reverse_iff.mpr hvs) hdone
  rwa [List.reverse_reverse, List.append_nil] at hall

end Run

/-! ## Definitions -/

/-- Whether what is evaluated between the decorators of a definition and its function changes no object. -/
structure Quiet (host : Host) (s : Scope) (head : FunctionHead) : Prop where
  defaults : (evaluateItems host s head.formals.defaults).Growing
  named : (head.formals.named.mapM fun p => evaluateOption host s p.2).Growing
  hints : (hintsOf host s head).Growing

variable {head : FunctionHead} {flow : Flow}

/-- **A DEFINITION** evaluates its decorators, makes the function, and stores it with what its layers
    have left. -/
theorem execute_builds
    (hwritten : List.Forall₂ (Layer.Written (StandsFor (level program (n + 1)) s h)) ls
      head.decorators)
    (hquiet : Quiet (level program (n + 1)) s head) (hg : h.get? s.globals = some (.names before))
    (hdone : execute (level program (n + 1)) s (.function head body) h = .done flow h') :
    ∃ a f h₁ h₂, h.Grows h₁ ∧ h₁.get? a = some (.function f) ∧ f.name = head.name ∧
      Built h₁ a s.globals f before ls h₂ ∧
      Comp.store s (s.nameHere head.name) (.ref a) h₂ = .done () h' := by
  rw [execute] at hdone
  obtain ⟨vs, h₁, hvs, hdone⟩ := Run.bind_eq_done hdone
  obtain ⟨defaults, h₂, hdefaults, hdone⟩ := Run.bind_eq_done hdone
  obtain ⟨named, h₃, hnamed, hdone⟩ := Run.bind_eq_done hdone
  obtain ⟨hints, h₄, hhints, hdone⟩ := Run.bind_eq_done hdone
  obtain ⟨v, h₅, hmake, hdone⟩ := Run.bind_eq_done hdone
  obtain ⟨w, h₆, hdecorate, hdone⟩ := Run.bind_eq_done hdone
  obtain ⟨⟨⟩, h₇, hstore, hdone⟩ := Run.bind_eq_done hdone
  cases hdone
  obtain ⟨hg₁, hmeans⟩ := evaluateItems_layers hwritten (.refl h) hvs
  have hg₄ : h₁.Grows h₄ := (hquiet.defaults _ _ _ hdefaults).trans
    ((hquiet.named _ _ _ hnamed).trans (hquiet.hints _ _ _ hhints))
  unfold makeFunction at hmake
  obtain ⟨module, h₅', hmodule, hmake⟩ := Run.bind_eq_done hmake
  have hg₅ : h₄.Grows h₅' := growing_bind (growing_namesAt s.globals) (fun _ => growing_pure _)
    h₄ module h₅' hmodule
  obtain ⟨f, hf⟩ : ∃ f, Comp.make (.function f) h₅' = .done v h₅ ∧ f.name = head.name ∧
      f.specs = none ∧ ∃ s' locals, f.code = .block body s' locals ∧ s'.globals = s.globals :=
    ⟨_, hmake, rfl, rfl, _, _, rfl, rfl⟩
  obtain ⟨hmade, hname, hspecs, s', locals, hcode, hglobals⟩ := hf
  have hgrown : h.Grows (h₅'.add (.function f)).2 :=
    hg₁.trans (hg₄.trans (hg₅.trans (h₅'.grows_add _)))
  have hself : (h₅'.add (.function f)).2.get? (h₅'.add (.function f)).1 = some (.function f) :=
    h₅'.get?_add_self _
  cases hmade
  have hretains : Retains h₁ (h₅'.add (.function f)).2 :=
    (hg₄.trans (hg₅.trans (h₅'.grows_add _))).retains
  rw [← hglobals] at hg ⊢
  obtain ⟨rfl, hbuilt⟩ := decorate_builds hself (hgrown _ _ hg) hcode hspecs
    (hmeans.imp fun _ _ hv => hv.retained hretains) hdecorate
  exact ⟨_, f, _, h₆, hgrown, hself, hname, hbuilt, hstore⟩

end Layers

end Covenant.Machine
