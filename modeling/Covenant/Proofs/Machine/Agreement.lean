import Covenant.Proofs.Machine.Stacks

/-! # Agreement — clauses that are enforced and clauses that are read

    The same definition declares a contract twice: when it is executed, by the
    decorators, and when its text is read, by their literals.

    * `stored_publication`: the function of a module is published with the
      clauses that its outermost contract has found.
    * `woven_members`: a member is installed with the clauses of all its layers.
    * `stacked_clauses` compares both with what is read.  They agree for a
      member unless the contract of a function is among its layers, and for a
      function unless some layer above its contract states a clause
      (`stacked_clauses_late`). -/

namespace Covenant.Machine

open Condition Covenant.Source Covenant.Tree Declaration Signature Weaving Wrapper

variable {h h' h₁ h₂ h₃ : Heap} {a b g : Address} {f : FunctionInfo} {c : ClassInfo} {v w : Value}
  {ls : List Layer} {program : List Stmt} {n : Nat} {before : Names Value}

/-! ## Stored functions -/

/-- Where a definition has stored a function. -/
theorem stored {s : Scope} {name : String} {ns : Names Value} (hb : Built h a g f before ls h₁)
    (hf : h.get? a = some (.function f)) (hns : h.get? (Comp.home s name) = some (.names ns))
    (hstore : Comp.store s name (.ref a) h₁ = .done () h') :
    ∃ ns₁, h₁.get? (Comp.home s name) = some (.names ns₁) ∧
      h' = h₁.put (Comp.home s name) (.names (Names.set ns₁ name (.ref a))) := by
  obtain ⟨ns₁, hns₁⟩ : ∃ ns₁, h₁.get? (Comp.home s name) = some (.names ns₁) := by
    by_cases hglobal : Comp.home s name = g
    · obtain ⟨after, hg, -⟩ := hb.names
      exact ⟨after, hglobal ▸ hg⟩
    · refine ⟨ns, hb.others _ _ ?_ hglobal hns⟩
      rintro heq
      rw [heq] at hns
      exact nomatch hf.symm.trans hns
  refine ⟨ns₁, hns₁, ?_⟩
  unfold Comp.store at hstore
  rw [setNameAt_done hns₁] at hstore
  cases hstore
  rfl

/-- **A FUNCTION IN ITS MODULE** is there under its name, and under its public name what its contract
    has published. -/
theorem stored_publication {name : String} (hb : Built h a g f before ls h₁) (hname : f.name = name)
    {after : Names Value} (hg : h₁.get? g = some (.names after))
    (hput : h' = h₁.put g (.names (Names.set after name (.ref a)))) :
    ∃ after', h'.get? g = some (.names after') ∧
      Publication h' a name (Names.set before name (.ref a)) (publishedBy ls) after' := by
  refine ⟨Names.set after name (.ref a), hput ▸ Heap.get?_put_self hg, ?_⟩
  obtain ⟨after₁, hg₁, hpublication⟩ := hb.names
  obtain rfl := Object.names.inj (Option.some.inj (hg₁.symm.trans hg))
  rw [hname] at hpublication
  cases hpublication with
  | nothing ht => exact .nothing ht
  | wrapper ht hne hw hd himplementation hterms hothers =>
      have hd' := (h₁.growsBut_put g (.names (Names.set after₁ name (.ref a)))).contract? hg trivial hd
      rw [← hput] at hd'
      refine .wrapper ht hne ?_ hd' himplementation hterms fun n hn => ?_
      · rw [Names.lookup_set, if_neg hne, hw]
      · rw [Names.lookup_set, Names.lookup_set, hothers n hn]

/-! ## Woven members -/

/-- A member is described with the clauses of its record. -/
theorem terms_of_describeMember {field : String × Value} {callable : Callable Value}
    (hm : describeMember h c field = .ok (some callable))
    (hf : h.object? field.2 = some (.function f)) : callable.terms = termsOn f.specs := by
  unfold describeMember at hm
  dsimp only at hm
  rw [hf] at hm
  dsimp only at hm
  split at hm
  · exact nomatch hm
  · cases hm
    rfl

/-- A field of a class with a wrapper around some function that promises some clauses. -/
def Enforces (h : Heap) (field : String × Value) (a : Address) (t : Terms) : Prop :=
  ∃ info d slots, h.wrapper? field.2 = some info ∧ info.code = .checked d (.ref a) slots ∧
    termsOf d = t

/-- A wrapper that was made from a descriptor is around its implementation. -/
theorem code_of_plannedWrapper {d : Descriptor Value} {info : FunctionInfo}
    (hplan : plannedWrapper h d = .ok info) :
    ∃ v slots, d.implementation = some v ∧ info.code = .checked d v slots := by
  unfold plannedWrapper at hplan
  split at hplan
  · exact nomatch hplan
  · rename_i v hv
    split at hplan
    · obtain ⟨slots, -, hinfo⟩ := bind_eq_ok.mp (mapError_eq_ok.mp hplan)
      obtain ⟨published, -, hinfo⟩ := bind_eq_ok.mp hinfo
      cases hinfo
      exact ⟨v, slots, hv, rfl⟩
    · exact nomatch hplan

section Members

variable {clauses : List Clause} {T : TypeDecl Value} {ds : List (Descriptor Value)}

/-- A descriptor of a class promises the clauses of the function that it was made for. -/
theorem terms_of_accepted {d : Descriptor Value} (hac : Accepted h program c clauses T ds)
    (hd : d ∈ ds) (hv : d.implementation = some v) (hf : h.object? v = some (.function f)) :
    termsOf d = termsOn f.specs := by
  obtain ⟨invariants, fs, hcourse, hfs, rfl, -⟩ := of_acceptAll hac.accepted
  obtain ⟨callable, hcallable, hw⟩ := exists_of_mem_descriptorsOf hcourse hd
  rw [hfs] at hcallable
  have hdescribed := hac.described
  unfold describeClass at hdescribed
  obtain ⟨members, hmembers, hT⟩ := bind_eq_ok.mp hdescribed
  cases hT
  obtain ⟨m, hm, rfl⟩ := List.mem_filterMap.mp hcallable
  obtain ⟨field, -, hfield⟩ := exists_of_forall₂_right (mapM_eq_ok.mp hmembers) _ hm
  obtain ⟨himplementation, -⟩ := of_describeMember hfield
  obtain ⟨validated, hvalidated, hdescribes⟩ := id hw
  have hsame : some field.2 = some v := by
    rw [← hv, (signature_of_describe hdescribes).2.1,
      (accepts_of_validateCallable hvalidated).declaration, himplementation]
  obtain rfl := Option.some.inj hsame
  exact (Weaves.terms hw).trans (terms_of_describeMember hfield hf)

/-- A function of a class that has clauses is declared with them. -/
theorem exists_declared (hT : describeClass h program c clauses = .ok T) {key : String}
    (hfield : (key, v) ∈ c.fields) (hf : h.object? v = some (.function f))
    (hterms : termsOn f.specs ≠ ([], [])) :
    ∃ callable ∈ T.callables, callable.implementation = some v ∧
      callable.terms = termsOn f.specs := by
  unfold describeClass at hT
  obtain ⟨members, hmembers, hT⟩ := bind_eq_ok.mp hT
  cases hT
  obtain ⟨o, ho, hmember⟩ := exists_of_forall₂_right (mapM_eq_ok.mp hmembers).flip _ hfield
  obtain ⟨callable, rfl⟩ : ∃ callable, o = some callable := by
    have hsome : f.specs.isNone = false := by
      cases hspecs : f.specs with
      | none =>
          rw [hspecs] at hterms
          exact absurd rfl hterms
      | some specs => rfl
    have hmember : describeMember h c (key, v) = .ok o := hmember
    unfold describeMember at hmember
    dsimp only at hmember
    rw [hf] at hmember
    dsimp only at hmember
    rw [hsome, Bool.false_and] at hmember
    cases hmember
    exact ⟨_, rfl⟩
  exact ⟨callable, List.mem_filterMap.mpr ⟨_, ho, rfl⟩, (of_describeMember hmember).1,
    terms_of_describeMember hmember hf⟩

theorem hasContract_of_terms {callable : Callable Value} (h : callable.terms ≠ ([], [])) :
    callable.hasContract = true := by
  by_contra hnone
  rw [Callable.hasContract, Bool.not_eq_true, Bool.or_eq_false_iff, Bool.or_eq_false_iff,
    Bool.not_eq_false', Bool.not_eq_false', List.isEmpty_iff, List.isEmpty_iff] at hnone
  exact h (Prod.ext hnone.1.1 hnone.1.2)

/-- In a class that is accepted, every callable with a contract becomes a descriptor. -/
theorem exists_accepted (haccepted : acceptAll T = .ok ds) {callable : Callable Value}
    (hcallable : callable ∈ T.callables) (hcontract : callable.hasContract = true) :
    ∃ d ∈ ds, ∃ invariants, Weaves callable (some T) invariants d := by
  obtain ⟨invariants, fs, hcourse, hfs, rfl, hok⟩ := of_acceptAll haccepted
  rw [← hfs] at hcallable
  obtain ⟨fate, hfate, rfl⟩ := List.mem_map.mp hcallable
  have hwoven : ∀ fate ∈ fs, fate.declaration.hasContract = true →
      (∀ e, fate.outcome ≠ some (.rejected e)) →
      ∃ d, fate.outcome = some (.woven d) ∧ Weaves fate.declaration (some T) invariants d := by
    refine hcourse.forall fun registry callable o after hstep hc hnot => ?_
    cases comesTo_of_weaveCallable hstep with
    | nothing hnone => exact nomatch hnone.symm.trans hc
    | rejected => exact absurd rfl (hnot _)
    | @woven d _ _ hw _ => exact ⟨d, rfl, hw⟩
  obtain ⟨d, hd, hw⟩ := hwoven fate hfate hcontract (hok fate hfate)
  exact ⟨d, mem_descriptorsOf.mpr ⟨fate, hfate, hd⟩, invariants, hw⟩

/-- A function of a class that has clauses becomes a descriptor. -/
theorem exists_of_accepted (hac : Accepted h program c clauses T ds) {key : String}
    (hfield : (key, v) ∈ c.fields) (hf : h.object? v = some (.function f))
    (hterms : termsOn f.specs ≠ ([], [])) : ∃ d ∈ ds, d.implementation = some v := by
  obtain ⟨callable, hcallable, hv, hclauses⟩ := exists_declared hac.described hfield hf hterms
  rw [← hclauses] at hterms
  obtain ⟨d, hd, invariants, validated, hvalidated, hdescribes⟩ :=
    exists_accepted hac.accepted hcallable (hasContract_of_terms hterms)
  refine ⟨d, hd, ?_⟩
  rw [(signature_of_describe hdescribes).2.1, (accepts_of_validateCallable hvalidated).declaration,
    hv]

/-- **A MEMBER OF A WOVEN CLASS** is enforced with the clauses of its record, if there are any. -/
theorem woven_members {invariants : Value} (hf : h.get? a = some (.function f))
    (hc : h.get? b = some (.cls c)) (hdone : weaveClass program (.ref b) invariants h = .done v h') :
    ∃ fields contract,
      h'.get? b = some (.cls { c with fields := c.fields ++ fields, contract := contract }) ∧
      (∀ field ∈ fields, ∀ t, Enforces h' field a t → t = termsOn f.specs) ∧
      (termsOn f.specs ≠ ([], []) → ∀ key, (key, .ref a) ∈ c.fields →
        ∃ field ∈ fields, Enforces h' field a (termsOn f.specs)) := by
  have hends : WeaveEnds h program b c (weaveClass program (.ref b) invariants h) :=
    weaveClass_ends invariants hc
  rw [hdone] at hends
  cases hends with
  | @woven clauses T ds _ hac hi =>
      obtain ⟨fields, hmade, hcls⟩ := hi.cls
      have hobject : h.object? (.ref a) = some (.function f) := hf
      refine ⟨fields, some T, hcls, ?_, ?_⟩
      · rintro field hfield t ⟨info, d, slots, hw, hcode, rfl⟩
        obtain ⟨d', hd', hmade'⟩ := exists_of_forall₂_right hmade field hfield
        obtain ⟨info', hplan, hw'⟩ := hmade'.planned
        obtain rfl := Option.some.inj (hw'.symm.trans hw)
        obtain ⟨v', slots', hv', hcode'⟩ := code_of_plannedWrapper hplan
        rw [hcode] at hcode'
        cases hcode'
        exact terms_of_accepted hac hd' hv' hobject
      · intro hterms key hkey
        obtain ⟨d, hd, hv⟩ := exists_of_accepted hac hkey hobject hterms
        obtain ⟨field, hfield, hmade'⟩ := exists_of_forall₂_right hmade.flip d hd
        obtain ⟨info, hplan, hw⟩ := hmade'.planned
        obtain ⟨v', slots, hv', hcode⟩ := code_of_plannedWrapper hplan
        obtain rfl := Option.some.inj (hv.symm.trans hv')
        exact ⟨field, hfield, info, d, slots, hw, hcode, terms_of_accepted hac hd hv hobject⟩

end Members

/-! ## Enforced and read -/

/-- What is enforced of the function at an address that a definition with some layers has made. -/
structure Enforced (program : List Stmt) (s : Scope) (head : FunctionHead) (ls : List Layer)
    (before : Names Value) (h : Heap) (a : Address) (f : FunctionInfo) : Prop where
  function : h.get? a = some (.function f)
  bound : ∃ ns, h.get? (Comp.home s (s.nameHere head.name)) = some (.names ns) ∧
    ns.lookup (s.nameHere head.name) = some (.ref a)
  /-- In a module, the outermost contract has published what it has found. -/
  published : Comp.home s head.name = s.globals → s.owner = none →
    ∃ after, h.get? s.globals = some (.names after) ∧
      Publication h a head.name (Names.set before head.name (.ref a)) (publishedBy ls) after
  /-- In a class that is woven later, the wrappers of the function promise all clauses. -/
  installed : ∀ h₁ h₂ b c v invariants, h₁.get? a = some (.function f) →
    h₁.get? b = some (.cls c) → weaveClass program (.ref b) invariants h₁ = .done v h₂ →
    ∃ fields contract,
      h₂.get? b = some (.cls { c with fields := c.fields ++ fields, contract := contract }) ∧
      (∀ field ∈ fields, ∀ t, Enforces h₂ field a t → t = recorded ls) ∧
      (recorded ls ≠ ([], []) → ∀ key, (key, .ref a) ∈ c.fields →
        ∃ field ∈ fields, Enforces h₂ field a (recorded ls))

/-- What is read of a definition with some layers, and when it is what is enforced. -/
structure Stated (head : FunctionHead) (body : List Stmt) (ls : List Layer) : Prop where
  function : ∀ source module, functionTerms source module head
    = (ls.find? Layer.isContract).bind fun l => read (l :: ls.filter Layer.isClause)
  member : ∀ source module owner, memberTerms source module owner (.function head body)
    = if takesPart head.name ls then read (ls.filter Layer.isClause) else none
  /-- One contract agrees if every clause can be read and none is stated above it. -/
  functionAgrees : ∀ source module above l below, ls = above ++ l :: below →
    l.isContract = true → (∀ k ∈ above ++ below, k.isContract = false) →
    (functionTerms source module head = some (publishedBy ls) ↔
      (l :: ls.filter Layer.isClause).all Layer.isLegible = true ∧ recorded above = ([], []))
  /-- A member agrees if every clause can be read and no contract of a function states one. -/
  memberAgrees : ∀ source module owner,
    (memberTerms source module owner (.function head body) = some (recorded ls) ↔
      takesPart head.name ls = true ∧ (ls.filter Layer.isClause).all Layer.isLegible = true ∧
        recorded (ls.filter Layer.isContract) = ([], []))

section Definition

variable {s : Scope} {head : FunctionHead} {body : List Stmt} {flow : Flow}

theorem enforced_of_execute
    (hwritten : List.Forall₂ (Layer.Written (StandsFor (level program (n + 1)) s h)) ls
      head.decorators)
    (hquiet : Quiet (level program (n + 1)) s head) (hg : h.get? s.globals = some (.names before))
    (hhome : ∃ ns, h.get? (Comp.home s (s.nameHere head.name)) = some (.names ns))
    (hdone : execute (level program (n + 1)) s (.function head body) h = .done flow h') :
    ∃ a f, Enforced program s head ls before h' a f := by
  obtain ⟨a, f, h₁, h₂, hgrows, hf, hname, hbuilt, hstore⟩ := execute_builds hwritten hquiet hg hdone
  obtain ⟨specs, hf₂, hterms⟩ := hbuilt.function
  obtain ⟨ns, hns⟩ := hhome
  obtain ⟨ns₂, hns₂, hput⟩ := stored hbuilt hf (hgrows _ _ hns) hstore
  have hothers : Heap.GrowsBut (Comp.home s (s.nameHere head.name)) h₂ h' :=
    hput ▸ h₂.growsBut_put _ _
  have hne : a ≠ Comp.home s (s.nameHere head.name) := by
    intro heq
    rw [heq] at hf₂
    exact nomatch hf₂.symm.trans hns₂
  refine ⟨a, { f with specs := specs }, hothers a _ hne hf₂, ⟨_, hput ▸ Heap.get?_put_self hns₂, ?_⟩,
    fun hhome howner => ?_, fun k₁ k₂ b c v invariants hk hc hweave => ?_⟩
  · rw [Names.lookup_set, if_pos rfl]
  · have hhere : s.nameHere head.name = head.name := by
      rw [Scope.nameHere, howner]
      rfl
    rw [hhere, hhome] at hns₂ hput
    exact stored_publication hbuilt hname hns₂ hput
  · rw [← hterms]
    exact woven_members hk hc hweave

theorem stated_of_written {callee : Marker → Expr → Prop}
    (hcallee : ∀ m e, callee m e → Calls m e)
    (hwritten : List.Forall₂ (Layer.Written callee) ls head.decorators) : Stated head body ls where
  function := fun source module => functionTerms_eq hcallee hwritten
  member := fun source module owner => memberTerms_eq hcallee hwritten owner body
  functionAgrees := by
    rintro source module above l below rfl hl hother
    rw [functionTerms_eq hcallee hwritten, find?_of_one hl hother, Option.bind_some, read_eq_some_iff,
      recorded_of_one hl hother]
  memberAgrees := by
    intro source module owner
    rw [memberTerms_eq hcallee hwritten]
    cases takesPart head.name ls with
    | false => exact iff_of_false nofun fun h => nomatch h.1
    | true =>
        rw [if_pos rfl, read_eq_some_iff, recorded_filter_eq_iff]
        exact ⟨fun h => ⟨rfl, h⟩, fun h => h.2⟩

/-- **STACKED DECORATORS** put the clauses of all layers on a member, in the order of the text, and
    those of the outermost contract and of the layers under it on a function of a module.  Reading the text
    leaves out the contracts of functions on a member, and adds the layers above the contract of
    a function. -/
theorem stacked_clauses
    (hwritten : List.Forall₂ (Layer.Written (StandsFor (level program (n + 1)) s h)) ls
      head.decorators)
    (hquiet : Quiet (level program (n + 1)) s head) (hg : h.get? s.globals = some (.names before))
    (hhome : ∃ ns, h.get? (Comp.home s (s.nameHere head.name)) = some (.names ns))
    (hdone : execute (level program (n + 1)) s (.function head body) h = .done flow h') :
    (∃ a f, Enforced program s head ls before h' a f) ∧ Stated head body ls :=
  ⟨enforced_of_execute hwritten hquiet hg hhome hdone,
    stated_of_written (fun _ _ he => he.calls) hwritten⟩

end Definition

/-! ## In a module -/

/-- In a module the name of a decorator stands for it unless something else has that name. -/
theorem standsFor_name {m : Marker} (hg : h.get? g = some (.names before))
    (hm : before.lookup m.name = some (.routine (routineOf m))) :
    StandsFor (level program n) { globals := g } h m (.name nowhere m.name .load) where
  calls := rfl
  evaluated := by
    intro h' hgrows
    rw [evaluate]
    show Comp.lookupGlobal { globals := g } m.name h' = _
    unfold Comp.lookupGlobal
    rw [bind_of_done (namesAt_done (hgrows _ _ hg)), hm]
    rfl

/-- The names of the decorators. -/
def markerNames : Names Value :=
  [Marker.precondition, .postcondition, .invariant, .constructor, .functionContract].map fun m =>
    (m.name, .routine (routineOf m))

theorem lookup_markerNames (m : Marker) :
    markerNames.lookup m.name = some (.routine (routineOf m)) := by
  cases m <;> rfl

/-- A module that knows the decorators. -/
def markerHeap : Heap := ⟨#[.names markerNames]⟩

/-- A function of one parameter with some layers. -/
def addHead (ls : List Layer) : FunctionHead where
  isAsync := false
  name := "_add"
  formals :=
    { positionalOnly := [], positional := [⟨nowhere, "n", none⟩], defaults := [], variadic := none,
      named := [], variadicNamed := none }
  decorators := ls.map Layer.tree
  returns := none

theorem written_addHead (ls : List Layer) :
    List.Forall₂ (Layer.Written (StandsFor (level program n) { globals := 0 } markerHeap)) ls
      (addHead ls).decorators := by
  show List.Forall₂ _ ls (ls.map Layer.tree)
  rw [List.forall₂_map_right_iff, List.forall₂_same]
  exact fun l _ => l.written_tree (standsFor_name rfl (lookup_markerNames l.marker))

theorem quiet_addHead {host : Host} {s : Scope} (ls : List Layer) : Quiet host s (addHead ls) where
  defaults := by
    show (evaluateItems host s []).Growing
    rw [evaluateItems]
    exact growing_pure _
  named := growing_pure _
  hints := by
    intro h hints h' hdone
    cases hdone
    exact .refl h

/-- The run of the definition in the module. -/
def runOfAdd (ls : List Layer) : Run Heap Thrown Flow :=
  execute (level [] 1) { globals := 0 } (.function (addHead ls) []) markerHeap

/-- The clauses that the wrapper under the public name promises, if there is one. -/
def promisedByAdd (h : Heap) : Option Terms :=
  match h.get? 0 with
  | some (.names ns) => ((ns.lookup "add").bind h.contract?).map termsOf
  | _ => none

/-- What a run has published. -/
def publishedByAdd (r : Run Heap Thrown Flow) : Option Terms :=
  match r with
  | .done _ h => promisedByAdd h
  | _ => none

theorem done_of_published {r : Run Heap Thrown Flow} {t : Terms} (h : publishedByAdd r = some t) :
    ∃ flow h', r = .done flow h' ∧ promisedByAdd h' = some t := by
  cases r with
  | done flow h' => exact ⟨flow, h', rfl, h⟩
  | thrown | paused => exact nomatch h

/-- A layer that asks for a positive number. -/
def positive : Layer where
  marker := .precondition
  positional := [.texts [("n > 0", "positive")]]
  bare := by decide
  fits := by decide

/-- A contract that promises a positive number. -/
def saved : Layer where
  marker := .functionContract
  named := [("postconditions", .texts [("result > 0", "saved")])]
  bare := by decide
  fits := by decide

/-- With the contract above everything else, all clauses are enforced and read. -/
theorem stacked_clauses_outermost :
    ∃ flow h', runOfAdd [saved, positive] = .done flow h' ∧
      promisedByAdd h' = some ([⟨"n > 0", "positive"⟩], [⟨"result > 0", "saved"⟩]) ∧
      (∃ a f, Enforced [] { globals := 0 } (addHead [saved, positive]) [saved, positive] markerNames
        h' a f) ∧ Stated (addHead [saved, positive]) [] [saved, positive] := by
  obtain ⟨flow, h', hdone, hpromised⟩ : ∃ flow h', runOfAdd [saved, positive] = .done flow h' ∧
      promisedByAdd h' = some ([⟨"n > 0", "positive"⟩], [⟨"result > 0", "saved"⟩]) :=
    done_of_published (by decide +kernel)
  exact ⟨flow, h', hdone, hpromised, stacked_clauses (written_addHead _) (quiet_addHead _) rfl
    ⟨markerNames, rfl⟩ hdone⟩

/-- A precondition above the contract is read, and comes too late to be enforced. -/
theorem stacked_clauses_late :
    ∃ flow h', runOfAdd [positive, saved] = .done flow h' ∧
      promisedByAdd h' = some ([], [⟨"result > 0", "saved"⟩]) ∧
      ∀ source module, functionTerms source module (addHead [positive, saved])
        = some ([⟨"n > 0", "positive"⟩], [⟨"result > 0", "saved"⟩]) := by
  obtain ⟨flow, h', hdone, hpromised⟩ : ∃ flow h', runOfAdd [positive, saved] = .done flow h' ∧
      promisedByAdd h' = some ([], [⟨"result > 0", "saved"⟩]) :=
    done_of_published (by decide +kernel)
  refine ⟨flow, h', hdone, hpromised, fun source module => ?_⟩
  rw [functionTerms_eq (fun _ _ he => he.calls) (@written_addHead [] 0 [positive, saved])]
  decide +kernel

end Covenant.Machine
