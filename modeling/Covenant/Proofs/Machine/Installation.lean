import Covenant.Machine.Contract
import Covenant.Proofs.Machine.Growth
import Covenant.Proofs.Machine.Wrapping
import Covenant.Proofs.Weaving.Isolation

/-! # Installation — what weaving a class leaves behind

    A class is woven in two stages.  Its members are described and accepted
    all together, and up to there nothing is changed.  Then the wrappers are
    made and installed one by one, and making one can still fail.

    * `install_ends` follows the second stage; its invariant is `Installed`:
      the class has the wrappers made so far behind its own fields, and every
      other object is as it was.
    * `accepted_names`: the public names are new to the class and distinct, so
      that nothing is replaced.
    * `weaveClass_ends`: the class is woven, or refused and left as it was, or
      left with the wrappers in front of the one that cannot be made, which is
      what `weaveClass_ends_halfway` shows of a class with two methods. -/

namespace Covenant.Machine

open Condition Declaration Signature Weaving Wrapper Covenant.Tree

variable {h h' h'' : Heap} {a : Address} {c : ClassInfo} {d : Descriptor Value}
  {ds : List (Descriptor Value)} {info : FunctionInfo} {program : List Stmt}

/-! ## Other objects -/

/-- Every object but the one at an address is as it was. -/
def Heap.GrowsBut (a : Address) (h h' : Heap) : Prop :=
  ∀ b o, b ≠ a → h.get? b = some o → h'.get? b = some o

theorem Heap.GrowsBut.refl (a : Address) (h : Heap) : Heap.GrowsBut a h h := fun _ _ _ ho => ho

theorem Heap.GrowsBut.trans (hg : Heap.GrowsBut a h h') (hg' : Heap.GrowsBut a h' h'') :
    Heap.GrowsBut a h h'' :=
  fun b o hb ho => hg' b o hb (hg b o hb ho)

theorem Heap.Grows.but (hg : h.Grows h') (a : Address) : Heap.GrowsBut a h h' :=
  fun b o _ ho => hg b o ho

theorem Heap.growsBut_put (h : Heap) (a : Address) (o : Object) :
    Heap.GrowsBut a h (h.put a o) :=
  fun _ _ hb ho => (h.get?_put_of_ne o hb.symm).trans ho

theorem Heap.get?_put_self {o o' : Object} (ho : h.get? a = some o) :
    (h.put a o').get? a = some o' := by
  have hlt := Heap.lt_of_get? ho
  simp [Heap.put, Heap.get?, hlt]

/-- A function is not at the address of a class, so it stays. -/
theorem Heap.GrowsBut.function? {v : Value} {f : FunctionInfo} (hg : Heap.GrowsBut a h h')
    (hc : h.get? a = some (.cls c)) (hf : h.object? v = some (.function f)) :
    h'.object? v = some (.function f) := by
  cases v with
  | ref b =>
      refine hg b _ ?_ hf
      rintro rfl
      exact nomatch hc.symm.trans hf
  | atom | type | routine | module => exact nomatch hf

theorem Heap.GrowsBut.wrapper? {w : Value} (hg : Heap.GrowsBut a h h')
    (hc : h.get? a = some (.cls c)) (hw : h.wrapper? w = some info) :
    h'.wrapper? w = some info := by
  unfold Heap.wrapper? at hw ⊢
  split at hw
  · rename_i f hf
    rw [hg.function? hc hf]
    exact hw
  · rename_i g hclass
    split at hw
    · rename_i f hf
      have hclass' : h'.object? w = some (.classMethod g) := by
        cases w with
        | ref b =>
            refine hg b _ ?_ hclass
            rintro rfl
            exact nomatch hc.symm.trans hclass
        | atom | type | routine | module => exact nomatch hclass
      rw [hclass']
      dsimp only
      rw [hg.function? hc hf]
      exact hw
    · exact nomatch hw
  · exact nomatch hw

/-! ## One wrapper -/

/-- The wrapper that a descriptor will get, or the mistake that making it is. -/
def plannedWrapper (h : Heap) (d : Descriptor Value) : Except Mistake FunctionInfo :=
  match d.implementation with
  | none => .error .wrongValue
  | some v =>
    match h.object? v with
    | some (.function f) => (wrapperInfo d v f).mapError SlotFault.mistake
    | _ => .error .wrongType

/-- The implementation of a descriptor is a function that is there. -/
def Implemented (h : Heap) (d : Descriptor Value) : Prop :=
  ∃ v f, d.implementation = some v ∧ h.object? v = some (.function f)

theorem Implemented.growsBut (hi : Implemented h d) (hg : Heap.GrowsBut a h h')
    (hc : h.get? a = some (.cls c)) :
    Implemented h' d ∧ plannedWrapper h' d = plannedWrapper h d := by
  obtain ⟨v, f, hv, hf⟩ := hi
  have hf' := hg.function? hc hf
  refine ⟨⟨v, f, hv, hf'⟩, ?_⟩
  unfold plannedWrapper
  rw [hv]
  dsimp only
  rw [hf, hf']

theorem growing_ofOption {α : Type} (m : Mistake) (o : Option α) :
    (Comp.ofOption m o).Growing := by
  cases o with
  | none => exact fun _ _ _ hdone => nomatch hdone
  | some x => exact growing_pure x

theorem growing_fail {α : Type} (m : Mistake) : (Comp.fail m : Comp α).Growing :=
  fun _ _ _ hdone => nomatch hdone

/-- Making a wrapper only adds objects. -/
theorem growing_makeWrapper (d : Descriptor Value) : (makeWrapper d).Growing := by
  refine growing_bind (growing_ofOption _ _) fun v => ?_
  refine growing_bind (fun h o h' hdone => ?_) fun o => ?_
  · cases hdone
    exact .refl h
  · split
    · rename_i f
      split
      · exact growing_fail _
      · refine growing_bind (growing_make _) fun w => ?_
        split
        · exact growing_make _
        · exact growing_pure w
    · exact growing_fail _

/-- **ONE WRAPPER** is made as planned, or is the planned mistake and nothing is made. -/
theorem makeWrapper_planned (hi : Implemented h d) :
    (∃ info w h', plannedWrapper h d = .ok info ∧ makeWrapper d h = .done w h' ∧
      h.Grows h' ∧ h'.wrapper? w = some info) ∨
    ∃ m, plannedWrapper h d = .error m ∧ makeWrapper d h = .thrown (.mistake m) h := by
  obtain ⟨v, f, hv, hf⟩ := hi
  have hplan : plannedWrapper h d = (wrapperInfo d v f).mapError SlotFault.mistake := by
    unfold plannedWrapper
    rw [hv]
    dsimp only
    rw [hf]
  cases hinfo : wrapperInfo d v f with
  | ok info =>
      obtain ⟨w, h', hdone, hwrapper⟩ := makeWrapper_of_ok hv hf hinfo
      refine .inl ⟨info, w, h', ?_, hdone, growing_makeWrapper d h w h' hdone, hwrapper⟩
      rw [hplan, hinfo]
      rfl
  | error fault =>
      refine .inr ⟨_, ?_, makeWrapper_of_error hv hf hinfo⟩
      rw [hplan, hinfo]
      rfl

/-! ## One after the other -/

/-- A field of a class that was made from a descriptor. -/
structure Made (h h' : Heap) (d : Descriptor Value) (field : String × Value) : Prop where
  name : field.1 = d.publicName
  planned : ∃ info, plannedWrapper h d = .ok info ∧ h'.wrapper? field.2 = some info

/-- The class at an address has got the wrappers of some descriptors behind the fields that it
    had, and maybe another declaration; nothing else was changed. -/
structure Installed (h : Heap) (a : Address) (c : ClassInfo) (ds : List (Descriptor Value))
    (contract : Option (TypeDecl Value)) (h' : Heap) : Prop where
  cls : ∃ fields, List.Forall₂ (Made h h') ds fields ∧
    h'.get? a = some (.cls { c with fields := c.fields ++ fields, contract := contract })
  others : Heap.GrowsBut a h h'

theorem Installed.refl (hc : h.get? a = some (.cls c)) : Installed h a c [] c.contract h where
  cls := ⟨[], .nil, by rw [hc, List.append_nil]⟩
  others := .refl a h

theorem set_of_not_mem {ps : Names Value} {name : String} {v : Value}
    (hnew : name ∉ ps.map (·.1)) : Names.set ps name v = ps ++ [(name, v)] := by
  induction ps with
  | nil => rfl
  | cons p ps ih =>
      obtain ⟨n, x⟩ := p
      rw [List.map_cons, List.mem_cons, not_or] at hnew
      obtain ⟨hn, hps⟩ := hnew
      rw [Names.set, if_neg (Ne.symm hn), ih hps]
      rfl

theorem setClassField_eq {name : String} {v : Value} (hc : h.get? a = some (.cls c)) :
    setClassField (.ref a) name v h
      = .done () (h.put a (.cls { c with fields := Names.set c.fields name v })) := by
  have hobject : h.object? (.ref a) = some (.cls c) := hc
  unfold setClassField
  simp only [bind, Run.bind, Comp.object?, hobject]
  rfl

/-- How installing the wrappers of a class ends. -/
inductive InstallEnds (h : Heap) (a : Address) (c : ClassInfo) (ds : List (Descriptor Value)) :
    Run Heap Thrown Unit → Prop where
  | installed {h' : Heap} (hi : Installed h a c ds c.contract h') :
      InstallEnds h a c ds (.done () h')
  | broken {ds₁ ds₂ : List (Descriptor Value)} {d : Descriptor Value} {m : Mistake} {h' : Heap}
      (hds : ds = ds₁ ++ d :: ds₂) (hfault : plannedWrapper h d = .error m)
      (hi : Installed h a c ds₁ c.contract h') (hfirst : ds₁ = [] → h' = h) :
      InstallEnds h a c ds (.thrown (.mistake m) h')

/-- A field that was made before the rest of a class is still there behind it. -/
theorem Installed.cons {h₁ h₂ : Heap} {w : Value} {contract : Option (TypeDecl Value)}
    (hc : h.get? a = some (.cls c)) (himpl : ∀ d ∈ ds, Implemented h d)
    (hg : h.Grows h₁) (hput : h₂ = h₁.put a
      (.cls { c with fields := c.fields ++ [(d.publicName, w)] }))
    (hinfo : plannedWrapper h d = .ok info) (hw : h₁.wrapper? w = some info)
    (hi : Installed h₂ a { c with fields := c.fields ++ [(d.publicName, w)] } ds contract h') :
    Installed h a c (d :: ds) contract h' := by
  have hc₁ := hg a _ hc
  have hc₂ : h₂.get? a = some (.cls { c with fields := c.fields ++ [(d.publicName, w)] }) := by
    rw [hput]
    exact Heap.get?_put_self hc₁
  have hput' : Heap.GrowsBut a h₁ h₂ := hput ▸ h₁.growsBut_put a _
  have hgrows : Heap.GrowsBut a h h₂ := (hg.but a).trans hput'
  obtain ⟨fields, hmade, hcls⟩ := hi.cls
  refine ⟨⟨(d.publicName, w) :: fields, .cons ⟨rfl, info, hinfo, ?_⟩ ?_, ?_⟩,
    hgrows.trans hi.others⟩
  · exact hi.others.wrapper? hc₂ (hput'.wrapper? hc₁ hw)
  · refine List.Forall₂.imp ?_ ((List.forall₂_and_left ds fields).mpr ⟨himpl, hmade⟩)
    rintro d' p ⟨himpl', hname, info', hinfo', hw'⟩
    rw [(himpl'.growsBut hgrows hc).2] at hinfo'
    exact ⟨hname, info', hinfo', hw'⟩
  · rw [hcls, List.append_assoc]
    rfl

/-- **INSTALLING** goes on up to the first wrapper that cannot be made. -/
theorem install_ends (hc : h.get? a = some (.cls c)) (himpl : ∀ d ∈ ds, Implemented h d)
    (hnew : ∀ d ∈ ds, d.publicName ∉ c.fields.map (·.1))
    (hnodup : (ds.map (·.publicName)).Nodup) :
    InstallEnds h a c ds (install (.ref a) ds h) := by
  induction ds generalizing h c with
  | nil => exact .installed (.refl hc)
  | cons d ds ih =>
      obtain ⟨himpl₁, himpl⟩ := List.forall_mem_cons.mp himpl
      obtain ⟨hnew₁, hnew⟩ := List.forall_mem_cons.mp hnew
      obtain ⟨hfresh, hnodup⟩ := List.nodup_cons.mp hnodup
      have hrun : install (.ref a) (d :: ds) h = (makeWrapper d h).bind fun w h₁ =>
          (setClassField (.ref a) d.publicName w h₁).bind fun _ h₂ => install (.ref a) ds h₂ := rfl
      rw [hrun]
      rcases makeWrapper_planned himpl₁ with ⟨info, w, h₁, hinfo, hdone, hg, hw⟩ | ⟨m, hm, hthrown⟩
      · rw [hdone]
        have hc₁ := hg a _ hc
        obtain ⟨h₂, hput⟩ : ∃ h₂, h₂ = h₁.put a
            (.cls { c with fields := c.fields ++ [(d.publicName, w)] }) := ⟨_, rfl⟩
        have hset : setClassField (.ref a) d.publicName w h₁ = .done () h₂ := by
          rw [setClassField_eq hc₁, set_of_not_mem hnew₁, hput]
        have hc₂ : h₂.get? a
            = some (.cls { c with fields := c.fields ++ [(d.publicName, w)] }) := by
          rw [hput]
          exact Heap.get?_put_self hc₁
        have hgrows : Heap.GrowsBut a h h₂ := (hg.but a).trans (hput ▸ h₁.growsBut_put a _)
        have hnew₂ : ∀ d' ∈ ds,
            d'.publicName ∉ (c.fields ++ [(d.publicName, w)]).map (·.1) := by
          intro d' hd' hmem
          rw [List.map_append, List.mem_append] at hmem
          rcases hmem with hmem | hmem
          · exact hnew d' hd' hmem
          · rw [← List.mem_singleton.mp hmem] at hfresh
            exact hfresh (List.mem_map_of_mem hd')
        have hrest := ih hc₂ (fun d' hd' => ((himpl d' hd').growsBut hgrows hc).1) hnew₂ hnodup
        show InstallEnds h a c (d :: ds)
          ((setClassField (.ref a) d.publicName w h₁).bind fun _ h₂ => install (.ref a) ds h₂)
        rw [hset]
        show InstallEnds h a c (d :: ds) (install (.ref a) ds h₂)
        generalize install (.ref a) ds h₂ = run at hrest ⊢
        cases hrest with
        | installed hi => exact .installed (hi.cons hc himpl hg hput hinfo hw)
        | @broken ds₁ ds₂ d' m h' hds hfault hi =>
            have hmem : d' ∈ ds := hds ▸ List.mem_append_right _ List.mem_cons_self
            rw [((himpl d' hmem).growsBut hgrows hc).2] at hfault
            have himpl' : ∀ d ∈ ds₁, Implemented h d := fun d hd =>
              himpl d (hds ▸ List.mem_append_left _ hd)
            exact .broken (congrArg (d :: ·) hds) hfault (hi.cons hc himpl' hg hput hinfo hw) nofun
      · rw [hthrown]
        exact .broken (List.nil_append (d :: ds)).symm hm (.refl hc) fun _ => rfl

/-! ## Accepted classes -/

/-- A class that is accepted has got no rejected member. -/
theorem of_acceptAll {T : TypeDecl Value} (h : acceptAll T = .ok ds) :
    ∃ invariants fs, Course (memberStep T invariants) (memberRegistry T) fs ∧
      fs.map (·.declaration) = T.callables ∧ descriptorsOf fs = ds ∧
      ∀ f ∈ fs, ∀ e, f.outcome ≠ some (.rejected e) := by
  unfold acceptAll at h
  split at h
  · exact nomatch h
  · rename_i os hos
    obtain ⟨fate, hfate, rfl⟩ := weaveType_eq_ok.mp hos
    dsimp only at h
    split_ifs at h with hok
    cases fate with
    | error e => exact nomatch hok
    | ok fs =>
        obtain ⟨invariants, -, hcourse, hcallables⟩ := hfate
        refine ⟨invariants, fs, hcourse, hcallables, Except.ok.inj h, fun f hf e hfo => ?_⟩
        have herror : e ∈ (outcomes fs).filterMap Outcome.error? :=
          List.mem_filterMap.mpr ⟨.rejected e, List.mem_filterMap.mpr ⟨f, hf, hfo⟩, rfl⟩
        exact List.ne_nil_of_mem herror (List.isEmpty_iff.mp hok)

theorem exists_of_mem_descriptorsOf {T : TypeDecl Value} {invariants : List ParsedClause}
    {registry : Registry} {fs : List (Fate Value)}
    (h : Course (memberStep T invariants) registry fs) (hd : d ∈ descriptorsOf fs) :
    ∃ callable ∈ fs.map (·.declaration), Weaves callable (some T) invariants d := by
  have hwoven : ∀ f ∈ fs, ∀ d, f.outcome = some (.woven d) →
      Weaves f.declaration (some T) invariants d := by
    refine h.forall fun registry callable o after hstep d ho => ?_
    dsimp only at ho
    subst ho
    cases comesTo_of_weaveCallable hstep with
    | woven _ hw _ => exact hw
  obtain ⟨f, hf, hfo⟩ := mem_descriptorsOf.mp hd
  exact ⟨f.declaration, List.mem_map_of_mem hf, hwoven f hf d hfo⟩

/-- A described member has a function of the class for its implementation. -/
theorem of_describeMember {field : String × Value} {callable : Callable Value}
    (h : describeMember h' c field = .ok (some callable)) :
    callable.implementation = some field.2 ∧ ∃ f, h'.object? field.2 = some (.function f) := by
  unfold describeMember at h
  dsimp only at h
  split at h
  · split_ifs at h
    exact nomatch h
  · split_ifs at h
    exact nomatch h
  · rename_i f hf
    split at h
    · exact nomatch h
    · cases h
      exact ⟨rfl, f, hf⟩
  · exact nomatch h

/-- What is known of a described class. -/
theorem of_describeClass {clauses : List Clause} {T : TypeDecl Value}
    (h : describeClass h' program c clauses = .ok T) :
    T.members = (c.fields.map (·.1)).filter Source.isPublicMember ∧
      ∀ callable ∈ T.callables, ∃ v f, callable.implementation = some v ∧
        h'.object? v = some (.function f) := by
  unfold describeClass at h
  obtain ⟨members, hmembers, h⟩ := bind_eq_ok.mp h
  cases h
  refine ⟨rfl, fun callable hcallable => ?_⟩
  obtain ⟨m, hm, rfl⟩ := List.mem_filterMap.mp hcallable
  obtain ⟨field, -, hfield⟩ := exists_of_forall₂_right (mapM_eq_ok.mp hmembers) _ hm
  obtain ⟨himpl, f, hf⟩ := of_describeMember hfield
  exact ⟨field.2, f, himpl, hf⟩

/-- Public names are those of public members. -/
theorem isPublicMember_publicName (name : String) (role : Role) :
    Source.isPublicMember (publicName name role) = true := by
  unfold publicName
  split_ifs
  · rfl
  · unfold Source.isPublicMember
    rw [Bool.or_eq_true, Bool.not_eq_true']
    refine .inr (String.startsWith_string_eq_false_iff.mpr fun hprefix => ?_)
    obtain ⟨rest, hrest⟩ := hprefix
    rw [String.toList_ofList, String.toList_ofList] at hrest
    have hhead := List.head?_dropWhile_not (fun ch => decide (ch = '_')) name.toList
    rw [← hrest] at hhead
    have hfalse : decide ('_' = '_') = false := hhead
    exact absurd hfalse (by decide)

/-- A class with its declaration and the descriptors of its members, all of them accepted. -/
structure Accepted (h : Heap) (program : List Stmt) (c : ClassInfo) (clauses : List Clause)
    (T : TypeDecl Value) (ds : List (Descriptor Value)) : Prop where
  described : describeClass h program c clauses = .ok T
  accepted : acceptAll T = .ok ds

/-- **THE PUBLIC NAMES** of an accepted class are distinct and new to it. -/
theorem accepted_names {clauses : List Clause} {T : TypeDecl Value}
    (hac : Accepted h program c clauses T ds) :
    (ds.map (·.publicName)).Nodup ∧
      ∀ d ∈ ds, d.publicName ∉ c.fields.map (·.1) ∧ Implemented h d := by
  obtain ⟨hmembers, hcallables⟩ := of_describeClass hac.described
  obtain ⟨invariants, fs, hcourse, hfs, rfl, -⟩ := of_acceptAll hac.accepted
  obtain ⟨hnodup, hfresh⟩ := hcourse.publicNames_fresh
  refine ⟨hnodup, fun d hd => ?_⟩
  obtain ⟨callable, hcallable, w, hvalidated, hdescribed⟩ := exists_of_mem_descriptorsOf hcourse hd
  rw [hfs] at hcallable
  obtain ⟨hname, himplementation, -⟩ := signature_of_describe hdescribed
  have hdeclaration := (accepts_of_validateCallable hvalidated).declaration
  refine ⟨fun hmem => (hfresh d hd).1 ?_, ?_⟩
  · refine List.mem_append_left _ ?_
    rw [hmembers, List.mem_filter, hname]
    exact ⟨hname ▸ hmem, isPublicMember_publicName _ _⟩
  · obtain ⟨v, f, hv, hf⟩ := hcallables callable hcallable
    exact ⟨v, f, by rw [himplementation, hdeclaration, hv], hf⟩

/-! ## Weaving -/

/-- How weaving a class ends. -/
inductive WeaveEnds (h : Heap) (program : List Stmt) (a : Address) (c : ClassInfo) :
    Run Heap Thrown Value → Prop where
  /-- The class is refused, and nothing was changed. -/
  | refused (e : Thrown) : WeaveEnds h program a c (.thrown e h)
  /-- Some wrapper cannot be made; the class has those in front of it, and no declaration. -/
  | halfway {clauses : List Clause} {T : TypeDecl Value} {ds₁ ds₂ : List (Descriptor Value)}
      {d : Descriptor Value} {m : Mistake} {h' : Heap}
      (hac : Accepted h program c clauses T (ds₁ ++ d :: ds₂)) (hne : ds₁ ≠ [])
      (hfault : plannedWrapper h d = .error m) (hi : Installed h a c ds₁ c.contract h') :
      WeaveEnds h program a c (.thrown (.mistake m) h')
  /-- The class has all its wrappers, and its declaration. -/
  | woven {clauses : List Clause} {T : TypeDecl Value} {ds : List (Descriptor Value)} {h' : Heap}
      (hac : Accepted h program c clauses T ds) (hi : Installed h a c ds (some T) h') :
      WeaveEnds h program a c (.done (.ref a) h')

/-- Reading clauses changes nothing. -/
theorem clausesOf_eq (v : Value) (h : Heap) :
    (∃ cs, clausesOf v h = .done cs h) ∨ ∃ e, clausesOf v h = .thrown e h := by
  show (∃ cs, (if !h.isTrue v then (pure [] : Comp (List Clause)) else _) h = .done cs h) ∨
    ∃ e, (if !h.isTrue v then (pure [] : Comp (List Clause)) else _) h = .thrown e h
  split
  · exact .inl ⟨_, rfl⟩
  · cases (h.object? v).bind mapping? with
    | none => exact .inr ⟨_, rfl⟩
    | some ps => exact .inl ⟨_, rfl⟩

/-- The declaration is recorded behind the wrappers. -/
theorem Installed.declare {T : TypeDecl Value} {c' : ClassInfo}
    (hc' : h'.get? a = some (.cls c'))
    (hi : Installed h a c ds c.contract h') :
    Installed h a c ds (some T) (h'.put a (.cls { c' with contract := some T })) := by
  have hput := h'.growsBut_put a (.cls { c' with contract := some T })
  obtain ⟨fields, hmade, hcls⟩ := hi.cls
  obtain rfl := Object.cls.inj (Option.some.inj (hc'.symm.trans hcls))
  refine ⟨⟨fields, ?_, ?_⟩, hi.others.trans hput⟩
  · refine hmade.imp fun d p ⟨hname, info, hinfo, hw⟩ => ⟨hname, info, hinfo, ?_⟩
    exact hput.wrapper? hc' hw
  · exact Heap.get?_put_self hc'

/-- How weaving an accepted class ends. -/
inductive AcceptedEnds (h : Heap) (a : Address) (c : ClassInfo) (T : TypeDecl Value)
    (ds : List (Descriptor Value)) : Run Heap Thrown Value → Prop where
  | woven {h' : Heap} (hi : Installed h a c ds (some T) h') :
      AcceptedEnds h a c T ds (.done (.ref a) h')
  | broken {ds₁ ds₂ : List (Descriptor Value)} {d : Descriptor Value} {m : Mistake} {h' : Heap}
      (hds : ds = ds₁ ++ d :: ds₂) (hfault : plannedWrapper h d = .error m)
      (hi : Installed h a c ds₁ c.contract h') (hfirst : ds₁ = [] → h' = h) :
      AcceptedEnds h a c T ds (.thrown (.mistake m) h')

section Weaving

variable {clauses : List Clause} {T : TypeDecl Value}

theorem classInfo?_eq (hc : h.get? a = some (.cls c)) : h.classInfo? (.ref a) = some c := by
  have hobject : h.object? (.ref a) = some (.cls c) := hc
  rw [Heap.classInfo?, hobject]

theorem weaveClass_of_accepted {invariants : Value} (hc : h.get? a = some (.cls c))
    (hclauses : clausesOf invariants h = .done clauses h)
    (hac : Accepted h program c clauses T ds) :
    AcceptedEnds h a c T ds (weaveClass program (.ref a) invariants h) := by
  obtain ⟨hnodup, hds⟩ := accepted_names hac
  have hends := install_ends hc (fun d hd => (hds d hd).2) (fun d hd => (hds d hd).1) hnodup
  simp only [weaveClass, bind, Comp.heap, Run.bind, hclauses, classInfo?_eq hc, hac.described,
    hac.accepted]
  generalize install (.ref a) ds h = run at hends ⊢
  cases hends with
  | @installed h' hi =>
      obtain ⟨fields, -, hcls⟩ := hi.cls
      have hobject : h'.object? (.ref a) = some (.cls _) := hcls
      simp only [Run.bind, Comp.object?, hobject, Comp.put]
      exact .woven (hi.declare hcls)
  | broken hsplit hfault hi hfirst => exact .broken hsplit hfault hi hfirst

/-- **WEAVING A CLASS** either refuses it and changes nothing, or weaves it completely, or leaves
    it with the wrappers in front of the first one that cannot be made. -/
theorem weaveClass_ends (invariants : Value) (hc : h.get? a = some (.cls c)) :
    WeaveEnds h program a c (weaveClass program (.ref a) invariants h) := by
  rcases clausesOf_eq invariants h with ⟨clauses, hclauses⟩ | ⟨e, hthrown⟩
  · cases hdescribed : describeClass h program c clauses with
    | error e =>
        simp only [weaveClass, bind, Comp.heap, Run.bind, hclauses, classInfo?_eq hc, hdescribed]
        exact .refused (.generation e)
    | ok T =>
        cases haccepted : acceptAll T with
        | error e =>
            simp only [weaveClass, bind, Comp.heap, Run.bind, hclauses, classInfo?_eq hc,
              hdescribed, haccepted]
            exact .refused e
        | ok ds =>
            have hac : Accepted h program c clauses T ds := ⟨hdescribed, haccepted⟩
            have hends := weaveClass_of_accepted hc hclauses hac
            generalize weaveClass program (.ref a) invariants h = run at hends ⊢
            cases hends with
            | woven hi => exact .woven hac hi
            | @broken ds₁ ds₂ d m h' hsplit hfault hi hfirst =>
                by_cases hne : ds₁ = []
                · obtain rfl := hfirst hne
                  exact .refused _
                · exact .halfway (hsplit ▸ hac) hne hfault hi
  · have hrun : weaveClass program (.ref a) invariants h =
        (clausesOf invariants h).bind fun clauses h => _ := rfl
    rw [hrun, hthrown]
    exact .refused e

end Weaving

/-- A receiver and an amount. -/
def amountSlots : List (Slot Value) :=
  [⟨"self", .positionalOrNamed, none, none⟩, ⟨"amount", .positionalOrNamed, none, none⟩]

/-- A class with two methods that have a precondition each. -/
def savings : ClassInfo where
  name := "Ledger"
  qualname := "Ledger"
  bases := [.type .object]
  line := [.ref 2, .type .object]
  fields := [("_deposit", .ref 0), ("_add", .ref 1)]

/-- A heap with the class; the slots are those of its second method. -/
def savingsHeap (slots : List (Slot Value)) : Heap :=
  ⟨#[.function (recordingMethod amountSlots), .function (recordingMethod slots), .cls savings]⟩

theorem get?_savings (slots : List (Slot Value)) :
    (savingsHeap slots).get? 2 = some (.cls savings) := rfl

theorem clausesOf_none (h : Heap) : clausesOf .none h = .done [] h := rfl

/-- The descriptors of a class with what their wrappers will be. -/
def plannedMembers (h : Heap) (c : ClassInfo) : Option (List (String × Option Mistake)) :=
  (describeClass h [] c []).toOption.bind fun T => (acceptAll T).toOption.map fun ds =>
    ds.map fun d => (d.publicName, match plannedWrapper h d with
      | .ok _ => none
      | .error m => some m)

/-- Two members with public names and plans. -/
theorem of_plannedMembers {name name' : String} {o o' : Option Mistake}
    (h : plannedMembers h' c = some [(name, o), (name', o')]) :
    ∃ T d d', Accepted h' [] c [] T [d, d'] ∧ d.publicName = name ∧ d'.publicName = name' ∧
      (∀ m, plannedWrapper h' d = .error m ↔ o = some m) ∧
      ∀ m, plannedWrapper h' d' = .error m ↔ o' = some m := by
  obtain ⟨T, hT, h⟩ := Option.bind_eq_some_iff.mp h
  obtain ⟨ds, hds, h⟩ := Option.map_eq_some_iff.mp h
  obtain ⟨d, ds, rfl, hd, h⟩ := List.map_eq_cons_iff.mp h
  obtain ⟨d', rfl, hd'⟩ := List.map_eq_singleton_iff.mp h
  obtain ⟨hname, hplan⟩ := Prod.mk.inj hd
  obtain ⟨hname', hplan'⟩ := Prod.mk.inj hd'
  have hfault {d : Descriptor Value} {o : Option Mistake}
      (ho : (match plannedWrapper h' d with
        | .ok _ => none
        | .error m => some m) = o) (m : Mistake) : plannedWrapper h' d = .error m ↔ o = some m := by
    subst ho
    cases plannedWrapper h' d with
    | ok info => exact iff_of_false nofun nofun
    | error m' => exact ⟨fun heq => congrArg some (Except.error.inj heq),
        fun heq => congrArg Except.error (Option.some.inj heq)⟩
  exact ⟨T, d, d', ⟨toOption_eq_some.mp hT, toOption_eq_some.mp hds⟩, hname, hname',
    hfault hplan, hfault hplan'⟩

/-- The class is woven if both of its methods can be wrapped. -/
theorem weaveClass_ends_savings :
    ∃ run, weaveClass [] (.ref 2) .none (savingsHeap amountSlots) = run ∧
      WeaveEnds (savingsHeap amountSlots) [] 2 savings run ∧
      ∃ h', run = .done (.ref 2) h' := by
  have hplanned : plannedMembers (savingsHeap amountSlots) savings
      = some [("deposit", none), ("add", none)] := by decide +kernel
  obtain ⟨T, d, d', hac, -, -, hplan, hplan'⟩ := of_plannedMembers hplanned
  have hends := weaveClass_of_accepted (get?_savings _) (clausesOf_none _) hac
  have hall : WeaveEnds (savingsHeap amountSlots) [] 2 savings
      (weaveClass [] (.ref 2) .none (savingsHeap amountSlots)) :=
    weaveClass_ends .none (get?_savings amountSlots)
  generalize weaveClass [] (.ref 2) .none (savingsHeap amountSlots) = run at hends hall ⊢
  refine ⟨run, rfl, hall, ?_⟩
  cases hends with
  | @woven h' _ => exact ⟨h', rfl⟩
  | @broken ds₁ ds₂ d'' m h' hds hfault _ _ =>
      have hmem : d'' ∈ [d, d'] := hds ▸ List.mem_append_right _ List.mem_cons_self
      rcases List.mem_pair.mp hmem with rfl | rfl
      · exact nomatch (hplan m).mp hfault
      · exact nomatch (hplan' m).mp hfault

/-- If only the first of the methods can be wrapped, the class is refused and has its wrapper. -/
theorem weaveClass_ends_halfway :
    ∃ h' w, weaveClass [] (.ref 2) .none (savingsHeap positionalSlots)
        = .thrown (.mistake .wrongValue) h' ∧
      (savingsHeap positionalSlots).get? 2 = some (.cls savings) ∧
      savings.fields.lookup "deposit" = none ∧
      h'.get? 2 = some (.cls { savings with fields := savings.fields ++ [("deposit", w)] }) := by
  have hplanned : plannedMembers (savingsHeap positionalSlots) savings
      = some [("deposit", none), ("add", some .wrongValue)] := by decide +kernel
  obtain ⟨T, d, d', hac, hname, -, hplan, hplan'⟩ := of_plannedMembers hplanned
  have hends := weaveClass_of_accepted (get?_savings _) (clausesOf_none _) hac
  generalize weaveClass [] (.ref 2) .none (savingsHeap positionalSlots) = run at hends ⊢
  cases hends with
  | @woven h' hi =>
      -- both would have been made
      obtain ⟨fields, hmade, -⟩ := hi.cls
      obtain ⟨p, -, hp⟩ := exists_of_forall₂_right hmade.flip d' (by simp)
      obtain ⟨info, hinfo, -⟩ := hp.planned
      exact nomatch hinfo.symm.trans ((hplan' .wrongValue).mpr rfl)
  | @broken ds₁ ds₂ d'' m h' hds hfault hi _ =>
      match ds₁, hds, hi with
      | [], hds, _ =>
          obtain ⟨rfl, -⟩ := List.cons.inj hds
          exact nomatch (hplan m).mp hfault
      | [d₁], hds, hi =>
          obtain ⟨rfl, hrest⟩ := List.cons.inj hds
          obtain ⟨rfl, -⟩ := List.cons.inj hrest
          obtain rfl := Option.some.inj ((hplan' m).mp hfault)
          obtain ⟨fields, hmade, hcls⟩ := hi.cls
          obtain ⟨⟨name, w⟩, rest, hp, hrest, rfl⟩ := List.forall₂_cons_left_iff.mp hmade
          cases hrest
          obtain rfl : name = "deposit" := hp.name.trans hname
          exact ⟨h', w, rfl, rfl, rfl, hcls⟩
      | d₁ :: d₂ :: ds₁, hds, _ =>
          have hlength := congrArg List.length hds
          simp at hlength

end Covenant.Machine
