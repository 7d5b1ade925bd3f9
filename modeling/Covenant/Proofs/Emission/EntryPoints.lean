import Covenant.Proofs.Declaration.Loading
import Covenant.Proofs.Emission.Modules
import Covenant.Proofs.Weaving.PublicNames

/-! # Entry points — the names that an emitted module gives its wrappers

    Weaving gives public names within one type and within one module, and
    emission puts all wrappers of one owner's name into one class.  A later
    definition of a name hides an earlier one in the same scope.

    * `moduleNames` and `mixinNames` are the names that are defined at the top
      of the module and in one class; `entryPoints_of_reads` says so of the
      program that the text is read as, and that wrappers are reached under
      names given once.
    * `nodup_moduleNames_iff` and `nodup_mixinNames_iff` say when they are
      given once, `entryPoints_distinct` joins the three. -/

namespace Covenant.Wrapper

open Declaration Document Grammar Source Weaving Covenant.Tree
open Covenant.Value (Datum)

variable {ds : List (Descriptor Datum)} {d : Descriptor Datum} {o name : String}
  {P : Stmt → Prop} {ss : List Stmt}

/-! ## Names in a scope -/

/-- The names of the classes and wrappers at the top of a module. -/
def moduleNames (ds : List (Descriptor Datum)) : List String :=
  (owners ds).map mixinName ++ (ds.filter (·.owner.isNone)).map (·.publicName)

/-- The names of the wrappers in the class of an owner. -/
def mixinNames (ds : List (Descriptor Datum)) (owner : String) : List String :=
  (ds.filter (·.owner == some owner)).map (·.publicName)

/-- Statements that are so define these names. -/
def Defines (P : Stmt → Prop) (names : List String) : Prop := ∀ s, P s → definedNames s = names

theorem defines_import (m : String) (names : List String) : Defines (IsImport m names) [] := by
  intro s hs
  rw [hs]
  rfl

theorem defines_evaluation (e : Expr) : Defines (IsEvaluation e) [] := by
  rintro s ⟨value, rfl, -⟩
  rfl

theorem defines_wrapper (d : Descriptor Datum) : Defines (IsWrapper d) [d.publicName] := by
  rintro s ⟨ps, decorators, returns, body, rfl, -, -⟩
  rfl

theorem defines_mixin (ds : List (Descriptor Datum)) (o : String) :
    Defines (IsMixin ds o) [mixinName o] := by
  rintro s ⟨body, rfl, -⟩
  rfl

/-- Statements one after the other have their names one after the other. -/
theorem flatMap_of_each {Ps : List (Stmt → Prop)} {f : Stmt → List String}
    {nss : List (List String)} (h : Each Ps ss)
    (hPs : List.Forall₂ (fun P ns => ∀ s, P s → f s = ns) Ps nss) : ss.flatMap f = nss.flatten := by
  induction hPs generalizing ss with
  | nil =>
      cases h
      rfl
  | cons hone _ ih =>
      cases h with
      | cons hs hmore => rw [List.flatMap_cons, List.flatten_cons, hone _ hs, ih hmore]

/-- A family of statements defines one name each. -/
theorem forall₂_defines {β : Type} {Q : β → Stmt → Prop} {f : β → String} (bs : List β)
    (h : ∀ b, Defines (Q b) [f b]) : List.Forall₂ Defines (bs.map Q) (bs.map fun b => [f b]) := by
  rw [List.forall₂_map_left_iff, List.forall₂_map_right_iff, List.forall₂_same]
  exact fun b _ => h b

theorem flatten_singletons {β : Type} (f : β → String) (bs : List β) :
    (bs.map fun b => [f b]).flatten = bs.map f := by
  rw [← List.flatMap_def, List.map_eq_flatMap]

/-! ## What a name stands for -/

/-- The last definition of a name in a scope. -/
def Reached (ss : List Stmt) (name : String) (P : Stmt → Prop) : Prop :=
  ∃ before s behind, ss = before ++ s :: behind ∧ P s ∧ name ∈ definedNames s ∧
    name ∉ behind.flatMap definedNames

/-- Where names are given once, every definition is the last of its name. -/
theorem reached_of_nodup {Ps : List (Stmt → Prop)} (h : Each Ps ss)
    (hnodup : (ss.flatMap definedNames).Nodup) (hP : P ∈ Ps) (hname : Defines P [name]) :
    Reached ss name P := by
  obtain ⟨s, hs, hPs⟩ := exists_of_forall₂_right (List.Forall₂.flip h) P hP
  obtain ⟨before, behind, rfl⟩ := List.append_of_mem hs
  have hdefined : definedNames s = [name] := hname s hPs
  refine ⟨before, s, behind, rfl, hPs, ?_, ?_⟩
  · rw [hdefined]
    exact List.mem_singleton.mpr rfl
  · rw [List.flatMap_append, List.flatMap_cons, hdefined] at hnodup
    exact (List.nodup_cons.mp hnodup.of_append_right).1

/-- A class with the wrappers of an owner, each of them under its public name if names are given
    once. -/
def HoldsWrappers (ds : List (Descriptor Datum)) (o : String) (s : Stmt) : Prop :=
  ∃ head body, s = .cls head body ∧ body.flatMap definedNames = mixinNames ds o ∧
    ((mixinNames ds o).Nodup → ∀ d ∈ ds, d.owner = some o → Reached body d.publicName (IsWrapper d))

/-- A program that defines the classes and wrappers of descriptors, each of them under its name if
    names are given once. -/
structure EntryPoints (ds : List (Descriptor Datum)) (ss : List Stmt) : Prop where
  names : ss.flatMap definedNames = moduleNames ds
  functions : (moduleNames ds).Nodup →
    ∀ d ∈ ds, d.owner = none → Reached ss d.publicName (IsWrapper d)
  classes : (moduleNames ds).Nodup →
    ∀ o ∈ owners ds, Reached ss (mixinName o) (HoldsWrappers ds o)

theorem Reached.mono {Q : Stmt → Prop} (h : Reached ss name P) (hPQ : ∀ s, P s → Q s) :
    Reached ss name Q := by
  obtain ⟨before, s, behind, hss, hs, hname, hlast⟩ := h
  exact ⟨before, s, behind, hss, hPQ s hs, hname, hlast⟩

/-- **CLASSES** define the wrappers of their owner. -/
theorem holdsWrappers_of_isMixin {s : Stmt} (h : IsMixin ds o s) : HoldsWrappers ds o s := by
  obtain ⟨body, rfl, heach⟩ := h
  have hnames : body.flatMap definedNames = mixinNames ds o := by
    have hdefines := List.Forall₂.cons (defines_evaluation (literal (typeDescription o)))
      (forall₂_defines (ds.filter (·.owner == some o)) defines_wrapper)
    rw [flatMap_of_each heach hdefines, List.flatten_cons, List.nil_append, flatten_singletons]
    rfl
  refine ⟨_, body, rfl, hnames, fun hnodup d hd howner => ?_⟩
  have hmem : IsWrapper d ∈ (ds.filter (·.owner == some o)).map IsWrapper :=
    List.mem_map_of_mem (List.mem_filter.mpr ⟨hd, beq_iff_eq.mpr howner⟩)
  exact reached_of_nodup heach (hnames ▸ hnodup) (List.mem_cons_of_mem _ hmem) (defines_wrapper d)

/-- **PROGRAMS** that a module of wrappers is read as define its classes and wrappers. -/
theorem entryPoints_of_reads {sourceModule : Option String}
    (h : Each (moduleReadAs ds sourceModule) ss) : EntryPoints ds ss := by
  have himports (imports : List (String × List String)) :
      List.Forall₂ Defines (importsReadAs imports) (imports.map fun _ => []) := by
    rw [importsReadAs, List.forall₂_map_left_iff, List.forall₂_map_right_iff, List.forall₂_same]
    exact fun i _ => defines_import i.1 i.2
  have hblank (imports : List (String × List String)) :
      (imports.map fun _ => ([] : List String)).flatten = [] := by
    rw [← List.flatMap_def]
    exact List.flatMap_eq_nil_iff.mpr fun _ _ => rfl
  have hdefines := List.rel_append
    (List.rel_append (himports headerImports) (himports (sourceImports ds sourceModule)))
    (List.rel_append (forall₂_defines (owners ds) (defines_mixin ds))
      (forall₂_defines (ds.filter (·.owner.isNone)) defines_wrapper))
  have hnames : ss.flatMap definedNames = moduleNames ds := by
    rw [flatMap_of_each h hdefines, List.flatten_append, List.flatten_append, List.flatten_append,
      hblank, hblank, flatten_singletons, flatten_singletons]
    rfl
  refine ⟨hnames, fun hnodup d hd howner => ?_, fun hnodup o ho => ?_⟩
  · have hmem : IsWrapper d ∈ (ds.filter (·.owner.isNone)).map IsWrapper :=
      List.mem_map_of_mem (List.mem_filter.mpr ⟨hd, by rw [howner]; rfl⟩)
    exact reached_of_nodup h (hnames ▸ hnodup)
      (List.mem_append_right _ (List.mem_append_right _ hmem)) (defines_wrapper d)
  · have hmem : IsMixin ds o ∈ (owners ds).map (IsMixin ds) := List.mem_map_of_mem ho
    exact (reached_of_nodup h (hnames ▸ hnodup)
      (List.mem_append_right _ (List.mem_append_left _ hmem)) (defines_mixin ds o)).mono
      fun _ => holdsWrappers_of_isMixin

/-! ## Owners -/

/-- An owner is added unless it is there already. -/
theorem nodup_owners (ds : List (Descriptor Datum)) : (owners ds).Nodup := by
  have hfold (os : List String) : ∀ seen : List String, seen.Nodup →
      (os.foldl (fun seen o => if seen.contains o then seen else seen ++ [o]) seen).Nodup := by
    induction os with
    | nil => exact fun _ hseen => hseen
    | cons o os ih =>
        intro seen hseen
        refine ih _ ?_
        dsimp only
        split_ifs with hmem
        · exact hseen
        · refine List.nodup_append.mpr ⟨hseen, List.nodup_singleton o, ?_⟩
          rintro a ha b hb rfl
          exact hmem (List.contains_iff_mem.mpr (List.mem_singleton.mp hb ▸ ha))
  exact hfold _ [] List.nodup_nil

theorem mixinName_injective : Function.Injective mixinName := by
  intro o o' h
  have hlist : o.toList ++ "Contracts".toList = o'.toList ++ "Contracts".toList := by
    rw [← String.toList_append, ← String.toList_append]
    exact congrArg String.toList h
  exact String.toList_inj.mp (List.append_cancel_right hlist)

/-! ## Woven tables -/

variable {t : Table Datum} {a : Account Datum}

/-- The descriptors of one type. -/
def wovenIn (fate : Except GenerationError (List (Fate Datum))) : List (Descriptor Datum) :=
  (typeOutcomes fate).filterMap Outcome.descriptor?

/-- No two entries for types of this name have descriptors of one public name. -/
def EntriesApart (a : Account Datum) (o : String) : Prop :=
  (a.types.filter (·.1.name == o)).Pairwise fun p q =>
    ∀ d ∈ wovenIn p.2, ∀ e ∈ wovenIn q.2, d.publicName ≠ e.publicName

/-- The descriptors of an account are those of its types, then those of its functions. -/
theorem descriptors_eq (a : Account Datum) : a.outcomes.filterMap Outcome.descriptor?
    = a.types.flatMap (fun p => wovenIn p.2) ++ descriptorsOf a.functions := by
  rw [Account.outcomes, List.filterMap_append, List.filterMap_flatMap]
  rfl

/-- The descriptors of a type have its name for their owner. -/
theorem owner_of_mem_wovenIn (hnamed : a.Named)
    {p : TypeDecl Datum × Except GenerationError (List (Fate Datum))} (hp : p ∈ a.types)
    (hd : d ∈ wovenIn p.2) : d.owner = some p.1.name := by
  obtain ⟨T, fate⟩ := p
  cases fate with
  | error e => exact nomatch hd
  | ok fs =>
      obtain ⟨f, hf, hfo⟩ := mem_descriptorsOf.mp hd
      have hone := hnamed.members _ hp fs rfl f hf
      rw [Fate.Named, hfo] at hone
      exact hone.2.1

theorem owner_of_mem_functions (hnamed : a.Named) (hd : d ∈ descriptorsOf a.functions) :
    d.owner = none := by
  obtain ⟨f, hf, hfo⟩ := mem_descriptorsOf.mp hd
  have hone := hnamed.functions f hf
  rw [Fate.Named, hfo] at hone
  exact hone.2.1

/-- The descriptors without an owner are those of the functions. -/
theorem filter_isNone_eq (hnamed : a.Named) :
    (a.outcomes.filterMap Outcome.descriptor?).filter (·.owner.isNone)
      = descriptorsOf a.functions := by
  rw [descriptors_eq, List.filter_append]
  have htypes : (a.types.flatMap fun p => wovenIn p.2).filter (·.owner.isNone) = [] := by
    refine List.filter_eq_nil_iff.mpr fun d hd => ?_
    obtain ⟨p, hp, hdp⟩ := List.mem_flatMap.mp hd
    rw [owner_of_mem_wovenIn hnamed hp hdp]
    exact Bool.false_ne_true
  have hfunctions : (descriptorsOf a.functions).filter (·.owner.isNone)
      = descriptorsOf a.functions := by
    refine List.filter_eq_self.mpr fun d hd => ?_
    rw [owner_of_mem_functions hnamed hd]
    rfl
  rw [htypes, hfunctions, List.nil_append]

/-- The descriptors of an owner are those of the types of this name. -/
theorem filter_owner_eq (hnamed : a.Named) (o : String) :
    (a.outcomes.filterMap Outcome.descriptor?).filter (·.owner == some o)
      = (a.types.filter (·.1.name == o)).flatMap fun p => wovenIn p.2 := by
  rw [descriptors_eq, List.filter_append]
  have hfunctions : (descriptorsOf a.functions).filter (·.owner == some o) = [] := by
    refine List.filter_eq_nil_iff.mpr fun d hd => ?_
    rw [owner_of_mem_functions hnamed hd]
    exact Bool.false_ne_true
  rw [hfunctions, List.append_nil]
  have hall : ∀ p ∈ a.types, (wovenIn p.2).filter (·.owner == some o)
      = if p.1.name == o then wovenIn p.2 else [] := by
    intro p hp
    split_ifs with hname
    · refine List.filter_eq_self.mpr fun d hd => ?_
      rw [owner_of_mem_wovenIn hnamed hp hd, beq_iff_eq.mp hname]
      exact beq_self_eq_true _
    · refine List.filter_eq_nil_iff.mpr fun d hd => ?_
      rw [owner_of_mem_wovenIn hnamed hp hd]
      simpa using hname
  -- entry by entry, all descriptors are kept or none
  generalize a.types = types at hall
  induction types with
  | nil => rfl
  | cons p types ih =>
      rw [List.forall_mem_cons] at hall
      rw [List.flatMap_cons, List.filter_append, hall.1, ih hall.2, List.filter_cons]
      split_ifs with hname
      · rw [List.flatMap_cons]
      · rw [List.nil_append]

/-- **IN A CLASS** names are given once exactly if entries for types of one name do not share
    public names. -/
theorem nodup_mixinNames_iff (ha : a.Of t) (o : String) :
    (mixinNames (a.outcomes.filterMap Outcome.descriptor?) o).Nodup ↔ EntriesApart a o := by
  rw [mixinNames, filter_owner_eq ha.named, List.map_flatMap, List.nodup_flatMap]
  have hentries : ∀ p ∈ a.types.filter (·.1.name == o), ((wovenIn p.2).map (·.publicName)).Nodup := by
    rintro ⟨T, fate⟩ hp
    cases fate with
    | error e => exact List.nodup_nil
    | ok fs =>
        obtain ⟨invariants, -, hfirst⟩ := ha.firstCome.types _ (List.mem_filter.mp hp).1 fs rfl
        exact hfirst.distinct
  rw [and_iff_right hentries, EntriesApart]
  refine iff_of_eq (congrArg (fun R => List.Pairwise R _) ?_)
  funext p q
  refine propext ?_
  constructor
  · intro h d hd e he heq
    exact h (List.mem_map_of_mem hd) (heq ▸ List.mem_map_of_mem he)
  · intro h n hn hn'
    obtain ⟨d, hd, rfl⟩ := List.mem_map.mp hn
    obtain ⟨e, he, heq⟩ := List.mem_map.mp hn'
    exact h d hd e he heq.symm

/-- **AT THE TOP OF THE MODULE** names are given once exactly if no function has the name of a
    class. -/
theorem nodup_moduleNames_iff (hload : Loaded t) (ha : a.Of t) :
    (moduleNames (a.outcomes.filterMap Outcome.descriptor?)).Nodup ↔
      ∀ d ∈ a.outcomes.filterMap Outcome.descriptor?, d.owner = none →
        ∀ o ∈ owners (a.outcomes.filterMap Outcome.descriptor?), d.publicName ≠ mixinName o := by
  obtain ⟨m, hm⟩ := hload.oneModule
  have hone : a.functions.filter (·.declaration.module == m) = a.functions := by
    refine List.filter_eq_self.mpr fun f hf => ?_
    have hmem : f.declaration ∈ t.functions := ha.functions ▸ List.mem_map_of_mem hf
    rw [hm _ hmem]
    exact beq_self_eq_true m
  have hdistinct : ((descriptorsOf a.functions).map (·.publicName)).Nodup := by
    have hfirst := (ha.firstCome.modules m).distinct
    rwa [hone] at hfirst
  have hmixins := (nodup_owners (a.outcomes.filterMap Outcome.descriptor?)).map mixinName_injective
  rw [moduleNames, List.nodup_append, filter_isNone_eq ha.named]
  constructor
  · rintro ⟨-, -, hdisjoint⟩ d hd howner o ho heq
    have hfunction : d ∈ descriptorsOf a.functions := by
      rw [← filter_isNone_eq ha.named]
      exact List.mem_filter.mpr ⟨hd, by rw [howner]; rfl⟩
    exact hdisjoint _ (List.mem_map_of_mem ho) _ (List.mem_map_of_mem hfunction) heq.symm
  · intro h
    refine ⟨hmixins, hdistinct, ?_⟩
    rintro n hn n' hn' rfl
    obtain ⟨o, ho, rfl⟩ := List.mem_map.mp hn
    obtain ⟨d, hd, hname⟩ := List.mem_map.mp hn'
    have hmem : d ∈ a.outcomes.filterMap Outcome.descriptor? := by
      rw [descriptors_eq]
      exact List.mem_append_right _ hd
    exact h d hmem (owner_of_mem_functions ha.named hd) o ho hname

/-- **ENTRY POINTS**: in the module of a woven table that was loaded, names are given once at the
    top exactly if no function has the name of a class, and in the class of an owner exactly if
    types of this name share no public names.  A module that can be emitted is read as a program
    that defines these names, with every wrapper under its own where they are given once. -/
theorem entryPoints_distinct {r : Result Datum} (hload : Loaded t) (h : weave t = .ok r) :
    ∃ a : Account Datum, a.Of t ∧ r.descriptors = a.outcomes.filterMap Outcome.descriptor? ∧
      ((moduleNames r.descriptors).Nodup ↔ ∀ d ∈ r.descriptors, d.owner = none →
        ∀ o ∈ owners r.descriptors, d.publicName ≠ mixinName o) ∧
      (∀ o, (mixinNames r.descriptors o).Nodup ↔ EntriesApart a o) ∧
      ∀ sourceModule, (∀ d ∈ r.descriptors, Emittable d) →
        (∀ m ∈ present sourceModule, IsModuleName m) →
        ∃ text ss, renderModule r.descriptors sourceModule = .ok text ∧
          readProgram? text.toList = some ss ∧ EntryPoints r.descriptors ss := by
  obtain ⟨a, ha, rfl⟩ := weave_eq_ok.mp h
  refine ⟨a, ha, rfl, nodup_moduleNames_iff hload ha, nodup_mixinNames_iff ha, ?_⟩
  intro sourceModule hds hsource
  obtain ⟨text, ss, htext, hread, heach⟩ := renderModule_reads hds hsource
  exact ⟨text, ss, htext, hread, entryPoints_of_reads heach⟩

/-- A method or function with a precondition, in a document. -/
def contracted (name condition : String) : Json :=
  .obj [("name", .str name), ("preconditions", .obj [(condition, .str "required")])]

/-- A document with a type, a type of the same name, and a function. -/
def ledgerDocument (rival : String) : Json := .obj [
  ("types", .arr [
    .obj [("name", .str "Ledger"), ("callables", .arr [contracted "_add" "amount > 0"])],
    .obj [("name", .str "Ledger"), ("callables", .arr [contracted rival "amount < 9"])]]),
  ("functions", .arr [contracted "_audit" "limit > 0"])]

/-- What is woven from a document, if nothing is rejected: the names at the top of the module and
    those in the class of the ledger. -/
def wovenNames (j : Json) : Option (List String × List String) :=
  (Document.readTable [] j).toOption.bind fun t => (weave t).toOption.bind fun r =>
    if r.errors = [] then some (moduleNames r.descriptors, mixinNames r.descriptors "Ledger")
    else none

theorem exists_of_wovenNames {j : Json} {top members : List String}
    (h : wovenNames j = some (top, members)) : ∃ t r, Document.readTable [] j = .ok t ∧
      weave t = .ok r ∧ r.errors = [] ∧ moduleNames r.descriptors = top ∧
      mixinNames r.descriptors "Ledger" = members := by
  obtain ⟨t, ht, h⟩ := Option.bind_eq_some_iff.mp h
  obtain ⟨r, hr, h⟩ := Option.bind_eq_some_iff.mp h
  obtain ⟨herrors, h⟩ := Option.ite_none_right_eq_some.mp h
  obtain ⟨htop, hmembers⟩ := Prod.mk.inj (Option.some.inj h)
  exact ⟨t, r, toOption_eq_some.mp ht, toOption_eq_some.mp hr, herrors, htop, hmembers⟩

/-- Types of one name with different public names share a class. -/
theorem entryPoints_distinct_ledger : ∃ t r a, Document.readTable [] (ledgerDocument "_remove") = .ok t ∧
    weave t = .ok r ∧ Account.Of a t ∧ moduleNames r.descriptors = ["LedgerContracts", "audit"] ∧
      mixinNames r.descriptors "Ledger" = ["add", "remove"] ∧ EntriesApart a "Ledger" := by
  obtain ⟨t, r, ht, hr, -, htop, hmembers⟩ := exists_of_wovenNames
    (show wovenNames (ledgerDocument "_remove")
      = some (["LedgerContracts", "audit"], ["add", "remove"]) by decide +kernel)
  obtain ⟨a, ha, -, -, hmixin, -⟩ := entryPoints_distinct (.document ht) hr
  refine ⟨t, r, a, ht, hr, ha, htop, hmembers, (hmixin "Ledger").mp ?_⟩
  rw [hmembers]
  decide

/-- Types of one name with the same public name share a class, too: nothing is rejected, and the
    wrapper of the second method hides that of the first. -/
theorem entryPoints_overwritten : ∃ t r, Document.readTable [] (ledgerDocument "__add") = .ok t ∧
    weave t = .ok r ∧ r.errors = [] ∧ mixinNames r.descriptors "Ledger" = ["add", "add"] ∧
      ¬ (mixinNames r.descriptors "Ledger").Nodup := by
  obtain ⟨t, r, ht, hr, herrors, -, hmembers⟩ := exists_of_wovenNames
    (show wovenNames (ledgerDocument "__add")
      = some (["LedgerContracts", "audit"], ["add", "add"]) by decide +kernel)
  refine ⟨t, r, ht, hr, herrors, hmembers, ?_⟩
  rw [hmembers]
  decide

end Covenant.Wrapper
