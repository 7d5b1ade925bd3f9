import Covenant.Proofs.Weaving.Escapes
import Covenant.Proofs.Weaving.Isolation
import Covenant.Proofs.Weaving.Placement
import Mathlib.Data.List.TakeWhile

/-! # Public names — first come, first served

    A type has a registry of the public names given to its callables, and so
    have the functions of a module.  A declaration gets its name if nothing
    else has it, and a rejected declaration reserves none.

    * `Settles` says what weaving makes of one callable and why;
      `settles_of_weaveCallable` takes the function apart once.
    * `Course.reaches` is the registry in front of every declaration: it holds
      the names of the accepted ones before it, and nothing else.
    * `FirstCome` is the law of one place, `Course.firstCome` proves it, and
      `publicNames_first_come` states it of every type and module of a table. -/

namespace Covenant.Weaving

open Condition Declaration Wrapper

variable {α : Type} {c : Callable α} {enclosing : Option (TypeDecl α)}
  {invariants : List ParsedClause} {registry after : Registry} {name : String} {role : Role}

/-! ## Names -/

/-- A public name is that of the initializer, or the name without underscores at its start. -/
theorem publicName_cases (name : String) (role : Role) :
    (name = initializerName ∧ publicName name role = publicInitializerName) ∨
      (publicName name role).toList = name.toList.dropWhile (· = '_') := by
  rw [publicName]
  by_cases h : role = .constructor ∧ name = initializerName
  · rw [if_pos h]
    exact .inl ⟨h.2, rfl⟩
  · rw [if_neg h, String.toList_ofList]
    exact .inr rfl

/-- Something is left of a private name. -/
theorem publicName_ne_empty (h : PrivateName name) : publicName name role ≠ "" := by
  intro hempty
  rcases publicName_cases name role with ⟨-, hname⟩ | hname
  · exact absurd (hname.symm.trans hempty) (by decide)
  · rw [hempty] at hname
    obtain ⟨ch, hmem, hch⟩ := h.named
    have hall : ∀ ch ∈ name.toList, decide (ch = '_') = true :=
      List.dropWhile_eq_nil_iff.mp hname.symm
    exact hch (of_decide_eq_true (hall ch hmem))

/-- A public name is never that of its implementation. -/
theorem publicName_ne_self (h : PrivateName name) : publicName name role ≠ name := by
  intro hself
  rcases publicName_cases name role with ⟨hinit, hname⟩ | hname
  · rw [hself, hinit] at hname
    exact absurd hname (by decide)
  · -- the implementation starts with an underscore, which is dropped
    obtain ⟨rest, hrest⟩ := h.starts
    have hhead := List.head?_dropWhile_not (fun ch => decide (ch = '_')) name.toList
    rw [← hname, hself, hrest, String.toList_append] at hhead
    exact absurd (show decide ('_' = '_') = false from hhead) (by decide)

/-! ## One declaration -/

/-- Why a registry does not give a name: an accepted callable has it, or it was taken before
    all of them. -/
inductive Conflicts (registry : Registry) (name : String) : NameConflict → Prop where
  | claimed {other : String} (h : registry.claimed.lookup name = some other) :
      Conflicts registry name (.claimed other)
  | defined (hfree : registry.claimed.lookup name = none) (h : name ∈ registry.taken) :
      Conflicts registry name .defined

theorem claim_eq_error {internal : String} {cause : Cause} :
    registry.claim name internal = .error cause ↔ ∃ conflict, Conflicts registry name conflict ∧
      cause = .duplicateName name internal (presentOr registry.owner "module") conflict := by
  rw [Registry.claim]
  constructor
  · intro h
    split at h
    · rename_i other hother
      cases h
      exact ⟨.claimed other, .claimed hother, rfl⟩
    · rename_i hfree
      by_cases htaken : registry.taken.contains name
      · rw [if_pos htaken] at h
        cases h
        exact ⟨.defined, .defined hfree (List.contains_iff_mem.mp htaken), rfl⟩
      · rw [if_neg htaken] at h
        exact nomatch h
  · rintro ⟨conflict, hconflict, rfl⟩
    cases hconflict with
    | claimed hother => rw [hother]
    | defined hfree htaken =>
        rw [hfree]
        exact if_pos (List.contains_iff_mem.mpr htaken)

/-- What weaving makes of a callable and why, with the public names before and after it. -/
inductive Settles (c : Callable α) (enclosing : Option (TypeDecl α))
    (invariants : List ParsedClause) (registry : Registry) :
    Option (Outcome α) → Registry → Prop where
  | nothing (hv : validateCallable c enclosing invariants = .ok none) :
      Settles c enclosing invariants registry none registry
  | invalid {e : GenerationError} (hv : validateCallable c enclosing invariants = .error e) :
      Settles c enclosing invariants registry
        (some (.rejected (e.locate (enclosing.map (·.name)) (some c.name)))) registry
  | refused {v : Validated α} {conflict : NameConflict}
      (hv : validateCallable c enclosing invariants = .ok (some v))
      (hconflict : Conflicts registry (publicName c.name c.role) conflict) :
      Settles c enclosing invariants registry
        (some (.rejected (GenerationError.locate
          ⟨.duplicateName (publicName c.name c.role) c.name (presentOr registry.owner "module")
            conflict, none, none, none⟩
          (enclosing.map (·.name)) (some c.name)))) registry
  | woven {v : Validated α} {d : Descriptor α}
      (hv : validateCallable c enclosing invariants = .ok (some v))
      (hd : describe v enclosing = .ok d)
      (hfree : registry.claimed.lookup d.publicName = none) (htaken : d.publicName ∉ registry.taken) :
      Settles c enclosing invariants registry (some (.woven d))
        { registry with claimed := (d.publicName, d.internalName) :: registry.claimed }

/-- The names of a descriptor are those of its callable. -/
theorem names_of_describe {v : Validated α} {d : Descriptor α}
    (hv : validateCallable c enclosing invariants = .ok (some v))
    (hd : describe v enclosing = .ok d) :
    d.publicName = publicName c.name c.role ∧ d.internalName = c.name := by
  have hdeclaration := (accepts_of_validateCallable hv).declaration
  refine ⟨?_, ?_⟩
  · unfold describe at hd
    obtain ⟨_, -, hd⟩ := bind_eq_ok.mp hd
    obtain ⟨_, -, hd⟩ := bind_eq_ok.mp hd
    obtain ⟨_, -, hd⟩ := bind_eq_ok.mp hd
    cases hd
    rw [hdeclaration]
  · rw [(describes_of_describe hd).internalName, hdeclaration]

/-- **ONE CALLABLE** is settled: it has no contract, or does not pass validation, or its public
    name is another one's, or it is woven and has its name from then on. -/
theorem settles_of_weaveCallable {o : Option (Outcome α)}
    (hi : ∀ T, enclosing = some T → validateType T = .ok invariants)
    (h : weaveCallable c enclosing invariants registry = .ok (o, after)) :
    Settles c enclosing invariants registry o after := by
  rw [weaveCallable] at h
  dsimp only at h
  split at h
  · rename_i e hv
    cases h
    exact .invalid hv
  · rename_i hv
    cases h
    exact .nothing hv
  · rename_i v hv
    have hfaults : FailsWith Unforeseen (describe v enclosing) := describe_unforeseen fun s q hq =>
      right_of_clauseOf (accepts_of_validateCallable hv) hi hq
    obtain ⟨made, hmade, h⟩ := bind_eq_ok.mp h
    rw [generate] at hmade
    split at hmade
    · rename_i d hd
      cases hmade
      obtain ⟨hpublic, hinternal⟩ := names_of_describe hv hd
      dsimp only at h
      split at h
      · rename_i cause hclaim
        cases h
        obtain ⟨conflict, hconflict, rfl⟩ := claim_eq_error.1 hclaim
        rw [hpublic, hinternal]
        rw [hpublic] at hconflict
        exact .refused hv hconflict
      · rename_i hclaim
        cases h
        obtain ⟨hfree, htaken, rfl⟩ := claim_eq_ok.mp hclaim
        exact .woven hv hd hfree htaken
    · -- validation has found all faults with calls of `old`
      rename_i fault hd
      exact absurd rfl (hfaults _ hd fault)
    · exact nomatch hmade
    · exact nomatch hmade

/-! ## One place -/

/-- The public names that descriptors have, the last one first. -/
def claims (ds : List (Descriptor α)) : List (String × String) :=
  (ds.map fun d => (d.publicName, d.internalName)).reverse

theorem claims_cons (d : Descriptor α) (ds : List (Descriptor α)) :
    claims (d :: ds) = claims ds ++ [(d.publicName, d.internalName)] := by
  rw [claims, List.map_cons, List.reverse_cons]
  rfl

theorem descriptorsOf_cons (c : Callable α) (o : Option (Outcome α)) (fs : List (Fate α)) :
    descriptorsOf (⟨c, o⟩ :: fs) = (o.bind Outcome.descriptor?).toList ++ descriptorsOf fs := by
  match o with
  | none => rfl
  | some (.woven d) => rfl
  | some (.rejected e) => rfl

theorem descriptorsOf_append (fs gs : List (Fate α)) :
    descriptorsOf (fs ++ gs) = descriptorsOf fs ++ descriptorsOf gs := by
  rw [descriptorsOf, outcomes, List.filterMap_append, List.filterMap_append]
  rfl

/-- **THE REGISTRY IN FRONT OF A DECLARATION** holds the names of the accepted ones before it; the
    declaration is settled by it. -/
theorem Course.reaches {before behind : List (Fate α)} {f : Fate α}
    (hi : ∀ T, enclosing = some T → validateType T = .ok invariants)
    (h : Course (placeStep enclosing invariants) registry (before ++ f :: behind)) :
    ∃ after, Settles f.declaration enclosing invariants
      { registry with claimed := claims (descriptorsOf before) ++ registry.claimed }
      f.outcome after := by
  induction before generalizing registry with
  | nil =>
      cases h with
      | next hstep rest => exact ⟨_, settles_of_weaveCallable hi hstep⟩
  | cons g before ih =>
      cases h with
      | @next _ after c o _ hstep rest =>
          obtain ⟨last, hlast⟩ := ih rest
          refine ⟨last, ?_⟩
          rw [descriptorsOf_cons]
          -- only a woven declaration leaves a name behind
          cases settles_of_weaveCallable hi hstep with
          | nothing => exact hlast
          | invalid => exact hlast
          | refused => exact hlast
          | woven =>
              rw [show (some (Outcome.woven _)).bind Outcome.descriptor? = some _ from rfl,
                Option.toList_some, List.singleton_append, claims_cons, List.append_assoc]
              exact hlast

theorem lookup_claims_eq_none {ds : List (Descriptor α)} :
    (claims ds).lookup name = none ↔ ∀ d ∈ ds, d.publicName ≠ name := by
  rw [List.lookup_eq_none_iff, claims]
  simp only [List.mem_reverse, List.mem_map, forall_exists_index, and_imp,
    forall_apply_eq_imp_iff₂, bne_iff_ne]
  exact forall₂_congr fun d _ => ne_comm

theorem mem_of_lookup_claims {ds : List (Descriptor α)} {other : String}
    (h : (claims ds).lookup name = some other) :
    ∃ d ∈ ds, d.publicName = name ∧ d.internalName = other := by
  obtain ⟨front, rest, hclaims, -⟩ := List.lookup_eq_some_iff.mp h
  have hmem : (name, other) ∈ claims ds := by
    rw [hclaims]
    exact List.mem_append_right front List.mem_cons_self
  obtain ⟨d, hd, hpair⟩ := List.mem_map.mp (List.mem_reverse.mp hmem)
  exact ⟨d, hd, congrArg Prod.fst hpair, congrArg Prod.snd hpair⟩

/-! ## The law of a place -/

/-- A callable that passes validation. -/
def Passes (c : Callable α) (enclosing : Option (TypeDecl α)) (invariants : List ParsedClause) :
    Prop :=
  ∃ v, validateCallable c enclosing invariants = .ok (some v)

/-- Who has a name: an earlier declaration, or a member or field of the place. -/
inductive HeldBy (taken : List String) (earlier : List (Descriptor α)) (name : String) :
    NameConflict → Prop where
  | claimed {d : Descriptor α} (hd : d ∈ earlier) (hname : d.publicName = name) :
      HeldBy taken earlier name (.claimed d.internalName)
  | defined (htaken : name ∈ taken) (hfree : ∀ d ∈ earlier, d.publicName ≠ name) :
      HeldBy taken earlier name .defined

/-- A callable was rejected for its public name, which something else has. -/
def Fate.Collides (f : Fate α) (conflict : NameConflict) : Prop :=
  ∃ e place, f.outcome = some (.rejected e) ∧ e.cause = .duplicateName
    (publicName f.declaration.name f.declaration.role) f.declaration.name place conflict

/-- A callable was rejected for a public name. -/
def Fate.IsDuplicate (f : Fate α) : Prop :=
  ∃ e, f.outcome = some (.rejected e) ∧ e.kind = "DuplicatePublicName"

/-- **FIRST COME, FIRST SERVED** at a place where some names are taken from the start. -/
structure FirstCome (enclosing : Option (TypeDecl α)) (invariants : List ParsedClause)
    (taken : List String) (fs : List (Fate α)) : Prop where
  nonempty : ∀ d ∈ descriptorsOf fs, d.publicName ≠ ""
  distinct : ((descriptorsOf fs).map (·.publicName)).Nodup
  untaken : ∀ d ∈ descriptorsOf fs, d.publicName ∉ taken
  apart : ∀ d ∈ descriptorsOf fs, d.publicName ≠ d.internalName
  collides : ∀ before f behind, fs = before ++ f :: behind → ∀ conflict, f.Collides conflict ↔
    Passes f.declaration enclosing invariants ∧ HeldBy taken (descriptorsOf before)
      (publicName f.declaration.name f.declaration.role) conflict
  duplicates : ∀ f ∈ fs, f.IsDuplicate ↔ ∃ conflict, f.Collides conflict

/-- The descriptors behind a registry say who has its names, if they are distinct. -/
theorem conflicts_iff {ds : List (Descriptor α)} {conflict : NameConflict}
    (hnodup : (ds.map (·.publicName)).Nodup) (hempty : registry.claimed = []) :
    Conflicts { registry with claimed := claims ds ++ registry.claimed } name conflict ↔
      HeldBy registry.taken ds name conflict := by
  rw [hempty, List.append_nil]
  constructor
  · intro h
    cases h with
    | claimed h =>
        obtain ⟨d, hd, hname, rfl⟩ := mem_of_lookup_claims h
        exact .claimed hd hname
    | defined hfree htaken => exact .defined htaken (lookup_claims_eq_none.1 hfree)
  · intro h
    cases h with
    | @claimed d hd hname =>
        cases hfound : (claims ds).lookup name with
        | none => exact absurd hname (lookup_claims_eq_none.1 hfound d hd)
        | some other =>
            obtain ⟨d', hd', hname', rfl⟩ := mem_of_lookup_claims hfound
            obtain rfl := List.inj_on_of_nodup_map hnodup hd hd' (hname.trans hname'.symm)
            exact .claimed hfound
    | defined htaken hfree => exact .defined (lookup_claims_eq_none.2 hfree) htaken

theorem Conflicts.unique {conflict conflict' : NameConflict}
    (h : Conflicts registry name conflict) (h' : Conflicts registry name conflict') :
    conflict = conflict' := by
  cases h with
  | claimed h =>
      cases h' with
      | claimed h' => rw [Option.some.inj (h.symm.trans h')]
      | defined hfree' => exact nomatch h.symm.trans hfree'
  | defined hfree =>
      cases h' with
      | claimed h' => exact nomatch hfree.symm.trans h'
      | defined => rfl

/-- Only a callable that passes validation and finds its name given is rejected for it. -/
theorem Settles.collides_iff {f : Fate α} {conflict : NameConflict}
    (h : Settles f.declaration enclosing invariants registry f.outcome after) :
    f.Collides conflict ↔ Passes f.declaration enclosing invariants ∧
      Conflicts registry (publicName f.declaration.name f.declaration.role) conflict := by
  obtain ⟨c, o⟩ := f
  dsimp only at h ⊢
  cases h with
  | nothing hv =>
      refine iff_of_false ?_ ?_
      · rintro ⟨e, place, h, -⟩
        exact nomatch h
      · rintro ⟨⟨v, hv'⟩, -⟩
        exact nomatch hv.symm.trans hv'
  | invalid hv =>
      refine iff_of_false ?_ ?_
      · rintro ⟨e, place, h, hcause⟩
        cases h
        exact (validateCallable_reported enclosing c invariants _ hv).ne_duplicateName _ _ _ _ hcause
      · rintro ⟨⟨v, hv'⟩, -⟩
        exact nomatch hv.symm.trans hv'
  | @refused v conflict' hv hconflict =>
      constructor
      · rintro ⟨e, place, h, hcause⟩
        cases h
        cases hcause
        exact ⟨⟨v, hv⟩, hconflict⟩
      · rintro ⟨-, hconflict'⟩
        rw [hconflict'.unique hconflict]
        exact ⟨_, _, rfl, rfl⟩
  | @woven v d hv hd hfree htaken =>
      rw [(names_of_describe hv hd).1] at hfree htaken
      refine iff_of_false ?_ ?_
      · rintro ⟨e, place, h, -⟩
        exact nomatch h
      · rintro ⟨-, hconflict⟩
        cases hconflict with
        | claimed h => exact nomatch hfree.symm.trans h
        | defined _ h => exact htaken h

/-- The error of a rejected callable is of this kind only if its own name was refused. -/
theorem Settles.isDuplicate_iff {f : Fate α}
    (h : Settles f.declaration enclosing invariants registry f.outcome after) :
    f.IsDuplicate ↔ ∃ conflict, f.Collides conflict := by
  constructor
  · rintro ⟨e, ho, hkind⟩
    obtain ⟨c, o⟩ := f
    dsimp only at h ho
    subst ho
    cases h with
    | @invalid e hv =>
        exact absurd hkind (validateCallable_reported enclosing c invariants e hv).kind_ne
    | refused => exact ⟨_, _, _, rfl, rfl⟩
  · rintro ⟨conflict, e, place, ho, hcause⟩
    exact ⟨e, ho, by rw [GenerationError.kind, hcause, Cause.kind]⟩

/-- A descriptor is that of a declaration somewhere in the course, and weaving settled it so. -/
theorem Course.exists_settled {fs : List (Fate α)} {d : Descriptor α}
    (hi : ∀ T, enclosing = some T → validateType T = .ok invariants)
    (h : Course (placeStep enclosing invariants) registry fs) (hd : d ∈ descriptorsOf fs) :
    ∃ (f : Fate α) (reached after : Registry), reached.taken = registry.taken ∧
      Settles f.declaration enclosing invariants reached (some (.woven d)) after := by
  obtain ⟨f, hf, hfo⟩ := mem_descriptorsOf.mp hd
  obtain ⟨before, behind, rfl⟩ := List.append_of_mem hf
  obtain ⟨after, hsettles⟩ := h.reaches hi
  rw [hfo] at hsettles
  refine ⟨f, _, after, ?_, hsettles⟩
  rfl

/-- The name of a descriptor is a private one without the underscores at its start, and not one
    that was taken. -/
theorem Settles.publicName {o : Outcome α} {d : Descriptor α}
    (h : Settles c enclosing invariants registry (some o) after) (ho : o = .woven d) :
    d.publicName ≠ "" ∧ d.publicName ∉ registry.taken ∧ d.publicName ≠ d.internalName := by
  cases h with
  | invalid => exact nomatch ho
  | refused => exact nomatch ho
  | woven hv hd _ htaken =>
      obtain rfl := Outcome.woven.inj ho
      have hname : PrivateName c.name :=
        (placementFault?_eq_none.mp (accepts_of_validateCallable hv).placed).privateName
      obtain ⟨hpublic, hinternal⟩ := names_of_describe hv hd
      refine ⟨?_, htaken, ?_⟩
      · rw [hpublic]
        exact publicName_ne_empty hname
      · rw [hpublic, hinternal]
        exact publicName_ne_self hname

/-- **THE LAW OF A PLACE** holds of a course that begins with no name given. -/
theorem Course.firstCome {fs : List (Fate α)}
    (hi : ∀ T, enclosing = some T → validateType T = .ok invariants)
    (hempty : registry.claimed = [])
    (h : Course (placeStep enclosing invariants) registry fs) :
    FirstCome enclosing invariants registry.taken fs := by
  have hnames : ∀ d ∈ descriptorsOf fs,
      d.publicName ≠ "" ∧ d.publicName ∉ registry.taken ∧ d.publicName ≠ d.internalName := by
    intro d hd
    obtain ⟨f, reached, after, htaken, hsettles⟩ := h.exists_settled hi hd
    exact htaken ▸ hsettles.publicName rfl
  have hdistinct := h.publicNames_fresh.1
  refine {
    nonempty := fun d hd => (hnames d hd).1
    distinct := hdistinct
    untaken := fun d hd => (hnames d hd).2.1
    apart := fun d hd => (hnames d hd).2.2
    collides := ?_
    duplicates := ?_ }
  · rintro before f behind rfl conflict
    obtain ⟨after, hsettles⟩ := h.reaches hi
    have hbefore : ((descriptorsOf before).map (·.publicName)).Nodup := by
      rw [descriptorsOf_append, List.map_append] at hdistinct
      exact hdistinct.of_append_left
    rw [hsettles.collides_iff, conflicts_iff hbefore hempty]
  · intro f hf
    obtain ⟨before, behind, rfl⟩ := List.append_of_mem hf
    obtain ⟨after, hsettles⟩ := h.reaches hi
    exact hsettles.isDuplicate_iff

/-! ## Modules -/

/-- **THE FUNCTIONS OF ONE MODULE** are taken as those of one place: those of the others leave
    its registry alone. -/
theorem Course.ofModule {registries : Option String → Registry} {fs : List (Fate α)}
    (h : Course functionStep registries fs) (m : Option String) :
    Course (placeStep none []) (registries m) (fs.filter (·.declaration.module == m)) := by
  induction h with
  | done => exact .done
  | @next registries after f o fs hstep _ ih =>
      obtain ⟨⟨o', registry⟩, hweave, hstep⟩ := bind_eq_ok.mp hstep
      cases hstep
      by_cases hm : f.module = m
      · subst hm
        rw [List.filter_cons_of_pos (by simp)]
        rw [Function.update_self] at ih
        exact .next hweave ih
      · rw [List.filter_cons_of_neg (by simpa using hm)]
        rw [Function.update_of_ne (Ne.symm hm)] at ih
        exact ih

/-! ## Tables -/

/-- The law of public names in what became of a table: it holds of every type and of the
    functions of every module, and no type is rejected for a name. -/
structure Account.FirstCome (a : Account α) : Prop where
  types : ∀ p ∈ a.types, ∀ fs, p.2 = .ok fs → ∃ invariants, validateType p.1 = .ok invariants ∧
    Weaving.FirstCome (some p.1) invariants (p.1.members ++ p.1.fields) fs
  rejectedTypes : ∀ p ∈ a.types, ∀ e, p.2 = .error e → e.kind ≠ "DuplicatePublicName"
  modules : ∀ m, Weaving.FirstCome none [] [] (a.functions.filter (·.declaration.module == m))

theorem Account.Of.firstCome {a : Account α} {t : Table α} (h : a.Of t) : a.FirstCome where
  types := by
    intro p hp fs hfs
    have hT := h.members p hp
    rw [hfs] at hT
    obtain ⟨invariants, hinvariants, hcourse, -⟩ := hT
    have hi : ∀ T, some p.1 = some T → validateType T = .ok invariants := by
      rintro T ⟨⟩
      exact hinvariants
    exact ⟨invariants, hinvariants, Course.firstCome hi rfl hcourse⟩
  rejectedTypes := by
    intro p hp e he
    have hT := h.members p hp
    rw [he] at hT
    obtain ⟨e', he', rfl⟩ := hT
    exact (validateType_reported (some p.1) p.1 e' he').kind_ne
  modules := by
    intro m
    have hi : ∀ T : TypeDecl α, none = some T → validateType T = .ok [] := nofun
    exact (h.course.ofModule m).firstCome hi rfl

/-- **FIRST COME, FIRST SERVED**: a woven table can be accounted for, its descriptors and errors
    being those of the account.  In every type, and among the functions of every module, public
    names are not empty, given once, not those of members or fields and not those of their
    implementations; and a declaration is rejected for its public name exactly if it passes
    validation and a member, a field or an accepted declaration before it has the name. -/
theorem publicNames_first_come {t : Table α} {r : Result α} (h : weave t = .ok r) :
    ∃ a : Account α, a.Of t ∧ a.FirstCome ∧
      r.errors = t.errors ++ a.outcomes.filterMap Outcome.error? ∧
      r.descriptors = a.outcomes.filterMap Outcome.descriptor? := by
  obtain ⟨a, ha, rfl⟩ := weave_eq_ok.mp h
  exact ⟨a, ha, ha.firstCome, rfl, rfl⟩

/-- A ledger with two methods of one public name and one with that of a field, and functions of
    one name in two modules. -/
def contested : Table Value.Datum :=
  let pre : List Clause := [⟨"amount > 0", "amount must be positive"⟩]
  { types := [{ name := "Ledger", fields := ["total"], callables := [
      { name := "_add", preconditions := pre }, { name := "__add", preconditions := pre },
      { name := "_total", preconditions := pre }] }]
    functions := [
      { name := "_open", role := .function, module := some "desk", preconditions := pre },
      { name := "__open", role := .function, module := some "desk", preconditions := pre },
      { name := "_open", role := .function, module := some "vault", preconditions := pre }] }

/-- The first of each name is woven; in another module the name is free again. -/
theorem publicNames_first_come_contested : ∃ r, weave contested = .ok r ∧
    r.descriptors.map (·.publicName) = ["add", "open", "open"] ∧
    r.errors.map (·.callableName) = [some "__add", some "_total", some "__open"] ∧
    ∃ a : Account Value.Datum, a.Of contested ∧ a.FirstCome := by
  have hwoven : (weave contested).toOption.map (fun r => (r.descriptors.map (·.publicName),
      r.errors.map (·.callableName))) =
        some (["add", "open", "open"], [some "__add", some "_total", some "__open"]) := by
    decide +kernel
  obtain ⟨r, hr, hseen⟩ := Option.map_eq_some_iff.mp hwoven
  obtain ⟨hdescriptors, herrors⟩ := Prod.mk.inj hseen
  obtain ⟨a, ha, hlaw, -, -⟩ := publicNames_first_come (toOption_eq_some.mp hr)
  exact ⟨r, toOption_eq_some.mp hr, hdescriptors, herrors, a, ha, hlaw⟩

end Covenant.Weaving
