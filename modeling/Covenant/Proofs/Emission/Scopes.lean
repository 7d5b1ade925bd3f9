import Covenant.Proofs.Condition.Readings
import Covenant.Proofs.Emission.EntryPoints
import Covenant.Proofs.Machine.Origins
import Mathlib.Data.List.Infix

/-! # Scopes — what the names of an emitted check stand for

    An emitted check stands in the body of a wrapper.  A name is a local
    variable there if the wrapper declares it or its body gives it a value
    anywhere; in a class, private names get the name of the class first.
    Behind the local variables are the names of the emitted module, not those
    of the module of the implementation.

    * `Descriptor.found` says what a name stands for at a check, and
      `foundInScope` that the machine answers with the value of this.
    * `scopedAs_of_isEntryPoint` and `scopesOf_of_reads`: in the program that
      the text of a module is read as, a wrapper has these local variables, and
      the module these names. -/

namespace Covenant.Wrapper

open Condition Declaration Grammar Machine Signature Text Covenant.Tree
open Covenant.Value (Datum)

variable {d : Descriptor Datum} {ds : List (Descriptor Datum)} {x n : String}
  {before : List Statement} {sourceModule : Option String}

/-! ## Private names -/

/-- Whether a name has two underscores in front and not behind. -/
def isMarked (name : String) : Bool :=
  "__".isPrefixOf name && !(['_', '_'].isSuffixOf name.toList)

theorem privateName_cases (owner : Option String) (x : String) :
    privateName owner x = x ∨
      isMarked x = true ∧ x.toList <:+ (privateName owner x).toList := by
  cases owner with
  | none => exact .inl rfl
  | some c =>
      rw [privateName]
      split_ifs with h
      · simp only [Bool.and_eq_true] at h
        refine .inr ⟨?_, ?_⟩
        · rw [isMarked, h.1.1.1, h.1.1.2]
          rfl
        · rw [String.toList_append]
          exact List.suffix_append _ _
      · exact .inl rfl

theorem privateName_of_not_marked (owner : Option String) (h : isMarked x = false) :
    privateName owner x = x := by
  refine (privateName_cases owner x).resolve_right fun hx => ?_
  rw [h] at hx
  exact Bool.false_ne_true hx.1

/-- No end of a name is marked. -/
def Unmarked (name : String) : Prop :=
  ∀ cs ∈ name.toList.tails, isMarked (String.ofList cs) = false

instance (name : String) : Decidable (Unmarked name) :=
  List.decidableBAll (fun cs => isMarked (String.ofList cs) = false) _

/-- A name of which no end is marked is stored for itself only. -/
theorem privateName_eq_iff {owner : Option String} (hn : Unmarked n) :
    privateName owner x = n ↔ x = n := by
  have hends {y : String} (hy : y.toList <:+ n.toList) : isMarked y = false := by
    have hmem := hn _ ((List.mem_tails _ _).mpr hy)
    rwa [String.ofList_toList] at hmem
  constructor
  · intro h
    rcases privateName_cases owner x with heq | ⟨hmarked, hsuffix⟩
    · exact heq.symm.trans h
    · rw [h] at hsuffix
      rw [hends hsuffix] at hmarked
      exact absurd hmarked Bool.false_ne_true
  · rintro rfl
    exact privateName_of_not_marked owner (hends (List.suffix_refl _))

theorem isMarked_ofList (cs : List Char) :
    isMarked (String.ofList cs) = (['_', '_'].isPrefixOf cs && !(['_', '_'].isSuffixOf cs)) := by
  have hfront : "__".isPrefixOf (String.ofList cs) = ['_', '_'].isPrefixOf cs := by
    have hmark : "__".toList = ['_', '_'] := String.toList_ofList
    rw [Bool.eq_iff_iff, List.isPrefixOf_iff_prefix]
    refine String.startsWith_string_iff.trans ?_
    rw [hmark, String.toList_ofList]
  rw [isMarked, hfront, String.toList_ofList]

/-- The names that a wrapper gives, and those that are known everywhere. -/
theorem unmarked_given :
    ∀ n ∈ [selfName, resultName, lookupName] ++ builtinNames.map (·.1), Unmarked n := by
  simp only [Unmarked, isMarked_ofList]
  decide +kernel

theorem unmarked_self : Unmarked selfName := unmarked_given _ List.mem_cons_self

theorem unmarked_result : Unmarked resultName :=
  unmarked_given _ (List.mem_cons_of_mem _ List.mem_cons_self)

theorem unmarked_lookup : Unmarked lookupName :=
  unmarked_given _ (List.mem_cons_of_mem _ (List.mem_cons_of_mem _ List.mem_cons_self))

theorem unmarked_builtin : ∀ p ∈ builtinNames, Unmarked p.1 := fun _ hp =>
  unmarked_given _ (List.mem_append_right _ (List.mem_map_of_mem hp))

/-! ## Variables -/

/-- What the result stands for after the call of the implementation. -/
def Bind.origin : Bind → Origin
  | .outcome => .result
  | .receiver => .receiver

/-- The variables that a statement gives values to, with what they then stand for.  A default that
    is resolved is the argument of its parameter, so this stands for what it stood for. -/
def Statement.assigns : Statement → Names Origin
  | .makeInstance => [(selfName, .receiver)]
  | .openStore => [(lookupName, .captures)]
  | .invoke bind => [(resultName, bind.origin)]
  | _ => []

namespace Descriptor

variable (d : Descriptor Datum)

/-- The name under which a name is stored where the wrapper stands. -/
def scopeName (x : String) : String := privateName (d.owner.map mixinName) x

/-- What the parameters stand for. -/
def parameterVariables : Names Origin :=
  ((present d.signature.receiver).toList.map fun r =>
      (d.scopeName r, if r = selfName then .receiver else .emitted r))
    ++ d.signature.declaration.map fun p => (d.scopeName p.name, .argument p.name)

/-- What the variables stand for after some statements, the latest first. -/
def held (before : List Statement) : Names Origin :=
  (before.flatMap Statement.assigns).reverse ++ d.parameterVariables

/-- The names that checks of the wrapper assign values to. -/
def assigned : List String := d.clauses.flatMap fun c => assignedNames c.tree

/-- What a variable stands for after some statements. -/
def meaning? (before : List Statement) (n : String) : Option Origin :=
  if n ∈ d.assigned.map d.scopeName then some (.assigned n) else (d.held before).lookup n

/-- The names that are local to the wrapper. -/
def localVariables : List String := (d.held d.body).map (·.1) ++ d.assigned.map d.scopeName

/-- The names that a class brings to the wrappers in it.  Programs that are read have no type
    parameters, which would be further names between a wrapper and its module. -/
def enclosingNames : List String := if d.owner.isSome then ["__class__"] else []

/-- The names behind which those of the module are not seen. -/
def hidingNames : List String := d.localVariables ++ d.enclosingNames

/-- What a name stands for behind some statements, in a module with these names. -/
def found (names : Names Origin) (before : List Statement) (x : String) : Origin :=
  match d.meaning? before (d.scopeName x) with
  | some o => o
  | none =>
    if d.scopeName x ∈ d.localVariables then .unset
    else if d.scopeName x ∈ d.enclosingNames then .emitted (d.scopeName x)
    else inModule names (d.scopeName x)

end Descriptor

theorem keys_parameterVariables (d : Descriptor Datum) :
    d.parameterVariables.map (·.1) = d.declaredNames.map d.scopeName := by
  rw [Descriptor.parameterVariables, Descriptor.declaredNames]
  simp only [List.map_append, List.map_map]
  rfl

theorem mem_keys_held : n ∈ (d.held before).map (·.1) ↔
    n ∈ (before.flatMap Statement.assigns).map (·.1) ∨ n ∈ d.declaredNames.map d.scopeName := by
  rw [Descriptor.held, List.map_append, List.mem_append, List.map_reverse, List.mem_reverse,
    keys_parameterVariables]

/-- What is a variable behind some statements of the body is local. -/
theorem mem_localVariables_of_meaning? {rest : List Statement} (hbody : d.body = before ++ rest)
    {o : Origin} (h : d.meaning? before n = some o) : n ∈ d.localVariables := by
  rw [Descriptor.localVariables, List.mem_append]
  rw [Descriptor.meaning?] at h
  split_ifs at h with hn
  · exact .inr hn
  · refine .inl (mem_keys_held.2 ?_)
    have hheld : n ∈ (d.held before).map (·.1) := by
      by_contra hnot
      rw [lookup_eq_none_iff_not_mem.mpr hnot] at h
      cases h
    rw [hbody, List.flatMap_append, List.map_append, List.mem_append]
    exact (mem_keys_held.1 hheld).imp_left .inl

/-! ## Modules -/

/-- The names that every module has from its start. -/
def givenNames : List String :=
  ["__name__", "__doc__", "__package__", "__loader__", "__spec__", "__file__", "__cached__",
    "__builtins__"]

/-- The names that imports bring. -/
def importedNames (imports : List (String × List String)) : List String := imports.flatMap (·.2)

/-- What the names of an emitted module stand for, the latest first: its wrappers and classes, the
    implementations it imports, and what every such module has. -/
def moduleOrigins (ds : List (Descriptor Datum)) (sourceModule : Option String) : Names Origin :=
  (moduleNames ds).map (fun n => (n, .emitted n))
    ++ (importedNames (sourceImports ds sourceModule)).map (fun n => (n, .global n))
    ++ (importedNames headerImports ++ givenNames).map fun n => (n, .emitted n)

theorem lookup_append {β : Type} (ps qs : Names β) (x : String) :
    (ps ++ qs).lookup x = (ps.lookup x).or (qs.lookup x) := by
  induction ps with
  | nil => rfl
  | cons p ps ih =>
      rw [List.cons_append, List.lookup_cons, List.lookup_cons, ih]
      cases x == p.1 <;> rfl

theorem lookup_moduleOrigins (n : String) : (moduleOrigins ds sourceModule).lookup n
    = if n ∈ moduleNames ds then some (.emitted n)
      else if n ∈ importedNames (sourceImports ds sourceModule) then some (.global n)
      else if n ∈ importedNames headerImports ++ givenNames then some (.emitted n) else none := by
  rw [moduleOrigins, lookup_append, lookup_append, lookup_map_self, lookup_map_self,
    lookup_map_self]
  split_ifs <;> rfl

/-! ## In the machine -/

/-- A namespace in which names have certain values. -/
def HasNames (h : Heap) (a : Address) (value? : String → Option Value) : Prop :=
  ∃ names, h.get? a = some (.names names) ∧ ∀ n, names.lookup n = value? n

theorem HasNames.answers {h : Heap} {s : Scope} {f : Frame} {innermost : Bool}
    {value? : String → Option Value} (hf : HasNames h f.names value?) (hbody : s.body = none)
    (hframe : Comp.frameOf n s.frames = some (f, innermost)) :
    Answers (Comp.lookup s n h) (value? n) h := by
  obtain ⟨names, hnames, hvalues⟩ := hf
  rw [← hvalues]
  exact lookup_variable hbody hframe hnames

/-- A scope in which the variables of a wrapper and the names of its module have the values of what
    they stand for. -/
structure InScope (d : Descriptor Datum) (names : Names Origin) (before : List Statement)
    (e : Setting) (s : Scope) (h : Heap) : Prop where
  owner : s.owner = d.owner.map mixinName
  body : s.body = none
  frames : ∃ f cells, s.frames = f :: cells ∧ (∀ n, n ∈ f.locals ↔ n ∈ d.localVariables) ∧
    HasNames h f.names (fun n => (d.meaning? before n).bind e.value?) ∧
    (∀ n, (∃ c ∈ cells, n ∈ c.locals) ↔ n ∈ d.enclosingNames) ∧
    ∀ c ∈ cells, HasNames h c.names fun n => e.emitted.lookup n
  globals : HasNames h s.globals fun n => (names.lookup n).bind e.value?
  known : ∀ n o, names.lookup n = some o → ∃ v, e.value? o = some v

theorem frameOf_cons (f : Frame) (fs : List Frame) (n : String) : Comp.frameOf n (f :: fs)
    = if f.locals.contains n then some (f, true)
      else (Comp.frameOf n fs).map fun p => (p.1, false) := rfl

/-- In every such scope the machine answers with the values of what names stand for. -/
def FoundInScope (d : Descriptor Datum) (names : Names Origin) (before : List Statement) : Prop :=
  ∀ e s h, InScope d names before e s h → ∀ x,
    Answers (Comp.lookup s (s.nameHere x) h) (e.value? (d.found names before x)) h

/-- **WHERE A CHECK IS EMITTED** names have the values of what they stand for. -/
theorem foundInScope {names : Names Origin} {rest : List Statement}
    (hbody : d.body = before ++ rest) : FoundInScope d names before := by
  intro e s h hs x
  have hname : s.nameHere x = d.scopeName x := by
    rw [Scope.nameHere, hs.owner]
    rfl
  obtain ⟨f, cells, hframes, hlocals, hf, hcells, hheld⟩ := hs.frames
  rw [hname, Descriptor.found]
  generalize d.scopeName x = n
  by_cases hn : n ∈ d.localVariables
  · have hframe : Comp.frameOf n s.frames = some (f, true) := by
      rw [hframes, frameOf_cons, if_pos (List.contains_iff_mem.mpr ((hlocals n).mpr hn))]
    have hanswers : Answers (Comp.lookup s n h) ((d.meaning? before n).bind e.value?) h :=
      hf.answers hs.body hframe
    cases hv : d.meaning? before n with
    | some o =>
        rw [hv] at hanswers
        exact hanswers
    | none =>
        rw [hv] at hanswers
        dsimp only
        rw [if_pos hn]
        exact hanswers
  have hfree : d.meaning? before n = none := by
    cases hv : d.meaning? before n with
    | some o => exact absurd (mem_localVariables_of_meaning? hbody hv) hn
    | none => rfl
  have hframe : Comp.frameOf n s.frames = (Comp.frameOf n cells).map fun p => (p.1, false) := by
    rw [hframes, frameOf_cons, if_neg fun h => hn ((hlocals n).mp (List.contains_iff_mem.mp h))]
  rw [hfree]
  dsimp only
  rw [if_neg hn]
  by_cases hclass : n ∈ d.enclosingNames
  · rw [if_pos hclass]
    obtain ⟨c, hc, hnc⟩ := (hcells n).mpr hclass
    cases hcell : Comp.frameOf n cells with
    | none => exact absurd hnc (frameOf_eq_none.mp hcell c hc)
    | some p =>
        obtain ⟨g, innermost⟩ := p
        rw [hcell] at hframe
        exact (hheld g (mem_of_frameOf hcell)).answers hs.body hframe
  · rw [if_neg hclass]
    have hcell : Comp.frameOf n cells = none :=
      frameOf_eq_none.mpr fun c hc hnc => hclass ((hcells n).mp ⟨c, hc, hnc⟩)
    rw [hcell] at hframe
    obtain ⟨globals, hg, hglobals⟩ := hs.globals
    rw [value?_inModule (hglobals n) (hs.known n)]
    exact lookup_behind hs.body hframe hg

/-- The values that some names have. -/
def valued (value? : String → Option Value) (ns : List String) : Names Value :=
  ns.filterMap fun n => (value? n).map fun v => (n, v)

theorem lookup_valued {value? : String → Option Value} {ns : List String}
    (h : n ∉ ns → value? n = none) : (valued value? ns).lookup n = value? n := by
  induction ns with
  | nil => exact (h List.not_mem_nil).symm
  | cons m ns ih =>
      rw [valued, List.filterMap_cons]
      by_cases hm : n = m
      · subst hm
        cases hv : value? n with
        | some v => exact List.lookup_cons_self ..
        | none => exact (ih fun _ => hv).trans hv
      · have hrest := ih fun hn => h (List.not_mem_cons_of_ne_of_not_mem hm hn)
        cases value? m with
        | some v =>
            show List.lookup n ((m, v) :: valued value? ns) = _
            rw [List.lookup_cons, beq_false_of_ne hm]
            exact hrest
        | none => exact hrest

/-- There is such a scope wherever the names of the module have values. -/
theorem exists_inScope {names : Names Origin} {rest : List Statement} {e : Setting}
    (hbody : d.body = before ++ rest)
    (hknown : ∀ n o, names.lookup n = some o → ∃ v, e.value? o = some v) :
    ∃ s h, InScope d names before e s h := by
  let globals := valued (fun n => (names.lookup n).bind e.value?) (names.map (·.1))
  let locals := valued (fun n => (d.meaning? before n).bind e.value?) d.localVariables
  let s : Scope :=
    { globals := 0
      frames := [⟨1, d.localVariables⟩, ⟨2, d.enclosingNames⟩]
      owner := d.owner.map mixinName }
  refine ⟨s, ⟨#[.names globals, .names locals, .names e.emitted]⟩, rfl, rfl,
    ⟨_, [_], rfl, fun _ => Iff.rfl, ⟨locals, rfl, fun n => lookup_valued fun hn => ?_⟩, ?_, ?_⟩,
    ⟨globals, rfl, fun n => lookup_valued fun hn => ?_⟩, hknown⟩
  · cases hmeaning : d.meaning? before n with
    | none => rfl
    | some o => exact absurd (mem_localVariables_of_meaning? hbody hmeaning) hn
  · intro n
    constructor
    · rintro ⟨c, hc, hn⟩
      obtain rfl := List.mem_singleton.mp hc
      exact hn
    · exact fun hn => ⟨_, List.mem_cons_self, hn⟩
  · exact List.forall_mem_singleton.mpr ⟨e.emitted, rfl, fun _ => rfl⟩
  · rw [lookup_eq_none_iff_not_mem.mpr hn, Option.bind_none]

/-! ## In the program -/

/-- The names that a statement gives values to, whatever they stood for before. -/
def Statement.bound : Statement → List String
  | .resolveDefault name => [name]
  | s => s.assigns.map (·.1)

/-- Statements that are so give values to these names, all in their own scope. -/
def Binds (P : Stmt → Prop) (names : List String) : Prop :=
  ∀ s, P s → boundNames s = names ∧ foreignNames [s] = []

theorem binds_assignment (name : String) (e : Expr) : Binds (IsAssignment name e) [name] := by
  rintro s ⟨target, value, rfl, htarget, -⟩
  obtain ⟨span, rfl⟩ := exists_name_of_sameShape htarget
  exact ⟨rfl, rfl⟩

theorem binds_evaluation (e : Expr) : Binds (IsEvaluation e) [] := by
  rintro s ⟨value, rfl, -⟩
  exact ⟨rfl, rfl⟩

theorem binds_return (e : Expr) : Binds (IsReturn e) [] := by
  rintro s ⟨value, rfl, -⟩
  exact ⟨rfl, rfl⟩

theorem binds_check (kind : ViolationKind) (qualname : String) (c : EnforcedClause) :
    Binds (IsCheck kind qualname c) [] := by
  rintro s ⟨test, raised, rfl, -, -⟩
  exact ⟨rfl, rfl⟩

theorem boundNamesAll_eq (ss : List Stmt) : boundNamesAll ss = ss.flatMap boundNames := by
  induction ss with
  | nil => rfl
  | cons s ss ih => rw [boundNamesAll, ih, List.flatMap_cons]

theorem binds_resolution (callee : Expr) (name : String) :
    Binds (IsResolution callee name) [name] := by
  rintro s ⟨test, body, rfl, -, hbody⟩
  cases hbody with
  | cons hone hmore =>
      cases hmore
      obtain ⟨hname, -⟩ := binds_assignment name _ _ hone
      refine ⟨?_, rfl⟩
      rw [boundNames, boundNamesAll, boundNamesAll, hname]
      rfl

/-- **STATEMENTS** give values to the names that they are said to. -/
theorem binds_readAs (d : Descriptor Datum) (s : Statement) :
    ∃ nss, List.Forall₂ Binds (d.readAs s) nss ∧ nss.flatten = s.bound := by
  cases s with
  | makeInstance => exact ⟨_, .cons (binds_assignment _ _) .nil, rfl⟩
  | resolveDefault name => exact ⟨_, .cons (binds_resolution _ _) .nil, rfl⟩
  | check kind c => exact ⟨_, .cons (binds_check _ _ _) .nil, rfl⟩
  | openStore => exact ⟨_, .cons (binds_assignment _ _) .nil, rfl⟩
  | capture f => exact ⟨_, .cons (binds_evaluation _) .nil, rfl⟩
  | invoke bind =>
      cases bind with
      | outcome => exact ⟨_, .cons (binds_assignment _ _) .nil, rfl⟩
      | receiver => exact ⟨_, .cons (binds_evaluation _) (.cons (binds_assignment _ _) .nil), rfl⟩
  | returnResult => exact ⟨_, .cons (binds_return _) .nil, rfl⟩
  | returnInstance => exact ⟨_, .cons (binds_return _) .nil, rfl⟩

theorem binds_flatMap (d : Descriptor Datum) (ss : List Statement) :
    ∃ nss, List.Forall₂ Binds (ss.flatMap d.readAs) nss
      ∧ nss.flatten = ss.flatMap Statement.bound := by
  induction ss with
  | nil => exact ⟨[], .nil, rfl⟩
  | cons s ss ih =>
      obtain ⟨nss, hnss, hflat⟩ := binds_readAs d s
      obtain ⟨more, hmore, hmoreFlat⟩ := ih
      refine ⟨nss ++ more, ?_, ?_⟩
      · rw [List.flatMap_cons]
        exact List.rel_append hnss hmore
      · rw [List.flatten_append, hflat, hmoreFlat, List.flatMap_cons]

/-- A block of statements that bind names makes them local. -/
theorem localNames_of_binds {Ps : List (Stmt → Prop)} {nss : List (List String)} {ss : List Stmt}
    (h : Each Ps ss) (hPs : List.Forall₂ Binds Ps nss) (ps : List String) :
    localNames ps ss = ps ++ nss.flatten := by
  have hbound : boundNamesAll ss = nss.flatten := by
    rw [boundNamesAll_eq]
    exact flatMap_of_each h (hPs.imp fun _ _ hP s hs => (hP s hs).1)
  have hforeign : foreignNames ss = [] := by
    refine List.flatMap_eq_nil_iff.mpr fun s hs => ?_
    obtain ⟨P, hP, hPs'⟩ := exists_of_forall₂_right h s hs
    obtain ⟨ns, -, hbinds⟩ := exists_of_forall₂_right hPs.flip P hP
    have hnone := (hbinds s hPs').2
    rwa [foreignNames, List.flatMap_singleton] at hnone
  have hall : nss.flatten.filter (fun n => !([] : List String).contains n) = nss.flatten :=
    List.filter_eq_self.mpr fun _ _ => rfl
  rw [localNames, hbound, hforeign, hall]

theorem scopeName_of_mem_assigns (d : Descriptor Datum) {s : Statement}
    (h : n ∈ s.assigns.map (·.1)) : d.scopeName n = n := by
  cases s with
  | makeInstance =>
      obtain rfl := List.mem_singleton.mp h
      exact (privateName_eq_iff unmarked_self).mpr rfl
  | openStore =>
      obtain rfl := List.mem_singleton.mp h
      exact (privateName_eq_iff unmarked_lookup).mpr rfl
  | invoke bind =>
      obtain rfl := List.mem_singleton.mp h
      exact (privateName_eq_iff unmarked_result).mpr rfl
  | _ => exact nomatch h

/-- The local variables are the parameters, what the body gives values to, and what its checks
    do. -/
theorem mem_localVariables : n ∈ d.localVariables ↔
    n ∈ (d.declaredNames ++ d.body.flatMap Statement.bound ++ d.assigned).map d.scopeName := by
  rw [Descriptor.localVariables, List.map_append, List.mem_append, List.mem_append]
  refine or_congr_left ?_
  rw [mem_keys_held, List.map_append, List.mem_append, or_comm]
  constructor
  · rintro (hn | hn)
    · exact .inl hn
    · -- no reserved name is private
      rw [List.map_flatMap] at hn
      obtain ⟨s, hs, hn⟩ := List.mem_flatMap.mp hn
      refine .inr (List.mem_map.mpr ⟨n, List.mem_flatMap.mpr ⟨s, hs, ?_⟩, scopeName_of_mem_assigns d hn⟩)
      cases s with
      | resolveDefault name => exact nomatch hn
      | _ => exact hn
  · rintro (hn | hn)
    · exact .inl hn
    · obtain ⟨m, hm, rfl⟩ := List.mem_map.mp hn
      obtain ⟨s, hs, hm⟩ := List.mem_flatMap.mp hm
      have hassigned (hm : m ∈ s.assigns.map (·.1)) : d.scopeName m ∈ d.declaredNames.map d.scopeName ∨
          d.scopeName m ∈ (d.body.flatMap Statement.assigns).map (·.1) := by
        rw [scopeName_of_mem_assigns d hm, List.map_flatMap]
        exact .inr (List.mem_flatMap.mpr ⟨s, hs, hm⟩)
      cases s with
      | resolveDefault name =>
          -- what is resolved is the default of a parameter
          obtain rfl := List.mem_singleton.mp hm
          obtain ⟨p, hp, rfl⟩ := knows_of_mem_body hs
          exact .inl (List.mem_map_of_mem (List.mem_append_right _ (List.mem_map_of_mem hp)))
      | _ => exact hassigned hm

/-- Where the wrapper of a descriptor stands: in the class of its owner, or by itself. -/
def StandsIn (ss : List Stmt) (d : Descriptor Datum) (s : Stmt) : Prop :=
  match d.owner with
  | some o => ∃ head body, .cls head body ∈ ss ∧ head.name = mixinName o ∧ s ∈ body
  | none => s ∈ ss

/-- Behind some statements, the body of a wrapper has a check. -/
def ChecksBehind (d : Descriptor Datum) (before : List Statement) (kind : ViolationKind)
    (c : EnforcedClause) : Prop :=
  ∃ after, d.body = before ++ .check kind c :: after

/-- A check of a body, with what comes before it in front of it. -/
def HasCheck (d : Descriptor Datum) (body : List Stmt) (before : List Statement)
    (kind : ViolationKind) (c : EnforcedClause) : Prop :=
  ∃ front check back, body = front ++ check :: back ∧ IsCheck kind d.qualname c check ∧
    Each (IsEvaluation (literal d.description) :: before.flatMap d.readAs) front

/-- A wrapper with its local variables, and with its checks behind what comes before them. -/
structure ScopedAs (d : Descriptor Datum) (head : FunctionHead) (body : List Stmt) : Prop where
  name : head.name = d.publicName
  locals : ∀ n, n ∈ (localNames head.formals.names body ++ d.assigned).map d.scopeName ↔
    n ∈ d.localVariables
  checks : ∀ before kind c, ChecksBehind d before kind c → HasCheck d body before kind c

/-- Statements in their order are split where what they are is. -/
theorem each_append {Ps Qs : List (Stmt → Prop)} {ss : List Stmt} (h : Each (Ps ++ Qs) ss) :
    ∃ front back, ss = front ++ back ∧ Each Ps front ∧ Each Qs back := by
  induction Ps generalizing ss with
  | nil => exact ⟨[], ss, rfl, .nil, h⟩
  | cons P Ps ih =>
      cases h with
      | cons hone hmore =>
          obtain ⟨front, back, rfl, hfront, hback⟩ := ih hmore
          exact ⟨_ :: front, back, rfl, .cons hone hfront, hback⟩

/-- **WRAPPERS** are read with their local variables. -/
theorem scopedAs_of_isEntryPoint {s : Stmt} (h : IsEntryPoint d s) :
    ∃ head body, s = .function head body ∧ ScopedAs d head body := by
  obtain ⟨⟨ps, decorators, returns, body, rfl, -, hbody⟩, head, _, heq, hparameters⟩ := h
  obtain ⟨rfl, rfl⟩ := Stmt.function.inj heq
  refine ⟨_, body, rfl, rfl, fun n => ?_, fun before kind c ⟨after, hsplit⟩ => ?_⟩
  · obtain ⟨nss, hnss, hflat⟩ := binds_flatMap d d.body
    rw [mem_localVariables, localNames_of_binds hbody (.cons (binds_evaluation _) hnss),
      List.flatten_cons, hflat, List.nil_append]
    simp only [List.mem_map, List.mem_append, hparameters]
  · rw [hsplit, List.flatMap_append, List.flatMap_cons, ← List.cons_append] at hbody
    obtain ⟨front, back, rfl, hfront, hback⟩ := each_append hbody
    cases hback with
    | cons hcheck _ => exact ⟨front, _, _, rfl, hcheck, hfront⟩

/-- The program of a module in which every wrapper has its local variables. -/
structure ScopesOf (ds : List (Descriptor Datum)) (sourceModule : Option String) (ss : List Stmt) :
    Prop where
  names : ∀ n, n ∈ boundNamesAll ss ++ givenNames ↔ n ∈ (moduleOrigins ds sourceModule).map (·.1)
  wrappers : ∀ d ∈ ds, ∃ head body, StandsIn ss d (.function head body) ∧ ScopedAs d head body

theorem boundNames_import {m : String} {names : List String} {s : Stmt} (h : IsImport m names s) :
    boundNames s = names := by
  rw [h, boundNames, List.map_map]
  exact List.map_id names

/-- A family of statements binds one name each. -/
theorem forall₂_bound {β : Type} {Q : β → Stmt → Prop} {f : β → String} (bs : List β)
    (h : ∀ b s, Q b s → boundNames s = [f b]) :
    List.Forall₂ (fun P ns => ∀ s, P s → boundNames s = ns) (bs.map Q) (bs.map fun b => [f b]) := by
  rw [List.forall₂_map_left_iff, List.forall₂_map_right_iff, List.forall₂_same]
  exact fun b _ => h b

/-- **PROGRAMS** that modules of wrappers are read as have the names and the local variables that
    they are said to have. -/
theorem scopesOf_of_reads {ss : List Stmt} (h : Each (moduleReadBy IsEntryPoint ds sourceModule) ss) :
    ScopesOf ds sourceModule ss := by
  have himports (imports : List (String × List String)) :
      List.Forall₂ (fun P ns => ∀ s, P s → boundNames s = ns) (importsReadAs imports)
        (imports.map (·.2)) := by
    rw [importsReadAs, List.forall₂_map_left_iff, List.forall₂_map_right_iff, List.forall₂_same]
    exact fun i _ s hs => boundNames_import hs
  have hwrapper (d : Descriptor Datum) (s : Stmt) (hs : IsEntryPoint d s) :
      boundNames s = [d.publicName] := by
    obtain ⟨⟨ps, decorators, returns, body, rfl, -, -⟩, -⟩ := hs
    rfl
  have hmixin (o : String) (s : Stmt) (hs : IsMixinOf IsEntryPoint ds o s) :
      boundNames s = [mixinName o] := by
    obtain ⟨body, rfl, -⟩ := hs
    rfl
  have hnames : boundNamesAll ss = importedNames headerImports
      ++ importedNames (sourceImports ds sourceModule) ++ moduleNames ds := by
    rw [boundNamesAll_eq, flatMap_of_each h (List.rel_append
      (List.rel_append (himports headerImports) (himports (sourceImports ds sourceModule)))
      (List.rel_append (forall₂_bound (owners ds) hmixin)
        (forall₂_bound (ds.filter (·.owner.isNone)) hwrapper))),
      List.flatten_append, List.flatten_append, List.flatten_append, flatten_singletons,
      flatten_singletons, ← List.flatMap_def, ← List.flatMap_def]
    rfl
  refine ⟨fun n => ?_, fun d hd => ?_⟩
  · rw [hnames, moduleOrigins]
    simp only [List.map_append, List.map_map, List.mem_append, List.mem_map, Function.comp_apply,
      exists_eq_right]
    grind only
  · rcases howner : d.owner with _ | o
    · have hmem : IsEntryPoint d ∈ moduleReadBy IsEntryPoint ds sourceModule :=
        List.mem_append_right _ (List.mem_append_right _
          (List.mem_map_of_mem (List.mem_filter.mpr ⟨hd, by rw [howner]; rfl⟩)))
      obtain ⟨s, hs, hwrapped⟩ := exists_of_forall₂_right h.flip _ hmem
      obtain ⟨head, body, rfl, hscoped⟩ := scopedAs_of_isEntryPoint hwrapped
      exact ⟨head, body, by rw [StandsIn, howner]; exact hs, hscoped⟩
    · have hmem : IsMixinOf IsEntryPoint ds o ∈ moduleReadBy IsEntryPoint ds sourceModule :=
        List.mem_append_right _ (List.mem_append_left _
          (List.mem_map_of_mem (mem_owners.mpr ⟨d, hd, howner⟩)))
      obtain ⟨_, hcls, members, rfl, hmembers⟩ := exists_of_forall₂_right h.flip _ hmem
      have hmember : IsEntryPoint d ∈ (ds.filter (·.owner == some o)).map IsEntryPoint :=
        List.mem_map_of_mem (List.mem_filter.mpr ⟨hd, beq_iff_eq.mpr howner⟩)
      obtain ⟨s, hs, hwrapped⟩ :=
        exists_of_forall₂_right hmembers.flip _ (List.mem_cons_of_mem _ hmember)
      obtain ⟨head, body, rfl, hscoped⟩ := scopedAs_of_isEntryPoint hwrapped
      refine ⟨head, body, ?_, hscoped⟩
      rw [StandsIn, howner]
      exact ⟨_, members, hcls, rfl, hs⟩

end Covenant.Wrapper
