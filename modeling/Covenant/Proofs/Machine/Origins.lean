import Covenant.Proofs.Machine.Forwarding
import Covenant.Proofs.Machine.Resolution
import Covenant.Proofs.Protocol.History

/-! # Origins — what the names of a check stand for

    A check that runs in memory is evaluated in a namespace of its own.  It has
    the globals of the module of the implementation, the arguments unless an
    invariant is checked, and the reserved names.

    * `Descriptor.seen` says what a name stands for there.
    * An activation `Fits` its wrapper; a call starts with one that does, and
      so does every check ask with one (`fits_of_asks`).
    * `clauseNames_seen`: the namespace of a check has the values of what its
      names stand for.
    * `lookup_behind` and `lookup_variable` say what the machine answers where
      a name belongs to a module and where it is a local variable, and
      `seenInMemory` what it answers at the checks of a call. -/

namespace Covenant.Wrapper

open Condition Text

/-- What a name can stand for. -/
inductive Origin where
  | receiver
  | result
  | captures
  | argument (name : String)
  /-- A global of the module of the implementation. -/
  | global (name : String)
  /-- Something that an emitted module brings with it. -/
  | emitted (name : String)
  /-- What a check has assigned to a local variable, if anything. -/
  | assigned (name : String)
  | builtin (name : String)
  /-- A local variable without a value. -/
  | unset
  | unknown
  deriving DecidableEq

/-- What a name stands for in a module with some names. -/
def inModule (names : Names Origin) (x : String) : Origin :=
  match names.lookup x with
  | some o => o
  | none => if (Machine.builtinNames.lookup x).isSome then .builtin x else .unknown

namespace Descriptor

variable {α : Type}

/-- The names of the parameters of the implementation. -/
def parameterNames (d : Descriptor α) : List String := d.signature.declaration.map (·.name)

/-- What the result of a run is: a constructor answers with its instance. -/
def answer (d : Descriptor α) : Origin := if d.role = .constructor then .receiver else .result

/-- What a name stands for in a check of some kind that runs in memory, where the module of the
    implementation has these globals. -/
def seen (d : Descriptor α) (kind : ViolationKind) (globals : List String) (x : String) : Origin :=
  if kind = .postcondition ∧ x = lookupName then .captures
  else if kind = .postcondition ∧ x = resultName then d.answer
  else if d.role ≠ .function ∧ x = selfName then .receiver
  else if kind ≠ .invariant ∧ x ∈ d.parameterNames then .argument x
  else inModule (globals.map fun g => (g, .global g)) x

end Descriptor

end Covenant.Wrapper

namespace Covenant

open Wrapper

/-! ## Activations -/

section Activations

variable {α β : Type}

/-- An activation of a wrapper at a check of some kind: it has an instance unless the wrapper
    is that of a function, and all arguments. -/
structure Fits (d : Descriptor α) (kind : ViolationKind) (a : Activation β) : Prop where
  receiver : d.role ≠ .function ↔ ∃ v, a.receiver? = some v
  arguments : a.arguments.map (·.1) = d.parameterNames
  once : d.parameterNames.Nodup
  result : kind = .postcondition → d.role = .constructor → a.result = a.receiver?

variable {d : Descriptor α} {p p' : Progress α} {ts : List Task} {hs : List (Exchange α)}

/-- No task changes the instance or the arguments. -/
theorem Passes.given (hp : Passes d p ts hs p') :
    p'.activation.receiver? = p.activation.receiver? ∧
      p'.activation.arguments = p.activation.arguments := by
  induction hp with
  | nil p => exact ⟨rfl, rfl⟩
  | check kind c _ ih => exact ih
  | capture f v _ ih => exact ih
  | keep _ ih => exact ih
  | invoke v _ ih => exact ih

/-- A constructor has called its implementation before it asks for anything. -/
theorem result_of_asks {a b : Activation α} {kind : ViolationKind} {c : EnforcedClause}
    {next : Bool → Dialogue α (Option α)} (hrole : d.role = .constructor)
    (hq : (d.dialogue a).Follows hs (.ask (.holds kind c b) next)) : b.result = b.receiver? := by
  obtain ⟨before, after, p, htasks, hp, rfl⟩ := passes_of_asks hq
  rw [d.tasks_of_constructor hrole] at htasks
  cases before with
  | nil => cases htasks
  | cons t ts =>
      obtain ⟨rfl, hchecks⟩ := List.cons.inj htasks
      have hts : ∀ t ∈ ts, ∃ kind c, t = Task.check kind c := by
        intro t ht
        have hmem : t ∈ ts ++ Task.check kind c :: after := List.mem_append_left _ ht
        rw [← List.append_eq, ← hchecks] at hmem
        simp only [List.mem_append, List.mem_map] at hmem
        rcases hmem with (⟨c, -, rfl⟩ | ⟨c, -, rfl⟩) | ⟨c, -, rfl⟩ <;> exact ⟨_, _, rfl⟩
      cases hp with
      | invoke v hp =>
          obtain rfl := passes_of_checks hp hts
          show (if d.role = .constructor then a.receiver? else some v) = a.receiver?
          rw [if_pos hrole]

/-- **AT EVERY CHECK** of a call that starts with its instance and its arguments, the activation
    fits. -/
theorem fits_of_asks {a b : Activation α} {kind : ViolationKind} {c : EnforcedClause}
    {next : Bool → Dialogue α (Option α)} (ha : Fits d .invariant a)
    (hq : (d.dialogue a).Follows hs (.ask (.holds kind c b) next)) : Fits d kind b := by
  obtain ⟨before, after, p, -, hp, hpb⟩ := passes_of_asks hq
  obtain ⟨hreceiver, harguments⟩ := hp.given
  rw [hpb] at hreceiver harguments
  exact ⟨hreceiver ▸ ha.receiver, harguments ▸ ha.arguments, ha.once,
    fun _ hrole => result_of_asks hrole hq⟩

end Activations

end Covenant

namespace Covenant.Machine

open Condition Signature Text Wrapper

variable {α : Type} {h h' : Heap} {names module : Names Value} {kind : ViolationKind}
  {a : Activation Value} {d : Descriptor α} {x : String} {implementation : Value} {g : Address}

/-! ## Values -/

/-- What gives the origins of names their values: a run, and two modules. -/
structure Setting where
  activation : Activation Value
  arguments : Names Value
  captures : Value
  globals : Names Value
  emitted : Names Value
  assigned : Names Value

/-- The value of what a name stands for, if it has one. -/
def Setting.value? (e : Setting) : Origin → Option Value
  | .receiver => e.activation.receiver?
  | .result => some (e.activation.result.getD .none)
  | .captures => some e.captures
  | .argument x => e.arguments.lookup x
  | .global x => e.globals.lookup x
  | .emitted x => e.emitted.lookup x
  | .assigned x => e.assigned.lookup x
  | .builtin x => builtinNames.lookup x
  | .unset | .unknown => none

/-- Setting names that are given once finds them, and the others are as before. -/
theorem lookup_setAll {β : Type} {ps qs : Names β} (hqs : (qs.map (·.1)).Nodup) (x : String) :
    (Names.setAll ps qs).lookup x = (qs.lookup x).or (ps.lookup x) := by
  induction qs generalizing ps with
  | nil => rfl
  | cons q qs ih =>
      obtain ⟨n, v⟩ := q
      obtain ⟨hn, hqs⟩ := List.nodup_cons.mp hqs
      show (Names.setAll (Names.set ps n v) qs).lookup x = _
      rw [ih hqs, Names.lookup_set, List.lookup_cons]
      by_cases hx : x = n
      · subst hx
        have hnone : qs.lookup x = none :=
          lookup_eq_none_of_forall_ne fun p hp heq => hn (List.mem_map.mpr ⟨p, hp, heq⟩)
        rw [hnone, if_pos rfl, beq_self_eq_true]
        rfl
      · rw [if_neg hx, beq_false_of_ne hx]

theorem lookup_map_self {β : Type} (f : String → β) (ns : List String) (x : String) :
    (ns.map fun n => (n, f n)).lookup x = if x ∈ ns then some (f x) else none := by
  induction ns with
  | nil => rfl
  | cons n ns ih =>
      rw [List.map_cons, List.lookup_cons, ih]
      by_cases hx : x = n
      · rw [beq_iff_eq.mpr hx, if_pos (List.mem_cons.mpr (.inl hx)), hx]
      · rw [beq_false_of_ne hx]
        simp only [List.mem_cons, hx, false_or]

theorem lookup_eq_none_iff_not_mem {β : Type} {ps : Names β} :
    ps.lookup x = none ↔ x ∉ ps.map (·.1) := by
  refine ⟨not_mem_keys_of_lookup, fun hx => lookup_eq_none_of_forall_ne ?_⟩
  exact fun p hp heq => hx (List.mem_map.mpr ⟨p, hp, heq⟩)

theorem lookup_of_mem_keys {β : Type} {ps : Names β} (hx : x ∈ ps.map (·.1)) :
    ∃ v, ps.lookup x = some v :=
  Option.ne_none_iff_exists'.mp fun hnone => lookup_eq_none_iff_not_mem.1 hnone hx

/-- What a module has under a name, or what is known everywhere. -/
theorem value?_inModule {e : Setting} {origins : Names Origin}
    (hnames : names.lookup x = (origins.lookup x).bind e.value?)
    (hknown : ∀ o, origins.lookup x = some o → ∃ v, e.value? o = some v) :
    e.value? (inModule origins x) = (names.lookup x).or (builtinNames.lookup x) := by
  rw [inModule, hnames]
  cases ho : origins.lookup x with
  | some o =>
      obtain ⟨v, hv⟩ := hknown o ho
      rw [Option.bind_some, hv, Option.some_or]
  | none =>
      rw [Option.bind_none, Option.none_or]
      cases hb : builtinNames.lookup x with
      | none => rfl
      | some v => exact hb

/-- The names of a module stand for its globals. -/
theorem value?_global (e : Setting) (x : String) :
    e.value? (inModule ((e.globals.map (·.1)).map fun g => (g, .global g)) x)
      = (e.globals.lookup x).or (builtinNames.lookup x) := by
  have hlookup := lookup_map_self Origin.global (e.globals.map (·.1)) x
  by_cases hx : x ∈ e.globals.map (·.1)
  · obtain ⟨v, hv⟩ := lookup_of_mem_keys hx
    rw [if_pos hx] at hlookup
    refine value?_inModule ?_ fun o ho => ?_
    · rw [hlookup]
      rfl
    · rw [hlookup] at ho
      exact ⟨v, Option.some.inj ho ▸ hv⟩
  · rw [if_neg hx] at hlookup
    refine value?_inModule ?_ fun o ho => ?_
    · rw [hlookup, lookup_eq_none_iff_not_mem.2 hx]
      rfl
    · rw [hlookup] at ho
      cases ho

/-! ## The namespace of a check -/

/-- The names that a check sees, with the reserved ones. -/
def reservedNames (kind : ViolationKind) (a : Activation Value) (store : Value)
    (names : Names Value) : Names Value :=
  let names := match a.receiver? with
    | some v => Names.set names selfName v
    | none => names
  if kind = .postcondition then
    Names.set (Names.set names resultName (a.result.getD .none)) lookupName store
  else names

theorem withReserved_done (hn : withReserved kind a module h = .done names h') :
    ∃ store, names = reservedNames kind a store module ∧ h.Grows h' ∧
      (kind = .postcondition → h'.object? store = some (.captures (a.captures.getD {}))) := by
  have hgrows : h.Grows h' := growing_withReserved kind a module h names h' hn
  unfold withReserved at hn
  by_cases hkind : kind = .postcondition
  · rw [if_pos hkind] at hn
    cases hn
    refine ⟨.ref h.objects.size, ?_, hgrows, fun _ => h.get?_add_self _⟩
    cases hreceiver : a.receiver? <;> rw [reservedNames, if_pos hkind, hreceiver]
  · rw [if_neg hkind] at hn
    cases hn
    refine ⟨.none, ?_, hgrows, fun h => absurd h hkind⟩
    cases hreceiver : a.receiver? <;> rw [reservedNames, if_neg hkind, hreceiver]

theorem lookup_reservedNames (store : Value) (x : String) :
    (reservedNames kind a store names).lookup x
      = if kind = .postcondition ∧ x = lookupName then some store
        else if kind = .postcondition ∧ x = resultName then some (a.result.getD .none)
        else if x = selfName then a.receiver?.or (names.lookup x) else names.lookup x := by
  have hself : (match a.receiver? with
      | some v => Names.set names selfName v
      | none => names).lookup x
      = if x = selfName then a.receiver?.or (names.lookup x) else names.lookup x := by
    cases a.receiver? with
    | none => exact (ite_self _).symm
    | some v => exact Names.lookup_set _ _ _ _
  rw [reservedNames]
  by_cases hkind : kind = .postcondition
  · simp only [hkind, true_and, if_pos, Names.lookup_set]
    rw [hself]
  · simp only [hkind, false_and, if_false]
    exact hself

/-- The namespace of a check has the values of what its names stand for. -/
theorem clauseNames_seen (hfits : Fits d kind a) (hg : globalsOf h implementation = some g)
    (hmodule : h.get? g = some (.names module))
    (hn : clauseNames implementation kind a h = .done names h') :
    ∃ arguments store,
      (kind ≠ .invariant →
        List.Forall₂ (fun e x => x.1 = e.1 ∧ Stands h' x.2 e.2) a.arguments arguments) ∧
      (kind = .postcondition → h'.object? store = some (.captures (a.captures.getD {}))) ∧
      ∀ emitted assigned x, (names.lookup x).or (builtinNames.lookup x)
        = Setting.value? ⟨a, arguments, store, module, emitted, assigned⟩
            (d.seen kind (module.map (·.1)) x) := by
  -- the globals, and the arguments unless an invariant is checked
  obtain ⟨arguments, before, h₁, hbefore, hstands, hn⟩ : ∃ arguments before h₁,
      (∀ x, before.lookup x
        = if kind ≠ .invariant ∧ x ∈ d.parameterNames then arguments.lookup x
          else module.lookup x) ∧
      (kind ≠ .invariant →
        List.Forall₂ (fun e x => x.1 = e.1 ∧ Stands h₁ x.2 e.2) a.arguments arguments) ∧
      withReserved kind a before h₁ = .done names h' := by
    unfold clauseNames at hn
    rw [bind_of_done (show Comp.heap h = .done h h from rfl)] at hn
    simp only [hg] at hn
    have hnames : Comp.namesAt g h = .done module h := by
      unfold Comp.namesAt
      rw [bind_of_done (show Comp.heap h = .done h h from rfl), hmodule]
      rfl
    rw [bind_of_done hnames] at hn
    by_cases hkind : kind = .invariant
    · rw [if_pos hkind] at hn
      refine ⟨[], module, h, fun x => ?_, fun h => absurd hkind h, hn⟩
      rw [if_neg fun hx => hx.1 hkind]
    · rw [if_neg hkind] at hn
      obtain ⟨arguments, h₁, hdone, -, hstands⟩ := boundNamesOf_stands a.arguments h
      have hkeys : d.parameterNames = arguments.map (·.1) :=
        hfits.arguments.symm.trans (map_eq_map_of_forall₂ hstands fun e x hx => hx.1.symm)
      have hsteps : (boundNamesOf a.arguments >>= fun arguments =>
          withReserved kind a (Names.setAll module arguments)) h = .done names h' := hn
      rw [bind_of_done hdone] at hsteps
      refine ⟨arguments, _, h₁, fun x => ?_, fun _ => hstands, hsteps⟩
      rw [lookup_setAll (hkeys ▸ hfits.once)]
      by_cases hx : x ∈ d.parameterNames
      · rw [if_pos ⟨hkind, hx⟩]
        obtain ⟨v, hv⟩ := lookup_of_mem_keys (hkeys ▸ hx)
        rw [hv, Option.some_or]
      · rw [if_neg fun h => hx h.2]
        have hnone : arguments.lookup x = none := by
          rw [lookup_eq_none_iff_not_mem, ← hkeys]
          exact hx
        rw [hnone, Option.none_or]
  obtain ⟨store, rfl, hgrows, hstore⟩ := withReserved_done hn
  refine ⟨arguments, store, fun hkind => (hstands hkind).imp fun _ _ hx => ⟨hx.1, hx.2.grows hgrows⟩,
    hstore, fun emitted assigned x => ?_⟩
  rw [lookup_reservedNames, hbefore, Descriptor.seen]
  by_cases hcaptures : kind = .postcondition ∧ x = lookupName
  · rw [if_pos hcaptures, if_pos hcaptures]
    rfl
  rw [if_neg hcaptures, if_neg hcaptures]
  by_cases hresult : kind = .postcondition ∧ x = resultName
  · rw [if_pos hresult, if_pos hresult, Descriptor.answer]
    split_ifs with hrole
    · -- the result of a constructor is its instance
      obtain ⟨v, hv⟩ := hfits.receiver.mp (by rw [hrole]; decide)
      rw [hfits.result hresult.1 hrole, hv]
      exact hv.symm
    · rfl
  rw [if_neg hresult, if_neg hresult]
  -- the arguments, and the module behind them
  have hrest : ((if kind ≠ .invariant ∧ x ∈ d.parameterNames then arguments.lookup x
        else module.lookup x).or (builtinNames.lookup x))
      = Setting.value? ⟨a, arguments, store, module, emitted, assigned⟩
          (if kind ≠ .invariant ∧ x ∈ d.parameterNames then .argument x
            else inModule ((module.map (·.1)).map fun g => (g, .global g)) x) := by
    by_cases hx : kind ≠ .invariant ∧ x ∈ d.parameterNames
    · rw [if_pos hx, if_pos hx]
      have hkeys : d.parameterNames = arguments.map (·.1) :=
        hfits.arguments.symm.trans
          (map_eq_map_of_forall₂ (hstands hx.1) fun e x hx => hx.1.symm)
      obtain ⟨v, hv⟩ := lookup_of_mem_keys (hkeys ▸ hx.2)
      show (arguments.lookup x).or _ = arguments.lookup x
      rw [hv, Option.some_or]
    · rw [if_neg hx, if_neg hx]
      exact (value?_global ⟨a, arguments, store, module, emitted, assigned⟩ x).symm
  by_cases hself : d.role ≠ .function ∧ x = selfName
  · obtain ⟨v, hv⟩ := hfits.receiver.mp hself.1
    rw [if_pos hself.2, if_pos hself, hv]
    exact hv.symm
  rw [if_neg hself, ← hrest]
  by_cases hx : x = selfName
  · rw [if_pos hx]
    have hnone : a.receiver? = none := by
      cases hv : a.receiver? with
      | none => rfl
      | some v => exact absurd ⟨hfits.receiver.mpr ⟨v, hv⟩, hx⟩ hself
    rw [hnone, Option.none_or]
  · rw [if_neg hx]

/-! ## Looking up -/

/-- A run that gives a value if there is one, and reports a mistake if not. -/
def Answers (r : Run Heap Thrown Value) (v? : Option Value) (h : Heap) : Prop :=
  match v? with
  | some v => r = .done v h
  | none => ∃ m, r = .thrown (.mistake m) h

/-- A local variable answers with its value. -/
theorem lookup_variable {s : Scope} {f : Frame} {innermost : Bool} (hbody : s.body = none)
    (hframe : Comp.frameOf x s.frames = some (f, innermost))
    (hnames : h.get? f.names = some (.names names)) :
    Answers (Comp.lookup s x h) (names.lookup x) h := by
  cases hv : names.lookup x with
  | some v => exact lookup_of_frameOf hbody hframe hnames hv
  | none =>
      refine ⟨if innermost && s.body.isNone then .noLocal else .noName, ?_⟩
      unfold Comp.lookup Comp.lookupAround
      rw [hbody, hframe]
      simp only [Comp.namesAt, bind, Comp.heap, Run.bind, hnames, pure, hv]
      rfl

/-- Behind the local variables, a name stands for what the module has, or for what is known
    everywhere. -/
theorem lookup_behind {s : Scope} (hbody : s.body = none) (hframe : Comp.frameOf x s.frames = none)
    (hglobals : h.get? s.globals = some (.names names)) :
    Answers (Comp.lookup s x h) ((names.lookup x).or (builtinNames.lookup x)) h := by
  cases hv : names.lookup x with
  | some v =>
      have hfree : ∀ locals ∈ s.frames.map (·.locals), x ∉ locals :=
        List.forall_mem_map.mpr (frameOf_eq_none.mp hframe)
      exact resolves_of_forall hv hfree s h hbody rfl hglobals
  | none =>
      have hlookup : Comp.lookup s x h = Comp.ofOption .noName (builtinNames.lookup x) h := by
        unfold Comp.lookup Comp.lookupAround
        rw [hbody, hframe]
        simp only [Comp.lookupGlobal, Comp.namesAt, bind, Comp.heap, Run.bind, hglobals, pure, hv]
      rw [hlookup, Option.none_or]
      cases builtinNames.lookup x with
      | some v => rfl
      | none => exact ⟨.noName, rfl⟩

/-- Whatever a call is asked with, at every check of it the machine answers with the values of what
    names stand for in the namespace of the check. -/
def SeenInMemory (d : Descriptor Value) : Prop :=
  ∀ a, Fits d .invariant a → ∀ hs kind c b next,
    (d.dialogue a).Follows hs (.ask (.holds kind c b) next) →
    ∀ implementation g module h names h', globalsOf h implementation = some g →
      h.get? g = some (.names module) → clauseNames implementation kind b h = .done names h' →
      ∃ arguments store,
        (kind ≠ .invariant →
          List.Forall₂ (fun e x => x.1 = e.1 ∧ Stands h' x.2 e.2) b.arguments arguments) ∧
        (kind = .postcondition → h'.object? store = some (.captures (b.captures.getD {}))) ∧
        ∀ emitted assigned place k, k.get? place = some (.names names) → ∀ x,
          Answers (Comp.lookup { globals := place } x k)
            (Setting.value? ⟨b, arguments, store, module, emitted, assigned⟩
              (d.seen kind (module.map (·.1)) x)) k

/-- **IN MEMORY** names have the values of what they stand for, at every check of every call. -/
theorem seenInMemory (d : Descriptor Value) : SeenInMemory d := by
  intro a ha hs kind c b next hasks implementation g module h names h' hg hmodule hn
  obtain ⟨arguments, store, harguments, hstore, hvalues⟩ :=
    clauseNames_seen (fits_of_asks ha hasks) hg hmodule hn
  refine ⟨arguments, store, harguments, hstore, fun emitted assigned place k hplace x => ?_⟩
  rw [← hvalues]
  exact lookup_behind rfl rfl hplace

end Covenant.Machine
