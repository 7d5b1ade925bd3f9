import Covenant.Proofs.Interleaving.Confinement
import Covenant.Proofs.Machine.Resolution
import Covenant.Proofs.Protocol.History

/-! # Captures under interleaving — old values stay what they were

    A run looks up in its postconditions what it has preserved on entry,
    whatever the program and the other runs have done since.

    * What a run was answered when it preserved a field keeps showing what the
      field had at that moment (`Recalled`), because nobody changes it.
    * The history of a run that asks for a postcondition is known, and with it
      where these moments stand: after the checks on entry and before the call
      of the implementation.
    * `captures_remembered` puts both together with what the machine answers
      to a look-up. -/

namespace Covenant.Machine

open Condition Covenant.Tree Wrapper

variable {host : Host} {refers : Object → List Address} {S S' : System}

/-! ## Moments -/

/-- A moment is recalled: if it preserved a field, then what it was answered is the snapshot of
    the value that the field had, shows what this value showed, and nobody changes it. -/
def Moment.Recalled (host : Host) (S : System) (m : Moment) : Prop :=
  ∀ (a : Activation Value) (field : String) (w : Value), m.exchange = ⟨.preserve a field, w⟩ →
    ∃ v, getField host (a.receiver?.getD .none) field m.heap = .done v m.heap ∧
      w = (m.heap.snapshot v).1 ∧ S.heap.object? w = m.heap.object? v ∧ S.Keeps w

/-- A moment stays recalled where nobody changes what it preserved. -/
theorem Moment.Recalled.leaves {m : Moment} (h : S.Leaves S') (hm : m.Recalled host S) :
    m.Recalled host S' := by
  intro a field w hexchange
  obtain ⟨v, hread, hw, hshown, hkeeps⟩ := hm a field w hexchange
  obtain ⟨hkeeps', hsame⟩ := h.keeps hkeeps
  exact ⟨v, hread, hw, hsame.trans hshown, hkeeps'⟩

/-- Right after a question was answered its moment is recalled. -/
theorem recalled_of_answers {s : Strand} {q : Query Value} {r : q.Answer}
    (h : S.Answers host s q r S') : Moment.Recalled host S' ⟨⟨q, r⟩, S.heap⟩ := by
  intro a field w hexchange
  cases h with
  | holds => cases hexchange
  | invoke => cases hexchange
  | @preserve a' field' v w' h' hread hapart hpreserve =>
      cases hexchange
      have hw := snapshot_of_preserve hread hpreserve
      refine ⟨v, hread, congrArg Prod.fst hw, ?_, (System.leaves_preserved hapart hw).2⟩
      obtain ⟨rfl, rfl⟩ := Prod.mk.inj hw
      exact S.heap.object?_snapshot v

/-! ## Strands -/

/-- A strand is sound: its past is one of its dialogue, and it recalls what it preserved. -/
structure Strand.Sound (host : Host) (S : System) (s : Strand) : Prop where
  follows : (s.descriptor.dialogue s.start).Follows s.history s.rest
  recalls : ∀ m ∈ s.past, m.Recalled host S

theorem Strand.Sound.leaves {s : Strand} (h : S.Leaves S') (hs : s.Sound host S) :
    s.Sound host S' := ⟨hs.follows, fun m hm => (hs.recalls m hm).leaves h⟩

theorem Strand.sound_begin (d : Descriptor Value) (implementation : Value)
    (a : Activation Value) : (Strand.begin d implementation a).Sound host S :=
  ⟨.start _, fun _ hm => absurd hm List.not_mem_nil⟩

/-- One more answer. -/
theorem Strand.Sound.answered {s : Strand} {q : Query Value}
    {next : q.Answer → Dialogue Value (Option Value)} {r : q.Answer} (hs : s.Sound host S)
    (hq : s.rest = .ask q next) (hr : S.Answers host s q r S') (h : S.Leaves S') :
    (s.answered ⟨⟨q, r⟩, S.heap⟩ (next r)).Sound host S' where
  follows := by
    have hfollows := hs.follows
    rw [hq] at hfollows
    have hsnoc := hfollows.snoc r
    unfold Strand.answered Strand.history
    rw [List.map_append]
    exact hsnoc
  recalls m hm := by
    rcases List.mem_append.mp hm with hm | hm
    · exact (hs.recalls m hm).leaves h
    · obtain rfl := List.mem_singleton.mp hm
      exact recalled_of_answers hr

/-! ## Systems -/

/-- The invariant of a system: the program is confined, and all strands are sound. -/
structure System.Sound (host : Host) (refers : Object → List Address) (S : System) : Prop where
  confined : Confined refers S
  strands : ∀ s ∈ S.strands, s.Sound host S

/-- Whatever step is taken, a system stays sound. -/
theorem System.Sound.step (hS : S.Sound host refers) (h : System.Step host refers S S') :
    S'.Sound host refers := by
  refine ⟨h.confined hS.confined, ?_⟩
  have hleaves := h.leaves hS.confined
  intro t ht
  cases h with
  | make | learn | change | note | revise => exact (hS.strands t ht).leaves hleaves
  | enter d implementation receiver? arguments =>
      rcases List.mem_append.mp ht with ht | ht
      · exact (hS.strands t ht).leaves hleaves
      · obtain rfl := List.mem_singleton.mp ht
        exact Strand.sound_begin d implementation _
  | @advance S₁ before after s q next r hs hq hr =>
      have hold : ∀ u ∈ before ++ s :: after, u.Sound host S := by
        rw [← hs]
        exact hS.strands
      rcases List.mem_append.mp ht with ht | ht
      · exact (hold t (List.mem_append_left _ ht)).leaves hleaves
      · rcases List.mem_cons.mp ht with rfl | ht
        · have hsound := (hold s (List.mem_append_right _ List.mem_cons_self)).answered hq hr
            (hr.leaves hS.confined).1
          exact ⟨hsound.follows, hsound.recalls⟩
        · exact (hold t (List.mem_append_right _ (List.mem_cons_of_mem _ ht))).leaves hleaves

/-- Whatever can be reached is sound. -/
theorem System.Reachable.sound (h : System.Reachable host refers S) : S.Sound host refers := by
  induction h with
  | start =>
      have hconfined : System.Confined refers {} := {
        known := fun a ha => absurd ha List.not_mem_nil
        closed := fun a o ha => absurd ha.1 (Nat.not_lt_zero a) }
      exact ⟨hconfined, fun s hs => absurd hs List.not_mem_nil⟩
  | step _ hstep ih => exact ih.step hstep

/-! ## Old values -/

/-- The moments in which a strand preserved its fields: the checks on entry have been passed
    before, and the implementation was called after. -/
structure Strand.CapturedIn (s : Strand) (captured : List Moment) : Prop where
  past : ∃ checks call rest, s.past = checks ++ captured ++ call :: rest ∧
    checks.map (·.exchange) = heldAll .invariant s.start s.descriptor.invariants
      ++ heldAll .precondition s.start s.descriptor.preconditions ∧
    ∃ a v, call.exchange = ⟨.invoke a, v⟩
  preserved : Preserved s.start s.descriptor.capturedFields (captured.map (·.exchange))

/-- A scope in a clause with a namespace: `lambda` and comprehensions may have put frames in front,
    but none that knows the name of the store. -/
structure InClause (names : Names Value) (h : Heap) (scope : Scope) : Prop where
  body : scope.body = none
  owner : scope.owner = none
  globals : h.get? scope.globals = some (.names names)
  frames : ∀ f ∈ scope.frames, lookupName ∉ f.locals

/-- What a look-up of a field gives in a system: the activation `b` has kept the snapshot `w` of
    the value `v` that the field had at the moment `m`. -/
structure System.Remembers (host : Host) (S : System) (start b : Activation Value)
    (field : String) (m : Moment) (v w : Value) : Prop where
  /-- At this moment the field had the value and was preserved. -/
  asked : m.exchange = ⟨.preserve start field, w⟩
  read : getField host (start.receiver?.getD .none) field m.heap = .done v m.heap
  snapshot : w = (m.heap.snapshot v).1
  /-- The snapshot still shows what the value showed then. -/
  shown : S.heap.object? w = m.heap.object? v
  /-- An inserted look-up gives the snapshot wherever its name stands for the store. -/
  found : ∀ (program : List Stmt) (n : Nat) (scope : Scope) (store : Value)
    (strategy : Strategy) (span : Span),
    Comp.lookup scope (scope.nameHere strategy.lookup) S.heap = .done store S.heap →
    S.heap.object? store = some (.captures (b.captures.getD {})) →
    evaluate (level program (n + 1)) scope (lookupCall strategy span field) S.heap
      = .done w S.heap
  /-- In a postcondition that starts now it does, and the snapshot shows the same there. -/
  evaluated : ∀ (program : List Stmt) (n : Nat) (implementation : Value) (names : Names Value)
    (h h' : Heap) (scope : Scope) (fields shadowed : List String) (span : Span),
    clauseNames implementation .postcondition b S.heap = .done names h → h.Grows h' →
    InClause names h' scope →
    evaluate (level program (n + 1)) scope (lookupCall (.memberScope fields shadowed) span field) h'
        = .done w h' ∧
      h'.object? w = m.heap.object? v

/-- A value that nobody changes shows the same in a heap that has grown. -/
theorem System.Keeps.object?_eq {w : Value} {h : Heap} (hw : S.Keeps w) (hg : S.heap.Grows h) :
    h.object? w = S.heap.object? w := by
  cases w with
  | ref a =>
      obtain ⟨o, ho⟩ : ∃ o, S.heap.get? a = some o := by
        rcases hw a rfl with ⟨hlt, -⟩ | ⟨o, ho, -⟩
        · exact ⟨_, Array.getElem?_eq_getElem hlt⟩
        · exact ⟨o, ho⟩
      exact (hg a o ho).trans ho.symm
  | atom | type | routine | module => rfl

/-- In a clause of a postcondition the inserted name stands for the store. -/
theorem lookup_store {implementation : Value} {b : Activation Value} {names : Names Value}
    {h₀ h h' : Heap} {scope : Scope}
    (hnames : clauseNames implementation .postcondition b h₀ = .done names h)
    (hg : h.Grows h') (hscope : InClause names h' scope) :
    ∃ store, Comp.lookup scope (scope.nameHere lookupName) h' = .done store h' ∧
      h'.object? store = some (.captures (b.captures.getD {})) := by
  obtain ⟨store, hlookup, hstore⟩ := (clauseNames_reserved hnames).2 rfl
  refine ⟨store, ?_, hg.object? hstore⟩
  have hname : scope.nameHere lookupName = lookupName := by
    unfold Scope.nameHere privateName
    rw [hscope.owner]
  rw [hname]
  refine resolves_of_forall hlookup ?_ scope h' hscope.body rfl hscope.globals
  intro locals hlocals
  obtain ⟨f, hf, rfl⟩ := List.mem_map.mp hlocals
  exact hscope.frames f hf

/-- The captures of a strand that asks for a postcondition, in its past. -/
theorem capturedIn_of_asked {s : Strand} {c : EnforcedClause} {b : Activation Value}
    {next : Bool → Dialogue Value (Option Value)} (hs : s.Sound host S)
    (hrole : s.descriptor.role ≠ .constructor)
    (hasks : s.rest = .ask (.holds .postcondition c b) next) :
    ∃ captured, s.CapturedIn captured ∧ ∀ f ∈ s.descriptor.capturedFields,
      ∃ m ∈ captured, ∃ w : Value, m.exchange = ⟨.preserve s.start f, w⟩ ∧
        (b.captures.getD {}).lookup f = some w := by
  have hfollows := hs.follows
  rw [hasks] at hfollows
  obtain ⟨-, captured, b₀, v, after, hhistory, hpreserved, -, hfound⟩ :=
    captured_of_asked hrole hfollows
  obtain ⟨entry, exit, hpast, hentry, hexit⟩ := List.map_eq_append_iff.mp hhistory
  obtain ⟨checks, moments, rfl, hchecks, rfl⟩ := List.map_eq_append_iff.mp hentry
  obtain ⟨call, rest, rfl, hcall, -⟩ := List.map_eq_cons_iff.mp hexit
  refine ⟨moments, ⟨⟨checks, call, rest, hpast, hchecks, b₀, v, hcall⟩, hpreserved⟩, ?_⟩
  intro f hf
  obtain ⟨w, hw, hlookup⟩ := hfound f hf
  obtain ⟨m, hm, hexchange⟩ := List.mem_map.mp hw
  exact ⟨m, hm, w, hexchange, hlookup⟩

/-- **OLD VALUES ARE REMEMBERED**: in every system that can be reached, a method or function that
    asks for a postcondition finds, for each captured field, the snapshot of what the field had
    after the checks on entry and before the call. -/
theorem captures_remembered (hS : System.Reachable host refers S) {s : Strand}
    (hs : s ∈ S.strands) (hrole : s.descriptor.role ≠ .constructor) {c : EnforcedClause}
    {b : Activation Value} {next : Bool → Dialogue Value (Option Value)}
    (hasks : s.rest = .ask (.holds .postcondition c b) next) :
    ∃ captured, s.CapturedIn captured ∧ ∀ f ∈ s.descriptor.capturedFields,
      ∃ m ∈ captured, ∃ v w, S.Remembers host s.start b f m v w := by
  have hsound := hS.sound.strands s hs
  obtain ⟨captured, hcaptured, hfields⟩ := capturedIn_of_asked hsound hrole hasks
  refine ⟨captured, hcaptured, ?_⟩
  intro f hf
  obtain ⟨m, hm, w, hexchange, hlookup⟩ := hfields f hf
  have hmpast : m ∈ s.past := by
    obtain ⟨checks, call, rest, hpast, -⟩ := hcaptured.past
    rw [hpast]
    exact List.mem_append_left _ (List.mem_append_right _ hm)
  obtain ⟨v, hread, hw, hshown, hkeeps⟩ := hsound.recalls m hmpast _ _ _ hexchange
  refine ⟨m, hm, v, w, hexchange, hread, hw, hshown, ?_, ?_⟩
  · intro program n scope store strategy span hname hstore
    rw [evaluate_lookupCall span hname hstore]
    unfold answerOf
    rw [hlookup]
  · intro program n implementation names h h' scope fields shadowed span hnames hg hscope
    obtain ⟨store, hname, hstore⟩ := lookup_store hnames hg hscope
    have hgrows : S.heap.Grows h' := (growing_clauseNames _ _ _ _ _ _ hnames).trans hg
    refine ⟨?_, (hkeeps.object?_eq hgrows).trans hshown⟩
    rw [evaluate_lookupCall span hname hstore]
    unfold answerOf
    rw [hlookup]

/-! ## A basket that is filled twice -/

/-- The addresses that collections and instances refer to. -/
def partsOf : Object → List Address
  | .list vs | .tuple vs | .set vs | .frozenset vs => vs.filterMap address?
  | .record c fields => (c :: fields.map (·.2)).filterMap address?
  | _ => []
where
  /-- The address that a value is. -/
  address? : Value → Option Address
    | .ref a => some a
    | _ => none

/-- The items of the basket on entry, looked up. -/
def basketClause : EnforcedClause where
  text := "len(old(items)) == 0"
  message := "the basket must have been empty"
  enforced := "len(__old__('items')) == 0"
  tree := lookupCall {} default "items"

/-- A method that captures the items of a basket. -/
def basketPlan : Descriptor Value where
  owner := some "Basket"
  internalName := "_fill"
  publicName := "fill"
  role := .method
  isAsync := false
  signature := { declaration := [] }
  invariants := []
  preconditions := []
  postconditions := [basketClause]
  capturedFields := ["items"]
  returns := none
  module := none
  implementation := none

/-- A call of the method that is about to begin. -/
def basketRun : Strand :=
  Strand.begin basketPlan .none { receiver? := some (.ref 1), arguments := [] }

/-- While one run waits for its implementation, an item is put into the basket and another run
    captures the items; the first one still has the empty list. -/
theorem captures_remembered_basket : ∃ (S : System) (s : Strand) (b : Activation Value)
    (captured : List Moment), System.Reachable (level [] 0) partsOf S ∧ s ∈ S.strands ∧
      S.heap.get? 0 = some (.list [.bool true]) ∧ s.CapturedIn captured ∧
      ∃ m ∈ captured, ∃ v w, S.Remembers (level [] 0) s.start b "items" m v w ∧
        S.heap.object? w = some (.list []) := by
  have hmade : System.Reachable (level [] 0) partsOf _ := .step .start (.make (.list []) nofun)
  have hbasket := hmade.step (.make (.record (.type .object) [("items", .ref 0)]) (by decide))
  have hentered := hbasket.step (.enter basketPlan .none (some (.ref 1)) [])
  have hcaptured := hentered.capture [] [] basketRun (.ref 0) (.ref 2) rfl rfl rfl
    (by rintro a ⟨⟩; exact ⟨.list [], rfl, .inl rfl⟩) rfl
  have hreentered := hcaptured.step (.enter basketPlan .none (some (.ref 1)) [])
  have hfilled := hreentered.step (@System.Step.change _ _ _ 0 (.list [.bool true]) (by decide)
    (by rintro o ⟨⟩; rfl) nofun)
  have hagain := hfilled.capture [_] [] basketRun (.ref 0) (.ref 3) rfl rfl rfl
    (by rintro a ⟨⟩; exact ⟨.list [.bool true], rfl, .inl rfl⟩) rfl
  have hcalled := hagain.call [] [_] _ .none rfl rfl
  obtain ⟨captured, hc, hfields⟩ := captures_remembered hcalled List.mem_cons_self nofun rfl
  obtain ⟨m, hm, v, w, hremembers⟩ := hfields "items" List.mem_cons_self
  refine ⟨_, _, _, captured, hcalled, List.mem_cons_self, rfl, hc, m, hm, v, w, hremembers, ?_⟩
  -- only one moment captured anything, and the list was empty then
  obtain ⟨checks, call, rest, hpast, hchecks, -⟩ := hc.past
  obtain rfl := List.map_eq_nil_iff.mp hchecks
  obtain ⟨x, rfl⟩ : ∃ x, captured = [x] := by
    have hlength := hc.preserved.length_eq
    rw [List.length_map] at hlength
    exact List.length_eq_one_iff.mp hlength.symm
  obtain ⟨rfl, -⟩ := List.cons.inj hpast
  obtain rfl := List.mem_singleton.mp hm
  have hread := hremembers.read
  rw [hremembers.shown]
  cases hread
  rfl

end Covenant.Machine
