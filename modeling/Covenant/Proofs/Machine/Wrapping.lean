import Covenant.Machine.Contract
import Covenant.Proofs.Machine.Growth
import Covenant.Proofs.Signature.Order
import Covenant.Proofs.Weaving.Accepted

/-! # Wrapping — which functions get a wrapper

    The wrapper of a function declares the slots of the function.  That of a
    member declares a receiver in front of them, and the first slot, which the
    receiver takes, is left out.

    * `slots_described`: the slots of a described function come back from its
      descriptor in their order, with names, passing and defaults.
    * `makeWrapper_described`: the wrapper is made, and declares these slots
      behind its receiver, exactly if the receiver can stand in front of them.  It
      cannot if a slot is only positional or has the receiver's name
      (`makeWrapper_described_fails`). -/

namespace Covenant.Machine

open Condition Declaration Signature Weaving Wrapper

variable {h : Heap} {v : Value} {f : FunctionInfo} {s : Slot Value} {hints : Names Value}
  {name : String} {role : Role} {applied : Bool} {enclosing : Option (TypeDecl Value)}
  {invariants : List ParsedClause} {d : Descriptor Value}

/-! ## Declared slots -/

/-- The slots of a function behind its receiver, if it has one. -/
def declaredSlots (role : Role) (f : FunctionInfo) : List (Slot Value) :=
  f.slots.drop (if role = .function then 0 else 1)

/-- A slot with the text of its declared type. -/
def hinted (h : Heap) (hints : Names Value) (s : Slot Value) : Slot Value :=
  { s with typeText := present ((hints.lookup s.name).map h.declaredText) }

/-- A slot that is described is found again in its parameter. -/
theorem slotOf_describeSlot (hbare : s.IsVariadic → s.default.isSome = false) :
    slotOf (describeSlot h hints s) = hinted h hints s := by
  obtain ⟨name, passing, default, typeText⟩ := s
  cases passing with
  | positionalOnly | positionalOrNamed | namedOnly =>
      cases default with
      | none => rfl
      | some d => rfl
  | variadic =>
      cases default with
      | none => rfl
      | some d => exact nomatch hbare (.inl rfl)
  | variadicNamed =>
      cases default with
      | none => rfl
      | some d => exact nomatch hbare (.inr rfl)

theorem proper_describeSlot (h : Heap) (hints : Names Value) (s : Slot Value) :
    Proper (describeSlot h hints s) := by
  obtain ⟨name, passing, default, typeText⟩ := s
  cases passing with
  | positionalOnly =>
      cases default with
      | none => exact ⟨fun _ => rfl, nofun⟩
      | some d => exact ⟨fun _ => rfl, fun _ => rfl⟩
  | positionalOrNamed | variadic | namedOnly | variadicNamed =>
      cases default with
      | none => exact ⟨nofun, nofun⟩
      | some d => exact ⟨nofun, fun _ => rfl⟩

theorem definable_declaredSlots (hslots : Definable f.slots) (role : Role) :
    Definable (declaredSlots role f) := hslots.sublist (List.drop_sublist _ _)

/-! ## Descriptors -/

/-- What a wrapper is made from: the signature of the parameters, and the implementation. -/
theorem signature_of_describe {α : Type} {v : Validated α} {enclosing : Option (TypeDecl α)}
    {d : Descriptor α} (hd : describe v enclosing = .ok d) :
    d.publicName = publicName v.declaration.name v.declaration.role ∧
      d.implementation = v.declaration.implementation ∧
      d.signature = reconstruct v.declaration.parameters v.declaration.typeParameters
        (receiverOf v.declaration.role d.publicName) := by
  unfold describe at hd
  obtain ⟨invariants, -, hd⟩ := bind_eq_ok.mp hd
  obtain ⟨preconditions, -, hd⟩ := bind_eq_ok.mp hd
  obtain ⟨postconditions, -, hd⟩ := bind_eq_ok.mp hd
  cases hd
  exact ⟨rfl, rfl, rfl⟩

/-- A public name does not start with an underscore, so that no function is an initializer. -/
theorem receiverOf_function (name : String) :
    receiverOf .function (publicName name .function) = none := by
  have hname : publicName name .function ≠ publicInitializerName := by
    intro heq
    have hlist : name.toList.dropWhile (· = '_') = publicInitializerName.toList := by
      rw [← heq, publicName, if_neg (by simp), String.toList_ofList]
    have hhead := List.head?_dropWhile_not (fun c => decide (c = '_')) name.toList
    rw [hlist, show publicInitializerName.toList.head? = some '_' from rfl] at hhead
    exact absurd hhead (by decide)
  rw [receiverOf, if_neg (by simp [hname]), if_neg (by simp)]

/-- The receiver that stands in front of the slots of an entry point. -/
def receiverSlots (role : Role) (publicName : String) : List (Slot Value) :=
  (receiverOf role publicName).toList.map receiverSlot

theorem wellNamed_receiver {r publicName : String} (hr : receiverOf role publicName = some r) :
    (receiverSlot r : Slot Value).WellNamed ∧ present (some r) = some r := by
  unfold receiverOf at hr
  split_ifs at hr
  · cases hr
    exact ⟨by decide, rfl⟩
  · cases hr
    exact ⟨by decide, rfl⟩

/-- The signature of a described function has the slots of the function. -/
theorem slots_described (hslots : Definable f.slots)
    (hw : Weaves (describeFunction h v f name role applied) enclosing invariants d)
    (withReceiver : Bool) :
    d.signature.slots withReceiver = published
      ((if withReceiver then receiverSlots role d.publicName else [])
        ++ (declaredSlots role f).map (hinted h f.hints)) := by
  obtain ⟨w, hvalidated, hdescribed⟩ := hw
  have hdeclaration := (accepts_of_validateCallable hvalidated).declaration
  obtain ⟨-, -, hsignature⟩ := signature_of_describe hdescribed
  rw [hdeclaration] at hsignature
  have hdeclared := definable_declaredSlots hslots role
  have hmap : ((declaredSlots role f).map (describeSlot h f.hints)).map slotOf
      = (declaredSlots role f).map (hinted h f.hints) := by
    rw [List.map_map]
    exact List.map_congr_left fun s hs => slotOf_describeSlot (hdeclared.bare s hs)
  have hgrouped : d.signature.declaration
      = (declaredSlots role f).map (describeSlot h f.hints) := by
    rw [hsignature]
    refine reconstruct_declaration ?_ ?_
    · exact List.forall_mem_map.mpr fun s _ => proper_describeSlot h f.hints s
    · show Ordered (((declaredSlots role f).map (describeSlot h f.hints)).map slotOf)
      rw [hmap]
      exact ordered_retyped.mpr hdeclared.toOrdered
  have hreceiver : d.signature.receiver = receiverOf role d.publicName := by rw [hsignature]; rfl
  rw [Signature.slots, hgrouped, hmap, hreceiver]
  cases withReceiver with
  | false => rfl
  | true =>
      rw [receiverSlots]
      cases hr : receiverOf role d.publicName with
      | none => rfl
      | some r =>
          rw [(wellNamed_receiver hr).2]
          rfl

/-! ## Wrappers -/

/-- Whether a wrapper can declare its receiver in front of the slots of a function. -/
def Wrappable (role : Role) (publicName : String) (f : FunctionInfo) : Prop :=
  role = .function ∨ ∀ r ∈ receiverOf role publicName, Admits r (declaredSlots role f)

/-- The wrapper that a value is or, if it is a class method, that it calls. -/
def Heap.wrapper? (h : Heap) (v : Value) : Option FunctionInfo :=
  match h.object? v with
  | some (.function f) => some f
  | some (.classMethod g) =>
    match h.object? g with
    | some (.function f) => some f
    | _ => none
  | _ => none

/-- The slots of the wrapper of a function. -/
def wrapperSlots (h : Heap) (role : Role) (publicName : String) (f : FunctionInfo) :
    List (Slot Value) :=
  receiverSlots role publicName ++ (declaredSlots role f).map (hinted h f.hints)

/-- The slots of a wrapper are in order exactly if its receiver can stand where it does. -/
theorem ordered_wrapperSlots {publicName : String} (hslots : Definable f.slots)
    (hname : role = .function → receiverOf role publicName = none) :
    Ordered (wrapperSlots h role publicName f) ↔ Wrappable role publicName f := by
  have hordered : Ordered ((declaredSlots role f).map (hinted h f.hints)) :=
    ordered_retyped.mpr (definable_declaredSlots hslots role).toOrdered
  rw [wrapperSlots, receiverSlots, Wrappable]
  cases hr : receiverOf role publicName with
  | none => exact ⟨fun _ => .inr nofun, fun _ => hordered⟩
  | some r =>
      have hnot : role ≠ .function := fun hrole => by
        rw [hname hrole] at hr
        exact nomatch hr
      refine (ordered_receiver (wellNamed_receiver hr).1 hordered).trans ?_
      rw [Admits, List.forall_mem_map]
      constructor
      · intro hadmits
        exact .inr fun r' hr' => Option.some.inj hr' ▸ hadmits
      · rintro (hrole | hadmits)
        · exact absurd hrole hnot
        · exact hadmits r rfl

/-- Making a wrapper only adds objects, if its parameters make a signature. -/
theorem makeWrapper_of_ok {info : FunctionInfo} (hv : d.implementation = some v)
    (hf : h.object? v = some (.function f)) (hinfo : wrapperInfo d v f = .ok info) :
    ∃ w h', makeWrapper d h = .done w h' ∧ h'.wrapper? w = some info := by
  have hmake : makeWrapper d h = (do
      let w ← Comp.make (.function info)
      if d.isFactory then Comp.make (.classMethod w) else pure w : Comp Value) h := by
    rw [makeWrapper, hv]
    show (match h.object? v with
      | some (.function f) => _
      | _ => _ : Comp Value) h = _
    rw [hf]
    simp only [hinfo]
  rw [hmake]
  obtain ⟨a, h₁, hadd⟩ : ∃ a h₁, h.add (.function info) = (a, h₁) := ⟨_, _, rfl⟩
  have hfunction : h₁.object? (.ref a) = some (.function info) := by
    have hself := h.get?_add_self (.function info)
    rwa [hadd] at hself
  have hmade : (Comp.make (.function info) : Comp Value) h = .done (.ref a) h₁ := by
    rw [Comp.make, hadd]
  show ∃ w h', Run.bind (Comp.make (.function info) h) _ = .done w h' ∧ _
  rw [hmade]
  cases hfactory : d.isFactory with
  | false =>
      refine ⟨.ref a, h₁, rfl, ?_⟩
      rw [Heap.wrapper?, hfunction]
  | true =>
      refine ⟨.ref (h₁.add (.classMethod (.ref a))).1, (h₁.add (.classMethod (.ref a))).2, rfl, ?_⟩
      have hclass : (h₁.add (.classMethod (.ref a))).2.object?
          (.ref (h₁.add (.classMethod (.ref a))).1) = some (.classMethod (.ref a)) :=
        h₁.get?_add_self _
      rw [Heap.wrapper?, hclass]
      show (match Heap.object? (h₁.add (.classMethod (.ref a))).2 (.ref a) with
        | some (.function f) => some f
        | _ => none) = some info
      rw [(h₁.grows_add _).object? hfunction]

theorem makeWrapper_of_error {fault : SlotFault} (hv : d.implementation = some v)
    (hf : h.object? v = some (.function f)) (hfault : wrapperInfo d v f = .error fault) :
    makeWrapper d h = .thrown (.mistake (SlotFault.mistake fault)) h := by
  rw [makeWrapper, hv]
  show (match h.object? v with
    | some (.function f) => _
    | _ => _ : Comp Value) h = _
  rw [hf]
  simp only [hfault]
  rfl

/-- **WHICH FUNCTIONS ARE WRAPPED**: those whose receiver can stand in front of their other
    slots.  Their wrapper declares the receiver and then these slots, with the same names,
    passing and defaults; any other function is a mistake, and nothing is made. -/
theorem makeWrapper_described (hf : h.object? v = some (.function f))
    (hslots : Definable f.slots)
    (hw : Weaves (describeFunction h v f name role applied) enclosing invariants d) :
    (Wrappable role d.publicName f → ∃ w h' info, makeWrapper d h = .done w h' ∧
      h'.wrapper? w = some info ∧ info.slots = wrapperSlots h role d.publicName f) ∧
    (¬ Wrappable role d.publicName f → makeWrapper d h = .thrown (.mistake .wrongValue) h) := by
  have hmade : d.publicName = publicName name role ∧ d.implementation = some v := by
    obtain ⟨w, hvalidated, hdescribed⟩ := hw
    obtain ⟨hpublic, himplementation, -⟩ := signature_of_describe hdescribed
    rw [(accepts_of_validateCallable hvalidated).declaration] at hpublic himplementation
    exact ⟨hpublic, himplementation⟩
  have hname : role = .function → receiverOf role d.publicName = none := by
    rintro rfl
    rw [hmade.1]
    exact receiverOf_function name
  have hdeclared := definable_declaredSlots hslots role
  have hown : d.signature.slots false = .ok ((declaredSlots role f).map (hinted h f.hints)) :=
    (slots_described hslots hw false).trans
      (published_eq_ok.mpr ⟨rfl, ordered_retyped.mpr hdeclared.toOrdered⟩)
  have hpublished : d.signature.slots true = published (wrapperSlots h role d.publicName f) :=
    slots_described hslots hw true
  constructor
  · intro hwrappable
    have hordered := (ordered_wrapperSlots (h := h) hslots hname).mpr hwrappable
    rw [published_eq_ok.mpr ⟨rfl, hordered⟩] at hpublished
    have hinfo : ∃ info, wrapperInfo d v f = .ok info ∧
        info.slots = wrapperSlots h role d.publicName f := by
      rw [wrapperInfo, hown, hpublished]
      exact ⟨_, rfl, rfl⟩
    obtain ⟨info, hinfo, hinfoSlots⟩ := hinfo
    obtain ⟨w, h', hdone, hwrapper⟩ := makeWrapper_of_ok hmade.2 hf hinfo
    exact ⟨w, h', info, hdone, hwrapper, hinfoSlots⟩
  · intro hwrappable
    have hnamed : ∀ s ∈ wrapperSlots h role d.publicName f, s.WellNamed := by
      rw [wrapperSlots, List.forall_mem_append]
      refine ⟨List.forall_mem_map.mpr fun r hr => ?_,
        (ordered_retyped.mpr hdeclared.toOrdered).named⟩
      exact (wellNamed_receiver (Option.mem_toList.mp hr)).1
    obtain ⟨fault, hfault, herror⟩ :=
      published_fault hnamed (mt (ordered_wrapperSlots hslots hname).mp hwrappable)
    rw [herror] at hpublished
    have hinfo : wrapperInfo d v f = .error fault := by
      rw [wrapperInfo, hown, hpublished]
      rfl
    rw [makeWrapper_of_error hmade.2 hf hinfo]
    cases fault with
    | emptyName => exact absurd rfl hfault
    | badName | wrongOrder | missingDefault | duplicate => rfl

/-- A method with some slots and a precondition. -/
def recordingMethod (slots : List (Slot Value)) : FunctionInfo where
  name := "_add"
  qualname := "Ledger._add"
  slots := slots
  code := .result (.name default "amount" .load) { globals := 0 }
  specs := some { preconditions := [⟨"amount > 0", "positive"⟩] }

/-- A heap that holds the method. -/
def recordingHeap (slots : List (Slot Value)) : Heap := ⟨#[.function (recordingMethod slots)]⟩

/-- The declaration of the method. -/
def recordingMember (slots : List (Slot Value)) : Callable Value :=
  describeFunction (recordingHeap slots) (.ref 0) (recordingMethod slots) "_add" .method true

/-- The declaration of a class whose only member is the method. -/
def recordingClass (slots : List (Slot Value)) : TypeDecl Value where
  name := "Ledger"
  callables := [recordingMember slots]

/-- An amount, any notes behind it, and a choice that is made by name. -/
def notedSlots : List (Slot Value) :=
  [⟨"amount", .positionalOrNamed, none, none⟩, ⟨"notes", .variadic, none, none⟩,
   ⟨"strict", .namedOnly, some .none, none⟩]

/-- A receiver and an amount that are only positional. -/
def positionalSlots : List (Slot Value) :=
  [⟨"self", .positionalOnly, none, none⟩, ⟨"amount", .positionalOnly, none, none⟩]

/-- A method is wrapped whose slots can be named or take what is left over. -/
theorem makeWrapper_described_noted : ∃ invariants d,
    Weaves (recordingMember (receiverSlot "self" :: notedSlots))
      (some (recordingClass (receiverSlot "self" :: notedSlots))) invariants d ∧
      ∃ w h' info, makeWrapper d (recordingHeap (receiverSlot "self" :: notedSlots))
          = .done w h' ∧ h'.wrapper? w = some info ∧
        info.slots = receiverSlot "self" :: notedSlots := by
  have hmade : describedMembers (recordingClass (receiverSlot "self" :: notedSlots))
      (fun _ d => d.publicName) = [some "add"] := by
    decide +kernel
  obtain ⟨c, hc, invariants, v, d, -, hv, hd, hname⟩ := exists_of_describedMembers hmade
  obtain rfl := List.mem_singleton.mp hc
  have hslots : Definable (recordingMethod (receiverSlot "self" :: notedSlots)).slots := by
    decide +kernel
  have hadmits : Admits "self" notedSlots := by decide +kernel
  obtain ⟨w, h', info, hdone, hwrapper, hinfo⟩ :=
    (makeWrapper_described rfl hslots ⟨v, hv, hd⟩).1
      (.inr fun r hr => Option.some.inj hr ▸ hadmits)
  refine ⟨invariants, d, ⟨v, hv, hd⟩, w, h', info, hdone, hwrapper, ?_⟩
  rw [hinfo]
  rfl

/-- A method with an amount that is only positional is declared well, and it is not wrapped. -/
theorem makeWrapper_described_fails : Definable (recordingMethod positionalSlots).slots ∧
    ∃ invariants d,
      Weaves (recordingMember positionalSlots) (some (recordingClass positionalSlots))
        invariants d ∧
      makeWrapper d (recordingHeap positionalSlots)
        = .thrown (.mistake .wrongValue) (recordingHeap positionalSlots) := by
  have hmade : describedMembers (recordingClass positionalSlots) (fun _ d =>
      match wrapperInfo d (.ref 0) (recordingMethod positionalSlots) with
      | .ok _ => none
      | .error fault => some fault)
      = [some (some (.wrongOrder .positionalOrNamed .positionalOnly))] := by
    decide +kernel
  refine ⟨by decide +kernel, ?_⟩
  obtain ⟨c, hc, invariants, v, d, -, hv, hd, hfault⟩ := exists_of_describedMembers hmade
  obtain rfl := List.mem_singleton.mp hc
  refine ⟨invariants, d, ⟨v, hv, hd⟩, ?_⟩
  have himplementation : d.implementation = some (.ref 0) := by
    rw [(signature_of_describe hd).2.1, (accepts_of_validateCallable hv).declaration]
    rfl
  split at hfault
  · exact nomatch hfault
  · rename_i fault hinfo
    rw [makeWrapper_of_error himplementation rfl hinfo, Option.some.inj hfault]
    rfl

end Covenant.Machine
