import Covenant.Proofs.Emission.Scopes
import Covenant.Proofs.Machine.Stacks
import Covenant.Proofs.Source.Fields

/-! # Attributes — under which names they are stored and read

    In a class a private name stands for another one: the name of the class is
    put in front.  The text of a class names its attributes as they are
    written, a method stores them as its class has it, a clause in memory
    reads them outside of any class, and an emitted clause reads them in the
    mixin, which has a name of its own.

    * `memory_agrees_iff`, `mixin_agrees_iff`, `calledName_agrees_iff` and
      `writtenName_stored_iff` say of which names these places agree.
    * `assign_attribute` and `evaluate_attribute` are the steps of a run: what
      is stored through the receiver, and what is read through it.
    * `foundAgain` is what every reader finds after a method has stored an
      attribute: its value if the names agree, and otherwise whatever the
      instance had under the other name before.
    * `attributes_found_again` adds that the attribute is a field, and how
      implementations are called.  A private attribute of a class with a name is lost
      to both readers (`attributes_found_again_fails`). -/

namespace Covenant.Machine

open Condition Declaration Signature Weaving Wrapper Covenant.Tree

variable {owner n name : String}

/-! ## Names -/

/-- Whether a class changes a name. -/
def IsPrivate (name : String) : Prop := isMarked name = true ∧ '.' ∉ name.toList

instance (name : String) : Decidable (IsPrivate name) :=
  inferInstanceAs (Decidable (_ ∧ _))

/-- Whether the name of a class leaves nothing to put in front. -/
def IsBlank (owner : String) : Prop := ∀ ch ∈ owner.toList, ch = '_'

instance (owner : String) : Decidable (IsBlank owner) := List.decidableBAll _ _

/-- What a class puts in front of a private name. -/
def bareName (owner : String) : List Char := owner.toList.dropWhile (· = '_')

theorem bareName_eq_nil : bareName owner = [] ↔ IsBlank owner := by
  rw [bareName, List.dropWhile_eq_nil_iff]
  simp only [decide_eq_true_eq]
  rfl

theorem toList_mangled (owner name : String) : (mangled owner name).toList
    = '_' :: (bareName owner ++ name.toList) := by
  simp [mangled, bareName]

/-- A class changes the private names, unless its own name is blank. -/
theorem privateName_some (owner name : String) : privateName (some owner) name
    = if IsPrivate name ∧ ¬IsBlank owner then mangled owner name else name := by
  have hbare : (String.ofList (bareName owner)).isEmpty = true ↔ IsBlank owner := by
    rw [String.isEmpty_iff, String.ofList_eq_empty_iff, bareName_eq_nil]
  have hcondition : (("__".isPrefixOf name && !(['_', '_'].isSuffixOf name.toList)
      && !name.contains '.'
      && !(String.ofList (bareName owner)).isEmpty) = true)
      ↔ IsPrivate name ∧ ¬IsBlank owner := by
    rw [Bool.and_eq_true, Bool.and_eq_true, Bool.not_eq_true', Bool.not_eq_true', ← hbare,
      Bool.not_eq_true, String.contains_char_eq, decide_eq_false_iff_not]
    rfl
  rw [privateName]
  exact if_congr hcondition rfl rfl

theorem mangled_ne_self (owner name : String) : mangled owner name ≠ name := by
  intro heq
  have hlength := congrArg (fun s => s.toList.length) heq
  simp only [toList_mangled, List.length_cons, List.length_append] at hlength
  omega

theorem privateName_eq_self_iff :
    privateName (some owner) n = n ↔ ¬(IsPrivate n ∧ ¬IsBlank owner) := by
  rw [privateName_some]
  by_cases h : IsPrivate n ∧ ¬IsBlank owner
  · rw [if_pos h]
    exact iff_of_false (mangled_ne_self owner n) (not_not_intro h)
  · rw [if_neg h]
    exact iff_of_true rfl h

theorem bareName_mixinName (owner : String) :
    bareName (mixinName owner) = bareName owner ++ "Contracts".toList := by
  rw [bareName, bareName, mixinName, String.toList_append, List.dropWhile_append]
  split
  · rename_i hempty
    rw [List.isEmpty_iff.mp hempty]
    rfl
  · rfl

theorem not_isBlank_mixinName (owner : String) : ¬IsBlank (mixinName owner) := by
  rw [← bareName_eq_nil, bareName_mixinName]
  exact List.append_ne_nil_of_right_ne_nil _ (by decide)

/-- A mixin and a class agree on the names that are not private, and on the others if the class
    leaves the same in front as the mixin. -/
theorem mixin_agrees_iff (T : String) :
    privateName (some (mixinName T)) n = privateName (some owner) n
      ↔ ¬IsPrivate n ∨ bareName owner = bareName T ++ "Contracts".toList := by
  by_cases hn : IsPrivate n
  · rw [or_iff_right (not_not_intro hn), privateName_some, if_pos ⟨hn, not_isBlank_mixinName T⟩,
      privateName_some]
    by_cases howner : IsBlank owner
    · rw [if_neg fun h => h.2 howner, bareName_eq_nil.2 howner]
      refine iff_of_false (mangled_ne_self _ n) fun heq => ?_
      exact absurd (List.append_eq_nil_iff.mp heq.symm).2 (by decide)
    · rw [if_pos ⟨hn, howner⟩, ← String.toList_inj, toList_mangled, toList_mangled,
        bareName_mixinName, List.cons_inj_right, List.append_left_inj]
      exact eq_comm
  · refine iff_of_true ?_ (.inl hn)
    rw [privateName_some, if_neg fun h => hn h.1, privateName_some, if_neg fun h => hn h.1]

/-- The mixin of a class has another name than the class. -/
theorem bareName_ne_mixin (owner : String) : bareName owner ≠ bareName owner ++ "Contracts".toList := by
  intro heq
  have hlength := congrArg List.length heq
  rw [List.length_append] at hlength
  have hmark : "Contracts".toList.length = 9 := by decide
  omega

/-- A name that a class has changed is not private any more. -/
theorem not_isPrivate_mangled (howner : ¬IsBlank owner) (name : String) :
    ¬IsPrivate (mangled owner name) := by
  intro hprivate
  have hmarked := hprivate.1
  rw [isMarked, Bool.and_eq_true] at hmarked
  have hprefix : "__".toList <+: (mangled owner name).toList :=
    String.startsWith_string_iff.mp hmarked.1
  rw [toList_mangled] at hprefix
  cases hbare : bareName owner with
  | nil => exact howner (bareName_eq_nil.1 hbare)
  | cons ch rest =>
      rw [hbare] at hprefix
      obtain ⟨more, hmore⟩ := hprefix
      have hhead : '_' = ch := (List.cons.inj (List.cons.inj hmore).2).1
      have hfirst := List.head?_dropWhile_not (fun c => decide (c = '_')) owner.toList
      rw [← bareName, hbare, List.head?_cons, ← hhead] at hfirst
      exact absurd hfirst (by decide)

theorem length_le_privateName (o : Option String) (x : String) :
    x.toList.length ≤ (privateName o x).toList.length := by
  rcases privateName_cases o x with heq | ⟨-, hsuffix⟩
  · rw [heq]
  · exact hsuffix.length_le

/-- The name by which the mixin of a class calls an implementation. -/
def calledName (owner name : String) : String :=
  if "__".isPrefixOf name then mangled owner name else name

/-- The mixin calls what the class stores, unless there is nothing to put in front of a name with
    two underscores. -/
theorem calledName_agrees_iff (hname : "__".isPrefixOf name = true → IsPrivate name) :
    privateName (some (mixinName owner)) (calledName owner name) = privateName (some owner) name
      ↔ ("__".isPrefixOf name = true → ¬IsBlank owner) := by
  unfold calledName
  cases hmark : "__".isPrefixOf name with
  | false =>
      have hprivate : ¬IsPrivate name := by
        intro h
        have hmarked := h.1
        rw [isMarked, hmark] at hmarked
        cases hmarked
      rw [if_neg Bool.false_ne_true]
      exact iff_of_true ((mixin_agrees_iff owner).mpr (.inl hprivate)) fun h => absurd h Bool.false_ne_true
  | true =>
      rw [if_pos rfl]
      by_cases howner : IsBlank owner
      · refine iff_of_false (fun heq => ?_) fun h => h rfl howner
        rw [privateName_eq_self_iff.2 fun h => h.2 howner] at heq
        have hlength := length_le_privateName (some (mixinName owner)) (mangled owner name)
        rw [heq, toList_mangled, List.length_cons, List.length_append] at hlength
        omega
      · refine iff_of_true ?_ fun _ => howner
        rw [privateName_eq_self_iff.2 fun h => not_isPrivate_mangled howner name h.1,
          privateName_some, if_pos ⟨hname hmark, howner⟩]

/-! ## Names as they are written -/

/-- A name that looks as if a class had changed it. -/
def WrittenOut (owner name : String) : Prop :=
  '_' :: (bareName owner ++ ['_', '_']) <+: name.toList ∧
    (bareName owner).length + 3 < name.toList.length

/-- Only such names are shortened. -/
theorem writtenName_eq (owner name : String) [Decidable (WrittenOut owner name)] :
    writtenName owner name = if WrittenOut owner name then
      String.ofList (name.toList.drop ((bareName owner).length + 1)) else name := by
  obtain ⟨front, hfront⟩ : ∃ front : String, front
      = "_" ++ String.ofList (bareName owner) ++ "__" := ⟨_, rfl⟩
  have hlist : front.toList = '_' :: (bareName owner ++ ['_', '_']) := by
    simp [hfront]
  have hlength : front.length = (bareName owner).length + 3 := by
    rw [← String.length_toList, hlist]
    simp
  have hcondition : (front.isPrefixOf name && front.length < name.length) = true
      ↔ WrittenOut owner name := by
    rw [Bool.and_eq_true, decide_eq_true_eq, hlength, ← String.length_toList (s := name)]
    refine and_congr_left' ?_
    rw [← hlist]
    exact String.startsWith_string_iff
  have hdrop : front.length - 2 = (bareName owner).length + 1 := by omega
  unfold writtenName
  dsimp only
  rw [← bareName, ← hfront, hdrop]
  exact if_congr hcondition rfl rfl

theorem writtenOut_mangled (hn : IsPrivate n) (owner : String) : WrittenOut owner (mangled owner n) := by
  have hmarked := hn.1
  rw [isMarked, Bool.and_eq_true, Bool.not_eq_true'] at hmarked
  obtain ⟨rest, hrest⟩ : "__".toList <+: n.toList := String.startsWith_string_iff.mp hmarked.1
  unfold WrittenOut
  rw [toList_mangled, ← hrest]
  refine ⟨?_, ?_⟩
  · rw [List.cons_prefix_cons]
    refine ⟨rfl, ?_⟩
    rw [← List.append_assoc]
    exact List.prefix_append _ _
  · cases rest with
    | nil =>
        rw [← hrest] at hmarked
        exact absurd hmarked.2 (by decide)
    | cons ch rest =>
        simp only [List.length_cons, List.length_append]
        have hmark : "__".toList.length = 2 := by decide
        omega

/-- **A METHOD IS KNOWN AS IT WAS WRITTEN** if its class has changed its name, and otherwise if its name
    does not look so. -/
theorem writtenName_stored_iff : writtenName owner (privateName (some owner) n) = n
    ↔ (IsPrivate n ∧ ¬IsBlank owner) ∨ ¬WrittenOut owner n := by
  classical
  rw [privateName_some, writtenName_eq]
  by_cases hn : IsPrivate n ∧ ¬IsBlank owner
  · rw [if_pos hn, if_pos (writtenOut_mangled hn.1 owner), toList_mangled, List.drop_succ_cons,
      List.drop_left, String.ofList_toList]
    exact iff_of_true rfl (.inl hn)
  · rw [if_neg hn, or_iff_right hn]
    by_cases hout : WrittenOut owner n
    · rw [if_pos hout]
      refine iff_of_false (fun heq => ?_) (not_not_intro hout)
      have hlength := congrArg (fun s => s.toList.length) heq
      simp only [String.toList_ofList, List.length_drop] at hlength
      have hlong := hout.2
      omega
    · rw [if_neg hout]
      exact iff_of_true rfl hout

/-! ## Instances -/

variable {host : Host} {h h' h₁ h₂ : Heap} {a : Address} {cls v x : Value}
  {fields : Names Value} {s : Scope} {span : Span} {acc : Access} {e : Expr}

/-- The instances of a class have what they are given under a name for themselves: the class has a
    slot for it, or nothing at all. -/
def Unclaimed (h : Heap) (cls : Value) (name : String) : Prop :=
  (h.fieldInLine name (h.lineOf cls) = none ∧ lineHasMethod (h.lineOf cls) name = false) ∨
    ∃ u, h.fieldInLine name (h.lineOf cls) = some u ∧ h.object? u = some (.slot name)

/-- The instances of a class have room under a name: a slot, or room for any name. -/
def HasRoom (h : Heap) (cls : Value) (name : String) : Prop :=
  (∃ u, h.fieldInLine name (h.lineOf cls) = some u ∧ h.object? u = some (.slot name)) ∨
    cls ≠ .type .object ∧ ∀ info, h.classInfo? cls = some info → info.isOpen = true

/-- What an instance has under a name. -/
def ownField (fields : Names Value) (name : String) : Comp Value :=
  Comp.ofOption .noAttribute (fields.lookup name)

/-- The names that every instance has something under are written between double underscores. -/
theorem isDunder_standing : ∀ name ∈ ["__class__", "__dict__", "__module__", "__doc__",
    "__contract_type__"], Source.IsDunder name := by
  unfold Source.IsDunder
  decide

theorem getField_own (hr : h.get? a = some (.record cls fields)) (hu : Unclaimed h cls name)
    (hn : ¬Source.IsDunder name) :
    getField host (.ref a) name h = ownField fields name h := by
  have hobject : h.object? (.ref a) = some (.record cls fields) := hr
  have hfield : getField host (.ref a) name h = instanceField host (.ref a) cls fields name h := by
    unfold getField
    rw [bind_of_done (show Comp.heap h = .done h h from rfl)]
    simp only [hobject]
  rw [hfield]
  unfold instanceField ownField
  rw [bind_of_done (show Comp.heap h = .done h h from rfl)]
  rcases hu with ⟨hnone, hmethod⟩ | ⟨u, hsome, hslot⟩
  · simp only [hnone, Option.bind_none]
    cases hlookup : fields.lookup name with
    | some y => rfl
    | none =>
        have hstanding : name ∉ ["__class__", "__dict__", "__module__", "__doc__",
            "__contract_type__"] := fun hmem => hn (isDunder_standing name hmem)
        simp only [List.mem_cons, List.not_mem_nil, or_false, not_or] at hstanding
        obtain ⟨hclass, hdict, hmodule, hdoc, hcontract⟩ := hstanding
        simp only
        refine congrFun ?_ h
        split
        · exact absurd rfl hclass
        · exact absurd rfl hdict
        · exact absurd rfl hmodule
        · exact absurd rfl hdoc
        · exact absurd rfl hcontract
        · rw [hmethod]
          rfl
  · simp only [hsome, Option.bind_some, hslot]

theorem setField_own (hr : h.get? a = some (.record cls fields)) (hu : Unclaimed h cls name)
    (hroom : HasRoom h cls name) : setField host (.ref a) name x h
      = .done () (h.put a (.record cls (Names.set fields name x))) := by
  have hobject : h.object? (.ref a) = some (.record cls fields) := hr
  unfold setField
  rw [bind_of_done (show Comp.heap h = .done h h from rfl)]
  simp only [hobject]
  rcases hu with ⟨hnone, -⟩ | ⟨u, hsome, hslot⟩
  · simp only [hnone, Option.bind_none]
    rcases hroom with ⟨u, hsome, -⟩ | hopen
    · cases hnone.symm.trans hsome
    · refine congrFun (if_pos ?_) h
      cases cls with
      | type t => exact bne_iff_ne.mpr fun ht => hopen.1 (congrArg Value.type ht)
      | ref | atom | routine | module =>
          dsimp only
          cases hinfo : h.classInfo? _ with
          | none => rfl
          | some info => exact hopen.2 info hinfo
  · simp only [hsome, Option.bind_some, hslot]
    rfl

/-! ## Changed instances -/

section Changed

variable {fields' : Names Value}

theorem object?_put_record (hr : h.get? a = some (.record cls fields)) (v : Value) :
    (h.put a (.record cls fields')).object? v = h.object? v ∨
      h.object? v = some (.record cls fields) ∧
        (h.put a (.record cls fields')).object? v = some (.record cls fields') := by
  cases v with
  | ref b =>
      by_cases hb : b = a
      · subst hb
        exact .inr ⟨hr, Heap.get?_put_self hr⟩
      · exact .inl (h.get?_put_of_ne _ (Ne.symm hb))
  | atom | type | routine | module => exact .inl rfl

theorem classInfo?_put_record (hr : h.get? a = some (.record cls fields)) (v : Value) :
    (h.put a (.record cls fields')).classInfo? v = h.classInfo? v := by
  unfold Heap.classInfo?
  rcases (object?_put_record hr v :
    (h.put a (.record cls fields')).object? v = h.object? v ∨ _) with heq | ⟨hbefore, hafter⟩
  · rw [heq]
  · rw [hbefore, hafter]

theorem lineOf_put_record (hr : h.get? a = some (.record cls fields)) (v : Value) :
    (h.put a (.record cls fields')).lineOf v = h.lineOf v := by
  cases v with
  | type t => rfl
  | ref | atom | routine | module => simp only [Heap.lineOf, classInfo?_put_record hr]

theorem fieldInLine_put_record (hr : h.get? a = some (.record cls fields)) (name : String)
    (line : List Value) :
    (h.put a (.record cls fields')).fieldInLine name line = h.fieldInLine name line := by
  induction line with
  | nil => rfl
  | cons c line ih =>
      rw [Heap.fieldInLine, Heap.fieldInLine, classInfo?_put_record hr, ih]

/-- What a class has under a name does not depend on what its instances have. -/
theorem unclaimed_put_record (hr : h.get? a = some (.record cls fields)) (name : String) :
    Unclaimed (h.put a (.record cls fields')) cls name ↔ Unclaimed h cls name := by
  unfold Unclaimed
  rw [lineOf_put_record hr, fieldInLine_put_record hr]
  refine or_congr_right (exists_congr fun u => and_congr_right fun _ => ?_)
  rcases (object?_put_record hr u :
    (h.put a (.record cls fields')).object? u = h.object? u ∨ _) with heq | ⟨hbefore, hafter⟩
  · rw [heq]
  · rw [hbefore, hafter]
    exact iff_of_false (fun hf => by cases hf) (fun hf => by cases hf)

end Changed

/-! ## Storing and reading -/

/-- No class makes a reserved name of another one. -/
theorem not_isDunder_privateName (hn : ¬Source.IsDunder n) (o : Option String) :
    ¬Source.IsDunder (privateName o n) := by
  rcases privateName_cases o n with heq | ⟨hmarked, hsuffix⟩
  · rwa [heq]
  · rintro ⟨-, hends⟩
    rw [isMarked, Bool.and_eq_true, Bool.not_eq_true'] at hmarked
    have hfront : "__".toList <+: n.toList := String.startsWith_string_iff.mp hmarked.1
    have hend : ['_', '_'] <:+ n.toList :=
      List.suffix_of_suffix_length_le hends hsuffix hfront.length_le
    exact hn ⟨hfront, hend⟩

theorem ownField_set (fields : Names Value) (stored name : String) (x : Value) :
    ownField (Names.set fields stored x) name
      = if name = stored then pure x else ownField fields name := by
  unfold ownField
  rw [Names.lookup_set]
  split
  · rfl
  · rfl

/-- A method stores an attribute under the name that its class makes of it. -/
theorem assign_attribute (he : evaluate host s e h = .done (.ref a) h₁)
    (hr : h₁.get? a = some (.record cls fields)) (hu : Unclaimed h₁ cls (s.nameHere n))
    (hroom : HasRoom h₁ cls (s.nameHere n)) : assign host s (.field span e n acc) x h
      = .done () (h₁.put a (.record cls (Names.set fields (s.nameHere n) x))) := by
  rw [assign, bind_of_done he]
  exact setField_own hr hu hroom

/-- An attribute is read under the name that the class makes of it in which it is read. -/
theorem evaluate_attribute (he : evaluate host s e h = .done (.ref a) h)
    (hr : h.get? a = some (.record cls fields)) (hu : Unclaimed h cls (s.nameHere n))
    (hn : ¬Source.IsDunder n) :
    evaluate host s (.field span e n acc) h = ownField fields (s.nameHere n) h := by
  rw [evaluate, bind_of_done he]
  exact getField_own hr hu (not_isDunder_privateName hn _)

/-- What becomes of an attribute that a method of a class has stored. -/
structure FoundAgain (owner n : String) (a : Address) (cls x : Value) (fields : Names Value)
    (h : Heap) : Prop where
  stored : h.get? a = some (.record cls (Names.set fields (privateName (some owner) n) x))
  /-- It is captured if the class leaves its name alone. -/
  captured : ∀ host d implementation activation, activation.receiver? = some (.ref a) →
    Unclaimed h cls n → (surroundings host d implementation).preserve activation n h
      = (if ¬IsPrivate n ∨ IsBlank owner then Comp.snapshot x
        else ownField fields n >>= Comp.snapshot) h
  /-- A clause in memory stands in no class. -/
  inMemory : ∀ host s span e acc, s.owner = none → evaluate host s e h = .done (.ref a) h →
    Unclaimed h cls n → evaluate host s (.field span e n acc) h
      = (if ¬IsPrivate n ∨ IsBlank owner then pure x else ownField fields n) h
  /-- An emitted clause or capture stands in a mixin. -/
  inMixin : ∀ host s T span e acc, s.owner = some (mixinName T) →
    evaluate host s e h = .done (.ref a) h →
    Unclaimed h cls (privateName (some (mixinName T)) n) →
    evaluate host s (.field span e n acc) h
      = (if ¬IsPrivate n ∨ bareName owner = bareName T ++ "Contracts".toList then pure x
        else ownField fields (privateName (some (mixinName T)) n)) h

/-- In memory a name stands for itself. -/
theorem memory_agrees_iff : n = privateName (some owner) n ↔ ¬IsPrivate n ∨ IsBlank owner := by
  rw [eq_comm, privateName_eq_self_iff, not_and_or, not_not]

/-- **WHAT A METHOD STORES** is found again by every reader for which the name is the same. -/
theorem foundAgain (hn : ¬Source.IsDunder n)
    (hstored : h.get? a = some (.record cls (Names.set fields (privateName (some owner) n) x))) :
    FoundAgain owner n a cls x fields h where
  stored := hstored
  captured := by
    intro host d implementation activation hreceiver hu
    show (getField host (activation.receiver?.getD .none) n >>= Comp.snapshot) h = _
    rw [hreceiver]
    have hread : getField host (.ref a) n h = _ := getField_own hstored hu hn
    rw [ownField_set] at hread
    by_cases hkept : ¬IsPrivate n ∨ IsBlank owner
    · rw [if_pos (memory_agrees_iff.2 hkept)] at hread
      rw [if_pos hkept]
      exact bind_of_done hread
    · rw [if_neg (mt memory_agrees_iff.1 hkept)] at hread
      rw [if_neg hkept]
      show Run.bind (getField host (.ref a) n h) _ = Run.bind (ownField fields n h) _
      rw [hread]
  inMemory := by
    intro host s span e acc hs he hu
    have hhere : s.nameHere n = n := by
      rw [Scope.nameHere, hs]
      rfl
    rw [evaluate_attribute he hstored (hhere.symm ▸ hu) hn, hhere, ownField_set]
    exact congrFun (if_congr memory_agrees_iff rfl rfl) h
  inMixin := by
    intro host s T span e acc hs he hu
    have hhere : s.nameHere n = privateName (some (mixinName T)) n := by
      rw [Scope.nameHere, hs]
    rw [evaluate_attribute he hstored (hhere.symm ▸ hu) hn, hhere, ownField_set]
    exact congrFun (if_congr (mixin_agrees_iff T) rfl rfl) h

/-! ## What a class assigns -/

/-- Whether the text of a class assigns an attribute through its receiver, at any depth. -/
def Assigns (c : Source.ClassDef) (n : String) : Prop :=
  ∃ s r a, Expr.field s (.name r "self" a) n .store ∈ c.toStmt.nodes

theorem assigns_iff {c : Source.ClassDef} :
    Assigns c n ↔ n ∈ c.toStmt.preorder Source.assignedField? := by
  rw [← mem_statement_layers]
  show _ ↔ n ∈ c.toStmt.marks Source.assignedField?
  rw [mem_statement_marks]
  constructor
  · rintro ⟨s, r, a, he⟩
    exact ⟨_, he, Source.assignedField?_eq_some.mpr ⟨s, r, a, rfl⟩⟩
  · rintro ⟨e, he, hn⟩
    obtain ⟨s, r, a, rfl⟩ := Source.assignedField?_eq_some.mp hn
    exact ⟨s, r, a, he⟩

/-- The fields read from a text have the names as they are written. -/
theorem mem_fields_of_assigns {classes : List Source.ClassDef} {start c : Source.ClassDef}
    {names : List String} (hc : Source.Reaches classes start c) (hassigned : Assigns c n)
    (hn : ¬Source.IsDunder n) (hnames : Source.fieldsOf classes start = .ok names) :
    n ∈ names := by
  have hrun := Source.searches_fieldsOf classes start
  obtain ⟨found, hfound, rfl⟩ := map_eq_ok.mp hnames
  rw [hfound] at hrun
  obtain ⟨s, r, a, he⟩ := hassigned
  exact (hrun.finds.2.2 n).mpr ⟨hn, c, hc, .receiver s r a he⟩

theorem mem_foldl_addFields {lists : List (List String)} {names : List String} :
    n ∈ lists.foldl Source.addFields names
      ↔ n ∈ names ∨ ¬Source.IsDunder n ∧ ∃ l ∈ lists, n ∈ l := by
  induction lists generalizing names with
  | nil => simp
  | cons l lists ih =>
      rw [List.foldl_cons, ih, Source.mem_addFields]
      simp only [List.exists_mem_cons_iff]
      grind

/-- The fields discovered on a class have the names as they are written. -/
theorem mem_discovered_of_assigns {program : List Stmt} {k info : ClassInfo}
    {c : Source.ClassDef} (hv : h.classInfo? v = some info) (hline : v ∈ k.line.dropLast)
    (htext : classInBlock info.qualname "" program = some c.toStmt) (hassigned : Assigns c n)
    (hn : ¬Source.IsDunder n) : n ∈ fieldsOf h program k := by
  have hown : n ∈ ownFields h program v := by
    have hmem : n ∈ assignedFields program info := by
      rw [assignedFields, htext]
      exact assigns_iff.1 hassigned
    cases v with
    | ref b =>
        unfold ownFields
        rw [hv]
        exact List.mem_append_right _ hmem
    | type | atom | routine | module => cases hv
  rw [fieldsOf, mem_foldl_addFields]
  exact .inr ⟨hn, _, List.mem_map_of_mem (List.mem_reverse.mpr hline), hown⟩

/-- A method runs in the scope of the class in whose body it was defined. -/
theorem owner_of_makeFunction {head : FunctionHead} {body : List Stmt} {defaults : List Value}
    {named : List (Option Value)} {hints : Names Value}
    (hmade : makeFunction s head body defaults named hints h = .done v h') :
    ∃ b f scope locals, v = .ref b ∧ h'.get? b = some (.function f) ∧
      f.code = .block body scope locals ∧ ∀ frame, (scope.inside frame locals).owner = s.owner := by
  unfold makeFunction at hmade
  obtain ⟨module, h₁, -, hmade⟩ := Run.bind_eq_done hmade
  cases hmade
  exact ⟨_, _, _, _, rfl, Heap.get?_add_self _ _, rfl, fun _ => rfl⟩

/-- What becomes of an attribute that the text of a class assigns. -/
structure AttributeOf (c : Source.ClassDef) (n : String) : Prop where
  /-- It is a field of the class and of those that inherit from it in the text. -/
  listed : ∀ classes start names, Source.Reaches classes start c →
    Source.fieldsOf classes start = .ok names → n ∈ names
  /-- It is a field of the class that was made from the text, and of those that inherit from it. -/
  discovered : ∀ h program k info v, h.classInfo? v = some info → v ∈ k.line.dropLast →
    classInBlock info.qualname "" program = some c.toStmt → n ∈ fieldsOf h program k
  /-- What a method of any class around the assignment stores is found again. -/
  stored : ∀ host s owner span e acc x h h₁ a cls fields, s.owner = some owner →
    evaluate host s e h = .done (.ref a) h₁ → h₁.get? a = some (.record cls fields) →
    Unclaimed h₁ cls (privateName (some owner) n) → HasRoom h₁ cls (privateName (some owner) n) →
    ∃ h₂, assign host s (.field span e n acc) x h = .done () h₂ ∧
      FoundAgain owner n a cls x fields h₂ ∧ ∀ m, Unclaimed h₂ cls m ↔ Unclaimed h₁ cls m

theorem attributeOf_of_assigns {c : Source.ClassDef} (hassigned : Assigns c n)
    (hn : ¬Source.IsDunder n) : AttributeOf c n where
  listed := fun _ _ _ hc hnames => mem_fields_of_assigns hc hassigned hn hnames
  discovered := fun _ _ _ _ _ hv hline htext => mem_discovered_of_assigns hv hline htext hassigned hn
  stored := by
    intro host s owner span e acc x h h₁ a cls fields hs he hr hu hroom
    have hhere : s.nameHere n = privateName (some owner) n := by
      rw [Scope.nameHere, hs]
    rw [← hhere] at hu hroom
    refine ⟨_, assign_attribute he hr hu hroom, foundAgain hn ?_, unclaimed_put_record hr⟩
    rw [hhere]
    exact Heap.get?_put_self hr

/-! ## Implementations -/

/-- How the mixin of a type calls an implementation, and how the type knows it. -/
structure CalledByMixin {α : Type} (T : TypeDecl α) (name : String) (d : Descriptor α) : Prop where
  text : d.implementationText = .ok (selfName ++ "." ++ calledName T.name name)
  agrees : privateName (some (mixinName T.name)) (calledName T.name name)
    = privateName (some T.name) name ↔ ("__".isPrefixOf name = true → ¬IsBlank T.name)
  known : writtenName T.name (privateName (some T.name) name) = name
    ↔ (IsPrivate name ∧ ¬IsBlank T.name) ∨ ¬WrittenOut T.name name

/-- An internal name with two underscores in front has none behind. -/
theorem isPrivate_of_privateName (hname : PrivateName name) (hpoint : '.' ∉ name.toList)
    (hmark : "__".isPrefixOf name = true) : IsPrivate name := by
  refine ⟨?_, hpoint⟩
  rw [isMarked, hmark, Bool.true_and, Bool.not_eq_true', ← Bool.not_eq_true]
  intro hends
  refine hname.plain ((exists_middle_iff hname.named).mpr ⟨?_, ?_⟩)
  · exact String.startsWith_string_iff.mp hmark
  · exact List.isSuffixOf_iff_suffix.mp hends

theorem calledByMixin_of_weaves {α : Type} {T : TypeDecl α} {c : Callable α}
    {invariants : List ParsedClause} {d : Descriptor α} (hw : Weaves c (some T) invariants d)
    (hrole : c.role ≠ .function) (hpoint : '.' ∉ c.name.toList) :
    CalledByMixin T c.name d := by
  obtain ⟨howner, hinternal⟩ := hw.owner
  obtain ⟨v, hv, hd⟩ := hw
  have ha := accepts_of_validateCallable hv
  have hplaced := placementFault?_eq_none.mp ha.placed
  have hrole' : d.role ≠ .function := by
    rw [(describes_of_describe hd).role, ha.declaration]
    exact hrole
  refine ⟨?_, calledName_agrees_iff fun hmark =>
    isPrivate_of_privateName hplaced.privateName hpoint hmark, writtenName_stored_iff⟩
  rw [Descriptor.implementationText, if_neg hrole', hinternal, howner, calledName]
  by_cases hmark : "__".isPrefixOf c.name = true
  · rw [if_pos hmark, if_pos hmark]
    rfl
  · rw [if_neg hmark, if_neg hmark]

/-- **ATTRIBUTES ARE FOUND AGAIN** under the names that a class assigns them by, unless the class
    changes these: a private name is then read under itself in memory, and under a name of the mixin's own
    in emitted text.  Methods store with the name of the class in whose body they are defined.
    Implementations are called by the names that their class stores them under, unless it
    has no name to put in front. -/
theorem attributes_found_again {α : Type} (C : Source.ClassDef) (s : Scope) (T : TypeDecl α) :
    (∀ n, Assigns C n → ¬Source.IsDunder n → AttributeOf C n) ∧
    (∀ head body defaults named hints h v h',
      makeFunction s head body defaults named hints h = .done v h' →
      ∃ b f scope locals, v = .ref b ∧ h'.get? b = some (.function f) ∧
        f.code = .block body scope locals ∧
        ∀ frame, (scope.inside frame locals).owner = s.owner) ∧
    (∀ c invariants d, Weaves c (some T) invariants d →
      c.role ≠ .function → '.' ∉ c.name.toList → CalledByMixin T c.name d) :=
  ⟨fun _ => attributeOf_of_assigns, fun _ _ _ _ _ _ _ _ => owner_of_makeFunction,
    fun _ _ _ => calledByMixin_of_weaves⟩

/-- A class with a method that assigns an attribute. -/
def opening (name : String) : Source.ClassDef :=
  ⟨⟨"Vault", [], [], []⟩,
    [.function
      { isAsync := false
        name := "_open"
        formals :=
          { positionalOnly := [], positional := [⟨nowhere, "self", none⟩], defaults := [],
            variadic := none, named := [], variadicNamed := none }
        decorators := []
        returns := none }
      [.assign [.field nowhere (nameAt selfName) name .store] (.constant nowhere (.int 10))]]⟩

/-- A type with a private method that has a postcondition, and with some fields. -/
def vault (fields : List String) (text : String) : TypeDecl Value.Datum where
  name := "Vault"
  fields := fields
  callables := [{ name := "__open", postconditions := [⟨text, "open"⟩] }]

/-- A scope in a class, or in none. -/
def vaultScope (owner : Option String) : Scope := { globals := 0, owner := owner }

/-- The names of the only member of the type, as far as it is accepted. -/
theorem exists_of_vault {fields captured : List String} {text : String}
    (hmade : describedMembers (vault fields text) (fun _ d => d.capturedFields)
      = [some captured]) :
    ∃ c invariants d, Weaves c (some (vault fields text)) invariants d ∧ c.name = "__open" ∧
      c.role = .method ∧ d.capturedFields = captured := by
  obtain ⟨c, hc, invariants, v, d, -, hv, hd, hcaptured⟩ := exists_of_describedMembers hmade
  obtain rfl := List.mem_singleton.mp hc
  exact ⟨_, invariants, d, ⟨v, hv, hd⟩, rfl, rfl, hcaptured⟩

/-- A public attribute is found again, and a private method is called by the name it is stored
    under. -/
theorem attributes_found_again_vault : AttributeOf (opening "total") "total" ∧
    ∃ c invariants d, Weaves c (some (vault ["total"] "total > 0")) invariants d ∧
      CalledByMixin (vault ["total"] "total > 0") c.name d ∧
      d.implementationText = .ok "self._Vault__open" := by
  have hassigned : Assigns (opening "total") "total" := assigns_iff.2 (by decide +kernel)
  have hdunder : ¬Source.IsDunder "total" := by
    unfold Source.IsDunder
    decide
  obtain ⟨hattribute, -, hmember⟩ :=
    attributes_found_again (opening "total") (vaultScope none) (vault ["total"] "total > 0")
  refine ⟨hattribute _ hassigned hdunder, ?_⟩
  have hmade : describedMembers (vault ["total"] "total > 0") (fun _ d => d.capturedFields)
      = [some []] := by decide +kernel
  obtain ⟨c, invariants, d, hw, hname, hrole, -⟩ := exists_of_vault hmade
  have hpoint : '.' ∉ c.name.toList := by
    rw [hname]
    decide
  have hcalled := hmember c invariants d hw (by rw [hrole]; decide) hpoint
  refine ⟨c, invariants, d, hw, hcalled, ?_⟩
  rw [hcalled.text, hname]
  decide +kernel

/-- An instance of a class without fields, with the name of the receiver of a method. -/
def vaultHeap : Heap :=
  ⟨#[.names [(selfName, .ref 1)], .record (.ref 2) [],
    .cls { name := "Vault", qualname := "Vault", bases := [.type .object],
           line := [.ref 2, .type .object], fields := [] }]⟩

/-- The heap after a method of the class has stored something under a private name. -/
def openedHeap : Heap :=
  vaultHeap.put 1 (.record (.ref 2) (Names.set [] "_Vault__total" (.int 10)))

theorem get?_vaultHeap : vaultHeap.get? 1 = some (.record (.ref 2) []) := rfl

theorem unclaimed_vaultHeap (hname : lineHasMethod [.ref 2, .type .object] name = false) :
    Unclaimed vaultHeap (.ref 2) name := .inl ⟨rfl, hname⟩

theorem hasRoom_vaultHeap (name : String) : HasRoom vaultHeap (.ref 2) name := by
  refine .inr ⟨Value.noConfusion, fun info hinfo => ?_⟩
  obtain rfl := Option.some.inj hinfo
  rfl

/-- The receiver is found wherever the scope stands. -/
theorem evaluate_receiver (owner : Option String)
    (hself : h.get? 0 = some (.names [(selfName, .ref 1)])) :
    evaluate host (vaultScope owner) (nameAt selfName) h = .done (.ref 1) h := by
  have hhere : (vaultScope owner).nameHere selfName = selfName :=
    (privateName_eq_iff unmarked_self).mpr rfl
  rw [nameAt, evaluate, hhere]
  show Comp.lookupGlobal (vaultScope owner) selfName h = _
  have hnames : Comp.namesAt (vaultScope owner).globals h = .done [(selfName, .ref 1)] h :=
    namesAt_done hself
  unfold Comp.lookupGlobal
  rw [bind_of_done hnames]
  rfl

/-- A private attribute is a field of the class and is captured, but is neither found in memory nor
    in the mixin once a method has stored it. -/
theorem attributes_found_again_fails :
    Source.fieldsOf [opening "__total"] (opening "__total") = .ok ["__total"] ∧
    (∃ c invariants d, Weaves c (some (vault ["__total"] "old(__total) > 0")) invariants d ∧
      d.capturedFields = ["__total"]) ∧
    ∃ h, ∀ host, assign host (vaultScope (some "Vault"))
        (.field nowhere (nameAt selfName) "__total" .store) (.int 10) vaultHeap = .done () h ∧
      (∀ d implementation activation, activation.receiver? = some (.ref 1) →
        (surroundings host d implementation).preserve activation "__total" h
          = .thrown (.mistake .noAttribute) h) ∧
      evaluate host (vaultScope (some (mixinName "Vault")))
        (.field nowhere (nameAt selfName) "__total" .load) h = .thrown (.mistake .noAttribute) h := by
  have hfields : Source.fieldsOf [opening "__total"] (opening "__total") = .ok ["__total"] := by decide +kernel
  have hdunder : ¬Source.IsDunder "__total" := by
    unfold Source.IsDunder
    decide
  have hprivate : IsPrivate "__total" := by decide +kernel
  have hstored : privateName (some "Vault") "__total" = "_Vault__total" := by
    rw [privateName_some, if_pos ⟨hprivate, by decide⟩]
    decide +kernel
  have hmixin : privateName (some (mixinName "Vault")) "__total" = "_VaultContracts__total" := by
    rw [privateName_some, if_pos ⟨hprivate, not_isBlank_mixinName _⟩]
    decide +kernel
  have hmade : describedMembers (vault ["__total"] "old(__total) > 0")
      (fun _ d => d.capturedFields) = [some ["__total"]] := by decide +kernel
  obtain ⟨c, invariants, d, hw, -, -, hcaptured⟩ := exists_of_vault hmade
  have hunclaimed (name : String) (hname : lineHasMethod [.ref 2, .type .object] name = false) :
      Unclaimed openedHeap (.ref 2) name :=
    (unclaimed_put_record get?_vaultHeap name).mpr (unclaimed_vaultHeap hname)
  have hfound : FoundAgain "Vault" "__total" 1 (.ref 2) (.int 10) [] openedHeap := by
    refine foundAgain hdunder ?_
    rw [hstored]
    exact Heap.get?_put_self get?_vaultHeap
  refine ⟨hfields, ⟨c, invariants, d, hw, hcaptured⟩, openedHeap, fun host =>
    ⟨?_, fun d implementation activation hreceiver => ?_, ?_⟩⟩
  · have hhere : (vaultScope (some "Vault")).nameHere "__total" = "_Vault__total" := hstored
    rw [assign_attribute (evaluate_receiver _ rfl) get?_vaultHeap, hhere]
    · rfl
    · exact hhere.symm ▸ unclaimed_vaultHeap (by decide +kernel)
    · exact hasRoom_vaultHeap _
  · rw [hfound.captured host d implementation activation hreceiver
      (hunclaimed _ (by decide +kernel)), if_neg (by decide +kernel)]
    rfl
  · rw [hfound.inMixin host _ "Vault" _ _ _ rfl (evaluate_receiver _ rfl)
      (hmixin.symm ▸ hunclaimed _ (by decide +kernel)), if_neg (by decide +kernel), hmixin]
    rfl

end Covenant.Machine
