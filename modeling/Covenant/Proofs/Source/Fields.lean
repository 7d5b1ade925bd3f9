import Covenant.Source.Reader
import Covenant.Proofs.Tree.StatementMarks
import Covenant.Proofs.Weaving.Outcome
import Mathlib.Data.List.Nodup

/-! # Fields — the search through the bases is complete

    A class has the fields that it declares and those of its bases in the same
    text.  `Searches` is the search without a bound on its depth: it goes
    through the bases from left to right, skips what it has seen, and what one
    base has seen the next one skips as well.

    * Every search ends, and has one outcome only (`searches_searchFields`,
      `Searches.unique`): each visit adds a class of the text to those seen.
    * `Covers` is what a stretch of a search preserves: the classes seen in it
      are reached from the start, and the bases of each of them are seen by
      the end of the stretch.  So nothing is lost where a class is skipped:
      the stretch that saw it first has its fields, or is still going on
      further up, and whole searches start with nothing seen.

    The fields found are then those declared by some class that is reached. -/

namespace Covenant.Source

open Declaration Covenant.Tree Value

variable {classes : List ClassDef} {start : ClassDef}

/-- What the parts of a list give together is what each of them gives. -/
theorem mem_flatten_of_mapM {α β ε : Type} {f : α → Except ε (List β)} {xs : List α}
    {yss : List (List β)} (h : xs.mapM f = .ok yss) (y : β) :
    y ∈ yss.flatten ↔ ∃ x ∈ xs, ∃ ys, f x = .ok ys ∧ y ∈ ys := by
  have hall := mapM_eq_ok.mp h
  clear h
  induction hall with
  | nil => simp
  | @cons x ys xs yss hx _ ih =>
    simp only [List.flatten_cons, List.mem_append, ih, List.mem_cons, or_and_right, exists_or,
      exists_eq_left, hx, Except.ok.injEq, exists_eq_left']

/-- A computation that only shapes its result succeeds when its source does. -/
theorem exists_bind_pure {α β ε : Type} {x : Except ε α} {f : α → β} :
    (∃ b, (x >>= fun a => pure (f a)) = .ok b) ↔ ∃ a, x = .ok a := by
  constructor
  · rintro ⟨b, h⟩
    obtain ⟨a, ha, -⟩ := bind_eq_ok.mp h
    exact ⟨a, ha⟩
  · rintro ⟨a, ha⟩
    exact ⟨f a, bind_eq_ok.mpr ⟨a, ha, rfl⟩⟩

/-! ## What a class declares -/

/-- Whether a name is among the slots that a value lists: it is the one text, or an item. -/
def IsSlot (value : Expr) (n : String) : Prop :=
  ∃ d, literal? value = some d ∧
    (d = .str n ∨ (∀ s, d ≠ .str s) ∧ ∃ items, d.items? = some items ∧ .str n ∈ items)

/-- Whether a literal that is given for the slots is a text or has items. -/
def ClassDef.SlotsFit (c : ClassDef) : Prop :=
  ∀ targets value s a, .assign targets value ∈ c.body → .name s "__slots__" a ∈ targets →
    ∀ d, literal? value = some d → ∃ items, d.items? = some items

/-- The ways in which a statement in the body of a class declares a field. -/
inductive DeclaredBy (n : String) : Stmt → Prop where
  | hinted (s : Span) (a : Access) (hint : Expr) (value : Option Expr) :
      DeclaredBy n (.annotated (.name s n a) hint value)
  | assignment (targets : List Expr) (value : Expr) (s : Span) (a : Access) :
      .name s n a ∈ targets → n ≠ "__slots__" → DeclaredBy n (.assign targets value)
  | slot (targets : List Expr) (value : Expr) (s : Span) (a : Access) :
      .name s "__slots__" a ∈ targets → IsSlot value n → DeclaredBy n (.assign targets value)
  | property (h : FunctionHead) (body : List Stmt) (d : Expr) : d ∈ h.decorators →
      markerName d = some "property" ∨ markerName d = some "cached_property" → h.name = n →
      DeclaredBy n (.function h body)

/-- A class declares a field by a statement of its body, or by an assignment to the field of
    the receiver at any depth. -/
inductive ClassDef.Declares (c : ClassDef) (n : String) : Prop where
  | statement (stmt : Stmt) : stmt ∈ c.body → DeclaredBy n stmt → c.Declares n
  | receiver (s r : Span) (a : Access) :
      .field s (.name r "self" a) n .store ∈ c.toStmt.nodes → c.Declares n

theorem slotNames_eq_ok {value : Expr} {ns : List String} (h : slotNames value = .ok ns)
    (n : String) : n ∈ ns ↔ IsSlot value n := by
  unfold slotNames at h
  unfold IsSlot
  split at h
  next hnone =>
    obtain rfl : [] = ns := Except.ok.inj h
    simp [hnone]
  next s hs =>
    obtain rfl : [s] = ns := Except.ok.inj h
    rw [List.mem_singleton]
    constructor
    · rintro rfl
      exact ⟨_, hs, .inl rfl⟩
    · rintro ⟨d, hd, rfl | ⟨hd', -⟩⟩
      · rw [hs] at hd
        exact (Datum.str.inj (Option.some.inj hd)).symm
      · exact absurd (Option.some.inj (hd.symm.trans hs)) (hd' s)
  next d hstr hd =>
    split at h
    next items hitems =>
      obtain rfl := Except.ok.inj h
      rw [List.mem_filterMap]
      constructor
      · rintro ⟨x, hx, hn⟩
        have hx' : x = .str n := by
          cases x with
          | str t => exact congrArg Datum.str (Option.some.inj hn)
          | _ => exact nomatch hn
        exact ⟨d, hd, .inr ⟨fun s hs => hstr s hs, items, hitems, hx' ▸ hx⟩⟩
      · rintro ⟨d', hd', rfl | ⟨-, items', hitems', hn⟩⟩
        · exact absurd (Option.some.inj (hd.symm.trans hd')) (hstr n)
        · obtain rfl := Option.some.inj (hd.symm.trans hd')
          obtain rfl := Option.some.inj (hitems.symm.trans hitems')
          exact ⟨_, hn, rfl⟩
    next => exact nomatch h

/-- The slots can be told unless they are a literal without items. -/
theorem exists_slotNames {value : Expr} :
    (∃ ns, slotNames value = .ok ns) ↔
      ∀ d, literal? value = some d → ∃ items, d.items? = some items := by
  unfold slotNames
  split
  next hnone => simp [hnone]
  next s hs => simp [hs, Datum.items?]
  next d _ hd =>
    split
    next items hitems => simp [hd, hitems]
    next hitems => simp [hd, hitems]

/-- The fields that one target declares: the slots of the value, or its own name. -/
theorem mem_targetFields {value target : Expr} {ns : List String} {n : String}
    (h : targetFields value target = .ok ns) :
    n ∈ ns ↔ (∃ s a, target = .name s "__slots__" a ∧ IsSlot value n) ∨
      ∃ s a, target = .name s n a ∧ n ≠ "__slots__" := by
  unfold targetFields at h
  split at h
  next =>
    rw [slotNames_eq_ok h n]
    grind
  next hslots =>
    obtain rfl := Except.ok.inj h
    rw [List.mem_singleton]
    constructor
    · rintro rfl
      exact .inr ⟨_, _, rfl, hslots⟩
    · rintro (⟨s, a, h, -⟩ | ⟨s, a, h, -⟩)
      · cases h
        exact absurd rfl hslots
      · cases h
        rfl
  next hname =>
    obtain rfl := Except.ok.inj h
    constructor
    · exact fun h => absurd h List.not_mem_nil
    · rintro (⟨s, a, rfl, -⟩ | ⟨s, a, rfl, -⟩) <;> exact absurd rfl (hname _ _ _)

/-- A target declares fields unless it is the slots and these cannot be told. -/
theorem exists_targetFields {value target : Expr} :
    (∃ ns, targetFields value target = .ok ns) ↔
      ((∃ s a, target = .name s "__slots__" a) → ∃ ns, slotNames value = .ok ns) := by
  unfold targetFields
  split
  next => simp
  next hslots => grind
  next hname => grind

theorem mem_statementFields {stmt : Stmt} {ns : List String} {n : String}
    (h : statementFields stmt = .ok ns) : n ∈ ns ↔ DeclaredBy n stmt := by
  unfold statementFields at h
  split at h
  next s id a hint value =>
    obtain rfl := Except.ok.inj h
    rw [List.mem_singleton]
    constructor
    · rintro rfl
      exact .hinted s a hint value
    · rintro ⟨⟩
      rfl
  next targets value =>
    obtain ⟨found, hfound, hns⟩ := bind_eq_ok.mp h
    obtain rfl := Except.ok.inj hns
    rw [mem_flatten_of_mapM hfound]
    constructor
    · rintro ⟨t, ht, ns, hns, hn⟩
      rcases (mem_targetFields hns).mp hn with ⟨s, a, rfl, hslot⟩ | ⟨s, a, rfl, hne⟩
      · exact .slot targets value s a ht hslot
      · exact .assignment targets value s a ht hne
    · have hfields := mapM_ok_iff.mp ⟨found, hfound⟩
      rintro (_ | ⟨_, _, s, a, ht, hne⟩ | ⟨_, _, s, a, ht, hslot⟩)
      · obtain ⟨ns, hns⟩ := hfields _ ht
        exact ⟨_, ht, ns, hns, (mem_targetFields hns).mpr (.inr ⟨s, a, rfl, hne⟩)⟩
      · obtain ⟨ns, hns⟩ := hfields _ ht
        exact ⟨_, ht, ns, hns, (mem_targetFields hns).mpr (.inl ⟨s, a, rfl, hslot⟩)⟩
  next head body =>
    obtain rfl := Except.ok.inj h
    have hmarked : head.decorators.any (fun d =>
        markerName d == some "property" || markerName d == some "cached_property") = true ↔
        ∃ d ∈ head.decorators,
          markerName d = some "property" ∨ markerName d = some "cached_property" := by
      simp only [List.any_eq_true, Bool.or_eq_true, beq_iff_eq]
    rw [List.mem_ite_nil_right, List.mem_singleton, hmarked]
    constructor
    · rintro ⟨⟨d, hd, hmarker⟩, rfl⟩
      exact .property head body d hd hmarker rfl
    · rintro (_ | _ | _ | ⟨_, _, d, hd, hmarker, rfl⟩)
      exact ⟨⟨d, hd, hmarker⟩, rfl⟩
  next hannotated hassign hfunction =>
    obtain rfl := Except.ok.inj h
    refine ⟨fun h => absurd h List.not_mem_nil, fun h => ?_⟩
    cases h with
    | hinted s a hint value => exact absurd rfl (hannotated _ _ _ _ _)
    | assignment targets value => exact absurd rfl (hassign _ _)
    | slot targets value => exact absurd rfl (hassign _ _)
    | property head body => exact absurd rfl (hfunction _ _)

/-- A statement's fields can be told unless it assigns slots that cannot. -/
theorem exists_statementFields {stmt : Stmt} :
    (∃ ns, statementFields stmt = .ok ns) ↔
      ∀ targets value s a, stmt = .assign targets value → .name s "__slots__" a ∈ targets →
        ∀ d, literal? value = some d → ∃ items, d.items? = some items := by
  unfold statementFields
  split
  next => simp
  next targets value =>
    rw [exists_bind_pure, mapM_ok_iff]
    simp only [exists_targetFields, exists_slotNames]
    grind
  next => simp
  next hannotated hassign hfunction =>
    exact ⟨fun _ targets value _ _ h => absurd h (hassign _ _), fun _ => ⟨[], rfl⟩⟩

theorem assignedField?_eq_some {e : Expr} {n : String} :
    assignedField? e = some n ↔ ∃ s r a, e = .field s (.name r "self" a) n .store := by
  unfold assignedField?
  split
  next s r id a attr =>
    rw [Option.ite_none_right_eq_some, Option.some.injEq]
    constructor
    · rintro ⟨rfl, rfl⟩
      exact ⟨s, r, a, rfl⟩
    · rintro ⟨s', r', a', h⟩
      cases h
      exact ⟨rfl, rfl⟩
  next hother =>
    constructor
    · exact fun h => nomatch h
    · rintro ⟨s, r, a, rfl⟩
      exact absurd rfl (hother _ _ _ _ _)

/-- The fields of a class that are found are those it declares. -/
theorem mem_declaredFields {c : ClassDef} {own : List String} (h : declaredFields c = .ok own)
    (n : String) : n ∈ own ↔ c.Declares n := by
  obtain ⟨found, hfound, hown⟩ := bind_eq_ok.mp h
  obtain rfl := Except.ok.inj hown
  rw [List.mem_append, mem_flatten_of_mapM hfound, mem_statement_marks]
  constructor
  · rintro (⟨stmt, hstmt, ns, hns, hn⟩ | ⟨e, he, hn⟩)
    · exact .statement stmt hstmt ((mem_statementFields hns).mp hn)
    · obtain ⟨s, r, a, rfl⟩ := assignedField?_eq_some.1 hn
      exact .receiver s r a he
  · rintro (⟨stmt, hstmt, hn⟩ | ⟨s, r, a, he⟩)
    · obtain ⟨ns, hns⟩ := mapM_ok_iff.mp ⟨found, hfound⟩ stmt hstmt
      exact .inl ⟨stmt, hstmt, ns, hns, (mem_statementFields hns).mpr hn⟩
    · exact .inr ⟨_, he, assignedField?_eq_some.2 ⟨s, r, a, rfl⟩⟩

/-- The fields of a class can be told exactly when its slots fit. -/
theorem exists_declaredFields {c : ClassDef} :
    (∃ own, declaredFields c = .ok own) ↔ c.SlotsFit := by
  unfold declaredFields
  rw [exists_bind_pure, mapM_ok_iff]
  simp only [exists_statementFields, ClassDef.SlotsFit]
  grind

/-! ## Adding fields -/

/-- A name that starts and ends with two underscores. -/
def IsDunder (n : String) : Prop := "__".toList <+: n.toList ∧ "__".toList <:+ n.toList

theorem isReserved_iff {n : String} : isReserved n = true ↔ IsDunder n := by
  unfold isReserved IsDunder
  rw [Bool.and_eq_true, List.isSuffixOf_iff_suffix]
  exact and_congr_left' String.startsWith_string_iff

theorem mem_addFields {names more : List String} {n : String} :
    n ∈ addFields names more ↔ n ∈ names ∨ n ∈ more ∧ ¬IsDunder n := by
  unfold addFields
  induction more generalizing names with
  | nil => simp
  | cons m more ih =>
    rw [List.foldl_cons, ih, List.mem_cons]
    split
    next h =>
      rw [Bool.or_eq_true, List.contains_iff_mem, isReserved_iff] at h
      grind
    next h =>
      rw [Bool.or_eq_true, List.contains_iff_mem, isReserved_iff] at h
      grind

theorem nodup_addFields {names more : List String} (h : names.Nodup) :
    (addFields names more).Nodup := by
  unfold addFields
  induction more generalizing names with
  | nil => exact h
  | cons m more ih =>
    rw [List.foldl_cons]
    refine ih ?_
    split
    next => exact h
    next hnew =>
      rw [Bool.or_eq_true, List.contains_iff_mem, not_or] at hnew
      exact List.concat_eq_append ▸ h.concat hnew.1

/-! ## The classes that are reached -/

/-- The last class of its name in a text. -/
def LastOfName (classes : List ClassDef) (name : String) (c : ClassDef) : Prop :=
  ∃ before after, classes = before ++ c :: after ∧ c.name = name ∧ ∀ d ∈ after, d.name ≠ name

theorem classNamed_eq_some {name : String} {c : ClassDef} :
    classNamed classes name = some c ↔ LastOfName classes name c := by
  unfold classNamed LastOfName
  rw [List.find?_eq_some_iff_append]
  constructor
  · rintro ⟨hname, after, before, hsplit, hafter⟩
    refine ⟨before.reverse, after.reverse, ?_, beq_iff_eq.mp hname, fun d hd => ?_⟩
    · rw [← List.reverse_reverse classes, hsplit]
      simp
    · simpa using hafter d (List.mem_reverse.mp hd)
  · rintro ⟨before, after, rfl, hname, hafter⟩
    refine ⟨beq_iff_eq.mpr hname, after.reverse, before.reverse, by simp, fun d hd => ?_⟩
    simpa using hafter d (List.mem_reverse.mp hd)

theorem LastOfName.mem {name : String} {c : ClassDef} (h : LastOfName classes name c) :
    c ∈ classes := by
  obtain ⟨before, after, rfl, -⟩ := h
  exact List.mem_append_right _ List.mem_cons_self

theorem LastOfName.unique {name : String} {c d : ClassDef} (hc : LastOfName classes name c)
    (hd : LastOfName classes name d) : c = d :=
  Option.some.inj ((classNamed_eq_some.2 hc).symm.trans (classNamed_eq_some.2 hd))

/-- What the name of a base stands for in a search: the class it starts at for its own name,
    and the last class of any other name. -/
inductive Means (classes : List ClassDef) (start : ClassDef) : String → ClassDef → Prop where
  | start : Means classes start start.name start
  | last (name : String) (c : ClassDef) :
      name ≠ start.name → LastOfName classes name c → Means classes start name c

/-- The classes that are reached through the bases that are given by names. -/
inductive Reaches (classes : List ClassDef) (start : ClassDef) : ClassDef → Prop where
  | start : Reaches classes start start
  | base (c b : ClassDef) (s : Span) (name : String) (a : Access) : Reaches classes start c →
      .name s name a ∈ c.head.bases → Means classes start name b → Reaches classes start b

namespace Means

theorem name_eq {name : String} {c : ClassDef} (h : Means classes start name c) :
    c.name = name := by
  cases h with
  | start => rfl
  | last _ _ _ h =>
    obtain ⟨_, _, _, hname, _⟩ := h
    exact hname

theorem unique {name : String} {c d : ClassDef} (hc : Means classes start name c)
    (hd : Means classes start name d) : c = d := by
  cases hc with
  | start =>
    cases hd with
    | start => rfl
    | last _ _ hne _ => exact absurd rfl hne
  | last _ _ hne hc =>
    cases hd with
    | start => exact absurd rfl hne
    | last _ _ _ hd => exact hc.unique hd

end Means

theorem Reaches.mem {c : ClassDef} (hstart : start ∈ classes) (h : Reaches classes start c) :
    c ∈ classes := by
  cases h with
  | start => exact hstart
  | base _ _ _ _ _ _ _ hmeans =>
    cases hmeans with
    | start => exact hstart
    | last _ _ _ hlast => exact hlast.mem

/-- The last class of a name other than that of the start is what the name stands for. -/
theorem means_of_visit {seen : List String} {base : String} {b : ClassDef}
    (hb : LastOfName classes base b) (hnew : base ∉ seen) (hstart : start.name ∈ seen) :
    Means classes start base b :=
  .last base b (fun h => hnew (h ▸ hstart)) hb

theorem mem_baseNames {c : ClassDef} {name : String} :
    name ∈ c.baseNames ↔ ∃ s a, .name s name a ∈ c.head.bases := by
  unfold ClassDef.baseNames
  rw [List.mem_filterMap]
  constructor
  · rintro ⟨e, he, hname⟩
    cases e with
    | name s id a =>
      obtain rfl := Option.some.inj hname
      exact ⟨s, a, he⟩
    | _ => exact nomatch hname
  · rintro ⟨s, a, he⟩
    exact ⟨_, he, rfl⟩

/-! ## The search without a bound -/

mutual

/-- A search of a class that has ended: the bases are searched first, then its own fields
    are added. -/
inductive Searches (classes : List ClassDef) : List String → ClassDef → Found → Prop where
  | found {seen : List String} {c : ClassDef} {names seen' own : List String} :
      SearchesBases classes c.baseNames ([], c.name :: seen) (.ok (names, seen')) →
      declaredFields c = .ok own → Searches classes seen c (.ok (addFields names own, seen'))
  | own {seen : List String} {c : ClassDef} {found : List String × List String}
      {fault : FieldFault} :
      SearchesBases classes c.baseNames ([], c.name :: seen) (.ok found) →
      declaredFields c = .error fault → Searches classes seen c (.error fault)
  | bases {seen : List String} {c : ClassDef} {fault : FieldFault} :
      SearchesBases classes c.baseNames ([], c.name :: seen) (.error fault) →
      Searches classes seen c (.error fault)

/-- A search of bases that has ended, with the names found and the classes seen before it. -/
inductive SearchesBases (classes : List ClassDef) :
    List String → List String × List String → Found → Prop where
  | done {acc : List String × List String} : SearchesBases classes [] acc (.ok acc)
  /-- No class of the text, or one that was seen before. -/
  | skip {base : String} {bases : List String} {acc : List String × List String} {out : Found} :
      (∀ b, LastOfName classes base b → base ∈ acc.2) → SearchesBases classes bases acc out →
      SearchesBases classes (base :: bases) acc out
  | visit {base : String} {bases names seen found seen' : List String} {b : ClassDef}
      {out : Found} :
      LastOfName classes base b → base ∉ seen → Searches classes seen b (.ok (found, seen')) →
      SearchesBases classes bases (addFields names found, seen') out →
      SearchesBases classes (base :: bases) (names, seen) out
  | fails {base : String} {bases names seen : List String} {b : ClassDef} {fault : FieldFault} :
      LastOfName classes base b → base ∉ seen → Searches classes seen b (.error fault) →
      SearchesBases classes (base :: bases) (names, seen) (.error fault)

end

mutual

theorem Searches.unique {seen : List String} {c : ClassDef} {out out' : Found} :
    Searches classes seen c out → Searches classes seen c out' → out = out'
  | .found hb ho, .found hb' ho' => by
      obtain ⟨rfl, rfl⟩ := Prod.mk.inj (Except.ok.inj (hb.unique hb'))
      obtain rfl := Except.ok.inj (ho.symm.trans ho')
      rfl
  | .found _ ho, .own _ ho' => nomatch ho.symm.trans ho'
  | .found hb _, .bases hb' => nomatch hb.unique hb'
  | .own _ ho, .found _ ho' => nomatch ho.symm.trans ho'
  | .own _ ho, .own _ ho' => congrArg Except.error (Except.error.inj (ho.symm.trans ho'))
  | .own hb _, .bases hb' => nomatch hb.unique hb'
  | .bases hb, .found hb' _ => nomatch hb.unique hb'
  | .bases hb, .own hb' _ => nomatch hb.unique hb'
  | .bases hb, .bases hb' => congrArg Except.error (Except.error.inj (hb.unique hb'))

theorem SearchesBases.unique {bases : List String} {acc : List String × List String}
    {out out' : Found} :
    SearchesBases classes bases acc out → SearchesBases classes bases acc out' → out = out'
  | .done, .done => rfl
  | .skip _ h, .skip _ h' => h.unique h'
  | .skip hs _, .visit hb hnew _ _ => absurd (hs _ hb) hnew
  | .skip hs _, .fails hb hnew _ => absurd (hs _ hb) hnew
  | .visit hb hnew _ _, .skip hs _ => absurd (hs _ hb) hnew
  | .visit hb _ hv h, .visit hb' _ hv' h' => by
      obtain rfl := hb.unique hb'
      obtain ⟨rfl, rfl⟩ := Prod.mk.inj (Except.ok.inj (hv.unique hv'))
      exact h.unique h'
  | .visit hb _ hv _, .fails hb' _ hv' => by
      obtain rfl := hb.unique hb'
      exact nomatch hv.unique hv'
  | .fails hb hnew _, .skip hs _ => absurd (hs _ hb) hnew
  | .fails hb _ hv, .visit hb' _ hv' _ => by
      obtain rfl := hb.unique hb'
      exact nomatch hv.unique hv'
  | .fails hb _ hv, .fails hb' _ hv' => by
      obtain rfl := hb.unique hb'
      exact congrArg Except.error (Except.error.inj (hv.unique hv'))

end

/-! ## Every search ends -/

/-- How many classes of a text have not been seen. -/
def unseen (classes : List ClassDef) (seen : List String) : Nat :=
  classes.countP fun c => decide (c.name ∉ seen)

theorem unseen_le_length (seen : List String) : unseen classes seen ≤ classes.length :=
  List.countP_le_length

theorem unseen_mono {seen more : List String} (h : seen ⊆ more) :
    unseen classes more ≤ unseen classes seen := by
  refine List.countP_mono_left fun c _ hc => ?_
  rw [decide_eq_true_iff] at hc ⊢
  exact fun hseen => hc (h hseen)

/-- Seeing a class for the first time leaves fewer to be seen. -/
theorem unseen_lt {seen : List String} {b : ClassDef} (hb : b ∈ classes) (hnew : b.name ∉ seen) :
    unseen classes (b.name :: seen) < unseen classes seen := by
  unfold unseen
  induction classes with
  | nil => exact nomatch hb
  | cons c cs ih =>
    have hmono : unseen cs (b.name :: seen) ≤ unseen cs seen :=
      unseen_mono (List.subset_cons_self _ _)
    unfold unseen at hmono
    rw [List.countP_cons, List.countP_cons]
    rcases List.mem_cons.mp hb with rfl | hb
    · rw [if_neg (by simp), if_pos (by simp [hnew])]
      omega
    · have hless := ih hb
      by_cases hc : c.name ∈ b.name :: seen
      · rw [if_neg (by simp only [decide_eq_true_iff]; exact fun h => h hc)]
        omega
      · have hunseen : c.name ∉ seen := fun h => hc (List.mem_cons_of_mem _ h)
        rw [if_pos (decide_eq_true hc), if_pos (decide_eq_true hunseen)]
        omega

mutual

/-- What has been seen stays seen. -/
theorem Searches.grows {seen : List String} {c : ClassDef} {out : Found} :
    Searches classes seen c out → ∀ found, out = .ok found → c.name :: seen ⊆ found.2
  | .found hb _, _, h => by
      have hseen := hb.grows _ rfl
      obtain rfl := Except.ok.inj h
      exact hseen
  | .own _ _, _, h => nomatch h
  | .bases _, _, h => nomatch h

theorem SearchesBases.grows {bases : List String} {acc : List String × List String}
    {out : Found} : SearchesBases classes bases acc out → ∀ found, out = .ok found →
      acc.2 ⊆ found.2
  | .done, _, rfl => List.Subset.refl _
  | .skip _ h, found, hout => h.grows found hout
  | .visit _ _ hv h, found, hout =>
      List.Subset.trans (List.subset_cons_self _ _)
        (List.Subset.trans (hv.grows _ rfl) (h.grows found hout))
  | .fails _ _ _, _, h => nomatch h

end

/-- One step through the bases with a bound on the depth of the visits. -/
def searchBase (classes : List ClassDef) (fuel : Nat) (acc : List String × List String)
    (base : String) : Found :=
  match classNamed classes base with
  | some b =>
    if acc.2.contains base then pure acc
    else do
      let (found, seen) ← searchFields classes fuel acc.2 b
      pure (addFields acc.1 found, seen)
  | none => pure acc

theorem searchFields_succ (fuel : Nat) (seen : List String) (c : ClassDef) :
    searchFields classes (fuel + 1) seen c =
      (c.baseNames.foldlM (searchBase classes fuel) ([], c.name :: seen)).bind fun found =>
        (declaredFields c).bind fun own => .ok (addFields found.1 own, found.2) :=
  rfl

theorem searchesBases_foldlM {fuel : Nat}
    (ih : ∀ seen b, b ∈ classes → unseen classes (b.name :: seen) < fuel →
      Searches classes seen b (searchFields classes fuel seen b))
    (bases : List String) (acc : List String × List String) (hacc : unseen classes acc.2 ≤ fuel) :
    SearchesBases classes bases acc (bases.foldlM (searchBase classes fuel) acc) := by
  induction bases generalizing acc with
  | nil => exact .done
  | cons base bases ihb =>
    rw [List.foldlM_cons]
    unfold searchBase
    cases hnamed : classNamed classes base with
    | none =>
      refine .skip (fun b hb => ?_) (ihb acc hacc)
      exact nomatch hnamed.symm.trans (classNamed_eq_some.2 hb)
    | some b =>
      have hb := classNamed_eq_some.1 hnamed
      by_cases hseen : base ∈ acc.2
      · simp only [if_pos (List.contains_iff_mem.mpr hseen)]
        exact .skip (fun _ _ => hseen) (ihb acc hacc)
      · simp only [if_neg (mt List.contains_iff_mem.mp hseen)]
        obtain ⟨names, seen⟩ := acc
        have hname : b.name = base := by
          obtain ⟨_, _, _, hname, _⟩ := hb
          exact hname
        have hvisit := ih seen b hb.mem
          (Nat.lt_of_lt_of_le (unseen_lt hb.mem (hname ▸ hseen)) hacc)
        cases hfound : searchFields classes fuel seen b with
        | error fault => exact .fails hb hseen (hfound ▸ hvisit)
        | ok found =>
          rw [hfound] at hvisit
          have hgrows : seen ⊆ found.2 :=
            List.Subset.trans (List.subset_cons_self _ _) (hvisit.grows found rfl)
          exact .visit hb hseen hvisit (ihb _ (Nat.le_trans (unseen_mono hgrows) hacc))

/-- A bound above the number of classes that are not seen is none: the search ends by itself. -/
theorem searches_searchFields (fuel : Nat) (seen : List String) (c : ClassDef)
    (h : unseen classes (c.name :: seen) < fuel) :
    Searches classes seen c (searchFields classes fuel seen c) := by
  induction fuel generalizing seen c with
  | zero => exact absurd h (Nat.not_lt_zero _)
  | succ fuel ih =>
    have hbases := searchesBases_foldlM (fun seen b _ => ih seen b) c.baseNames
      ([], c.name :: seen) (Nat.lt_succ_iff.mp h)
    rw [searchFields_succ]
    cases hfound : c.baseNames.foldlM (searchBase classes fuel) ([], c.name :: seen) with
    | error fault => exact .bases (hfound ▸ hbases)
    | ok found =>
      rw [hfound] at hbases
      cases hown : declaredFields c with
      | error fault => exact .own hbases hown
      | ok own => exact .found hbases hown

/-! ## What a search covers -/

/-- A class that a stretch of a search has seen and that was not seen before it. -/
def Met (classes : List ClassDef) (start : ClassDef) (seen seen' : List String)
    (c : ClassDef) : Prop :=
  Means classes start c.name c ∧ c.name ∈ seen' ∧ c.name ∉ seen

theorem met_append {seen mid seen' : List String} (h : seen ⊆ mid) (h' : mid ⊆ seen')
    {c : ClassDef} : Met classes start seen seen' c ↔
      Met classes start seen mid c ∨ Met classes start mid seen' c := by
  unfold Met
  constructor
  · rintro ⟨hmeans, hseen', hseen⟩
    by_cases hmid : c.name ∈ mid
    · exact .inl ⟨hmeans, hmid, hseen⟩
    · exact .inr ⟨hmeans, hseen', hmid⟩
  · rintro (⟨hmeans, hmid, hseen⟩ | ⟨hmeans, hseen', hmid⟩)
    · exact ⟨hmeans, h' hmid, hseen⟩
    · exact ⟨hmeans, hseen', fun hseen => hmid (h hseen)⟩

/-- What a stretch of a search has preserved when it ends with `found`, from the names
    `before` and the classes `seen`: those it met are reached from the start, the bases of each
    have been seen, and their fields are what was added. -/
structure Covers (classes : List ClassDef) (start : ClassDef) (seen before : List String)
    (found : List String × List String) : Prop where
  grows : seen ⊆ found.2
  reaches : ∀ c, Met classes start seen found.2 c → Reaches classes start c
  fits : ∀ c, Met classes start seen found.2 c → c.SlotsFit
  closed : ∀ c, Met classes start seen found.2 c → ∀ base ∈ c.baseNames, ∀ b,
    LastOfName classes base b → base ∈ found.2
  names : ∀ n, n ∈ found.1 ↔ n ∈ before ∨
    ¬IsDunder n ∧ ∃ c, Met classes start seen found.2 c ∧ c.Declares n
  nodup : before.Nodup → found.1.Nodup

namespace Covers

theorem refl (found : List String × List String) :
    Covers classes start found.2 found.1 found where
  grows := List.Subset.refl _
  reaches := fun _ h => absurd h.2.1 h.2.2
  fits := fun _ h => absurd h.2.1 h.2.2
  closed := fun _ h => absurd h.2.1 h.2.2
  names := fun n => by
    refine ⟨.inl, ?_⟩
    rintro (hn | ⟨-, c, hc, -⟩)
    · exact hn
    · exact absurd hc.2.1 hc.2.2
  nodup := id

/-- One stretch after another. -/
theorem trans {seen before : List String} {mid found : List String × List String}
    (h : Covers classes start seen before mid) (h' : Covers classes start mid.2 mid.1 found) :
    Covers classes start seen before found where
  grows := List.Subset.trans h.grows h'.grows
  reaches := fun c hc => ((met_append h.grows h'.grows).mp hc).elim (h.reaches c) (h'.reaches c)
  fits := fun c hc => ((met_append h.grows h'.grows).mp hc).elim (h.fits c) (h'.fits c)
  closed := fun c hc base hbase b hb => by
    rcases (met_append h.grows h'.grows).mp hc with hc | hc
    · exact h'.grows (h.closed c hc base hbase b hb)
    · exact h'.closed c hc base hbase b hb
  names := fun n => by
    rw [h'.names, h.names]
    simp only [met_append h.grows h'.grows, or_and_right, exists_or]
    grind
  nodup := fun hbefore => h'.nodup (h.nodup hbefore)

/-- What was found from nothing is added to other names. -/
theorem added {seen names found seen' : List String}
    (h : Covers classes start seen [] (found, seen')) :
    Covers classes start seen names (addFields names found, seen') where
  grows := h.grows
  reaches := h.reaches
  fits := h.fits
  closed := h.closed
  names := fun n => by
    rw [mem_addFields, h.names]
    grind
  nodup := nodup_addFields

/-- A class whose bases are covered is so with its own fields. -/
theorem own {seen names own seen' : List String} {c : ClassDef}
    (h : Covers classes start (c.name :: seen) [] (names, seen'))
    (hmeans : Means classes start c.name c) (hnew : c.name ∉ seen)
    (hreach : Reaches classes start c) (hown : declaredFields c = .ok own)
    (hbases : ∀ base ∈ c.baseNames, ∀ b, LastOfName classes base b → base ∈ seen') :
    Covers classes start seen [] (addFields names own, seen') := by
  have hmet (k : ClassDef) : Met classes start seen seen' k ↔
      k = c ∨ Met classes start (c.name :: seen) seen' k := by
    constructor
    · rintro ⟨hk, hseen', hseen⟩
      by_cases hname : k.name = c.name
      · exact .inl (Means.unique (hname ▸ hk) hmeans)
      · exact .inr ⟨hk, hseen', by simp [hname, hseen]⟩
    · rintro (rfl | ⟨hk, hseen', hseen⟩)
      · exact ⟨hmeans, h.grows List.mem_cons_self, hnew⟩
      · exact ⟨hk, hseen', fun h => hseen (List.mem_cons_of_mem _ h)⟩
  refine ⟨List.Subset.trans (List.subset_cons_self _ _) h.grows, fun k hk => ?_, fun k hk => ?_,
    fun k hk => ?_, fun n => ?_, fun _ => nodup_addFields (h.nodup .nil)⟩
  · rcases (hmet k).mp hk with rfl | hk
    · exact hreach
    · exact h.reaches k hk
  · rcases (hmet k).mp hk with rfl | hk
    · exact exists_declaredFields.1 ⟨own, hown⟩
    · exact h.fits k hk
  · rcases (hmet k).mp hk with rfl | hk
    · exact hbases
    · exact h.closed k hk
  · rw [mem_addFields, h.names, mem_declaredFields hown]
    simp only [hmet, or_and_right, exists_or, exists_eq_left, List.not_mem_nil, false_or]
    rw [and_or_left, or_comm, and_comm]

end Covers

/-- The outcome of a search: what holds of what it found, or a class that was reached and
    whose slots cannot be told. -/
def Ends (classes : List ClassDef) (start : ClassDef)
    (P : List String × List String → Prop) : Found → Prop
  | .ok found => P found
  | .error _ => ∃ c, Reaches classes start c ∧ ¬c.SlotsFit

theorem Ends.imp {P Q : List String × List String → Prop} {out : Found}
    (h : Ends classes start P out) (himp : ∀ found, P found → Q found) :
    Ends classes start Q out := by
  cases out with
  | ok found => exact himp found h
  | error fault => exact h

mutual

/-- **A SEARCH COVERS WHAT IT MEETS**: by induction on the search. -/
theorem Searches.covers {seen : List String} {c : ClassDef} {out : Found} :
    Searches classes seen c out → start.name ∈ c.name :: seen → c.name ∉ seen →
      Means classes start c.name c → Reaches classes start c →
      Ends classes start
        (fun found => Covers classes start seen [] found ∧ c.name ∈ found.2) out
  | .found hb hown, hstart, hnew, hmeans, hreach => by
      obtain ⟨hcovers, hbases⟩ := hb.covers hstart fun base hbase b hb =>
        let ⟨s, a, he⟩ := mem_baseNames.1 hbase
        .base c b s base a hreach he hb
      exact ⟨hcovers.own hmeans hnew hreach hown hbases, hcovers.grows List.mem_cons_self⟩
  | .own hb hown, hstart, hnew, hmeans, hreach => by
      refine ⟨c, hreach, fun hfit => ?_⟩
      obtain ⟨own, hok⟩ := exists_declaredFields.2 hfit
      exact nomatch hok.symm.trans hown
  | .bases hb, hstart, hnew, hmeans, hreach =>
      hb.covers hstart fun base hbase b hb =>
        let ⟨s, a, he⟩ := mem_baseNames.1 hbase
        .base c b s base a hreach he hb

theorem SearchesBases.covers {bases : List String} {acc : List String × List String}
    {out : Found} : SearchesBases classes bases acc out → start.name ∈ acc.2 →
      (∀ base ∈ bases, ∀ b, Means classes start base b → Reaches classes start b) →
      Ends classes start (fun found => Covers classes start acc.2 acc.1 found ∧
        ∀ base ∈ bases, ∀ b, LastOfName classes base b → base ∈ found.2) out
  | .done, _, _ => ⟨.refl _, List.forall_mem_nil _⟩
  | .skip hs h, hstart, hreach => by
      refine (h.covers hstart fun base hbase => hreach base (.tail _ hbase)).imp ?_
      rintro found ⟨hcovers, hbases⟩
      refine ⟨hcovers, List.forall_mem_cons.mpr ⟨fun b hb => ?_, hbases⟩⟩
      exact hcovers.grows (hs b hb)
  | .visit (b := b) hb hnew hv h, hstart, hreach => by
      have hmeans := means_of_visit hb hnew hstart
      have hname := hmeans.name_eq
      subst hname
      obtain ⟨hvisit, hseen⟩ := hv.covers (List.mem_cons_of_mem _ hstart) hnew hmeans
        (hreach b.name List.mem_cons_self b hmeans)
      refine (h.covers (hvisit.grows hstart) fun base hbase => hreach base (.tail _ hbase)).imp ?_
      rintro found ⟨hcovers, hbases⟩
      refine ⟨hvisit.added.trans hcovers, List.forall_mem_cons.mpr ⟨fun _ _ => ?_, hbases⟩⟩
      exact hcovers.grows hseen
  | .fails (b := b) hb hnew hv, hstart, hreach => by
      have hmeans := means_of_visit hb hnew hstart
      have hname := hmeans.name_eq
      subst hname
      exact hv.covers (List.mem_cons_of_mem _ hstart) hnew hmeans
        (hreach b.name List.mem_cons_self b hmeans)

end

/-! ## What the search finds -/

/-- A search that ends well finds the classes that are reached, and only these. -/
theorem Searches.finds {found : List String × List String}
    (h : Searches classes [] start (.ok found)) :
    (∀ c, Reaches classes start c → c.SlotsFit) ∧ found.1.Nodup ∧
      ∀ n, n ∈ found.1 ↔ ¬IsDunder n ∧ ∃ c, Reaches classes start c ∧ c.Declares n := by
  obtain ⟨hcovers, hself⟩ := h.covers List.mem_cons_self List.not_mem_nil .start .start
  have hmet : ∀ c, Reaches classes start c → Met classes start [] found.2 c := by
    intro c hc
    induction hc with
    | start => exact ⟨.start, hself, List.not_mem_nil⟩
    | base c b s name a _ hbase hb ih =>
      unfold Met
      rw [hb.name_eq]
      refine ⟨hb, ?_, List.not_mem_nil⟩
      cases hb with
      | start => exact hself
      | last _ _ _ hb => exact hcovers.closed c ih name (mem_baseNames.2 ⟨s, a, hbase⟩) b hb
  refine ⟨fun c hc => hcovers.fits c (hmet c hc), hcovers.nodup .nil, fun n => ?_⟩
  rw [hcovers.names, or_iff_right List.not_mem_nil]
  exact and_congr_right' ⟨fun ⟨c, hc, hn⟩ => ⟨c, hcovers.reaches c hc, hn⟩,
    fun ⟨c, hc, hn⟩ => ⟨c, hmet c hc, hn⟩⟩

/-- The bound on the depth in `fieldsOf` is above the number of classes. -/
theorem searches_fieldsOf (classes : List ClassDef) (start : ClassDef) :
    Searches classes [] start (searchFields classes (classes.length + 1) [] start) :=
  searches_searchFields _ _ _ (Nat.lt_succ_of_le (unseen_le_length [start.name]))

/-- The fields of a class can be told exactly when the slots of every class reached fit. -/
theorem exists_fieldsOf :
    (∃ names, fieldsOf classes start = .ok names) ↔
      ∀ c, Reaches classes start c → c.SlotsFit := by
  have hrun := searches_fieldsOf classes start
  unfold fieldsOf
  cases hfound : searchFields classes (classes.length + 1) [] start with
  | error fault =>
    rw [hfound] at hrun
    obtain ⟨c, hc, hbad⟩ := hrun.covers List.mem_cons_self List.not_mem_nil .start .start
    exact ⟨nofun, fun hfit => absurd (hfit c hc) hbad⟩
  | ok found =>
    rw [hfound] at hrun
    exact ⟨fun _ => hrun.finds.1, fun _ => ⟨found.1, rfl⟩⟩

/-- **FIELDS ARE FOUND BY A COMPLETE SEARCH**: the search from a class of a program ends with one
    outcome, which is the one of `fieldsOf`, whatever the bases are.  When the slots of the
    classes that are reached are texts or have items, the fields are without repetitions, none
    is a dunder name, and any other name is a field exactly when a class that is reached
    declares it. -/
theorem fields_complete (program : List Stmt) (start : ClassDef) :
    (∃ out, (∀ out', Searches (classesOf program) [] start out' ↔ out' = out) ∧
      fieldsOf (classesOf program) start = out.map (·.1)) ∧
    ((∀ c, Reaches (classesOf program) start c → c.SlotsFit) →
      ∃ names, fieldsOf (classesOf program) start = .ok names ∧ names.Nodup ∧
        (∀ n ∈ names, ¬IsDunder n) ∧
        ∀ n, ¬IsDunder n →
          (n ∈ names ↔ ∃ c, Reaches (classesOf program) start c ∧ c.Declares n)) := by
  have hrun := searches_fieldsOf (classesOf program) start
  refine ⟨⟨_, fun out' => ⟨fun h => h.unique hrun, fun h => h ▸ hrun⟩, rfl⟩, fun hfit => ?_⟩
  obtain ⟨names, hnames⟩ := exists_fieldsOf.2 hfit
  obtain ⟨found, hfound, rfl⟩ := map_eq_ok.mp hnames
  rw [hfound] at hrun
  obtain ⟨-, hnodup, hfields⟩ := hrun.finds
  exact ⟨found.1, hnames, hnodup, fun n hn => ((hfields n).mp hn).1,
    fun n hn => (hfields n).trans (and_iff_right hn)⟩

/-- The class of a name with bases given by names. -/
def namedClass (name : String) (bases : List String) (body : List Stmt) : ClassDef :=
  ⟨⟨name, bases.map fun b => .name nowhere b .load, [], []⟩, body⟩

/-- A class whose bases are a diamond that leads back to it, one of them defined twice. -/
def tangled : ClassDef :=
  namedClass "Tangled" ["Left", "Right", "Missing"]
    [.annotated (.name nowhere "x" .store) (.name nowhere "int" .load) none]

/-- The program of `tangled` and its bases. -/
def tangledProgram : List Stmt :=
  [tangled,
    namedClass "Root" [] [.assign [.name nowhere "hidden" .store] (.constant nowhere (.int 0))],
    namedClass "Left" ["Root"]
      [.assign [.name nowhere "__slots__" .store]
        (.compound nowhere (.tuple .load) [.constant nowhere (.str "y" false),
          .constant nowhere (.str "__z__" false)])],
    namedClass "Right" ["Root", "Right"]
      [.assign [.field nowhere (.name nowhere "self" .load) "w" .store]
        (.constant nowhere (.int 1))],
    namedClass "Root" ["Tangled"]
      [.assign [.name nowhere "v" .store, .name nowhere "x" .store]
        (.constant nowhere (.int 2))]].map ClassDef.toStmt

theorem fields_complete_tangled :
    (∀ c, Reaches (classesOf tangledProgram) tangled c → c.SlotsFit) ∧
      ∃ names, fieldsOf (classesOf tangledProgram) tangled = .ok names ∧ names.Nodup ∧
        (∀ n ∈ names, ¬IsDunder n) ∧
        ∀ n, ¬IsDunder n →
          (n ∈ names ↔ ∃ c, Reaches (classesOf tangledProgram) tangled c ∧ c.Declares n) := by
  have hfit : ∀ c, Reaches (classesOf tangledProgram) tangled c → c.SlotsFit := by
    intro c hc
    have hmem := hc.mem List.mem_cons_self
    have hall : ∀ c ∈ classesOf tangledProgram, ∃ own, declaredFields c = .ok own := by
      refine List.forall_mem_cons.mpr ⟨⟨_, rfl⟩, List.forall_mem_cons.mpr ⟨⟨_, rfl⟩,
        List.forall_mem_cons.mpr ⟨⟨_, rfl⟩, List.forall_mem_cons.mpr ⟨⟨_, rfl⟩,
        List.forall_mem_cons.mpr ⟨⟨_, rfl⟩, nofun⟩⟩⟩⟩⟩
    exact exists_declaredFields.1 (hall c hmem)
  exact ⟨hfit, (fields_complete tangledProgram tangled).2 hfit⟩

example : fieldsOf (classesOf tangledProgram) tangled = .ok ["v", "x", "y", "w"] := by cbv

end Covenant.Source
