import Covenant.Document.Declarations
import Covenant.Proofs.Weaving.Outcome
import Covenant.Source.Reader

/-! # Loading — the tables of documents and of program texts

    A table is built by hand, or it is read from one declaration document or
    one program text (`Loaded`).

    * All functions of a loaded table have one module (`Loaded.oneModule`).
    * A program text declares members of classes as methods or constructors,
      and what stands at its top as functions (`aligned_of_readTable`).  A
      document does not have to: it states the role of a callable itself. -/

namespace Covenant.Document

variable {α β : Type} {read : Checked α} {b : β}

theorem Checked.map_eq_ok {f : α → β} : read.map f = .ok b ↔ ∃ a, read = .ok a ∧ f a = b := by
  cases read with
  | ok a =>
      constructor
      · intro h
        exact ⟨a, rfl, Except.ok.inj h⟩
      · rintro ⟨a', ha, rfl⟩
        rw [Except.ok.inj ha]
        rfl
  | error issues =>
      constructor
      · exact nofun
      · rintro ⟨a, ha, -⟩
        exact nomatch ha

theorem Checked.and_eq_ok {f : Checked (α → β)} :
    f.and read = .ok b ↔ ∃ g a, f = .ok g ∧ read = .ok a ∧ g a = b := by
  cases f with
  | ok g =>
      cases read with
      | ok a =>
          constructor
          · intro h
            exact ⟨g, a, rfl, rfl, Except.ok.inj h⟩
          · rintro ⟨g', a', hg, ha, rfl⟩
            rw [Except.ok.inj hg, Except.ok.inj ha]
            rfl
      | error issues =>
          constructor
          · exact nofun
          · rintro ⟨g', a', -, ha, -⟩
            exact nomatch ha
  | error issues =>
      constructor
      · cases read <;> exact nofun
      · rintro ⟨g', a', hg, -, -⟩
        exact nomatch hg

/-- A document is read as the table of its types and functions, which share one module. -/
theorem of_readTable {path : List PathStep} {j : Json} {t : Declaration.Table Value.Datum}
    (h : readTable path j = .ok t) : ∃ m types functions, t = tableOf m types functions := by
  unfold readTable readRecord at h
  split at h
  · dsimp only at h
    obtain ⟨ofFunctions, functions, hfunctions, -, rfl⟩ := Checked.and_eq_ok.1 h
    obtain ⟨ofTypes, types, htypes, -, rfl⟩ := Checked.and_eq_ok.1 hfunctions
    obtain ⟨m, -, rfl⟩ := Checked.map_eq_ok.1 htypes
    exact ⟨m, types, functions, rfl⟩
  · exact nomatch h

end Covenant.Document

namespace Covenant.Source

open Declaration Covenant.Tree Value

variable {source : List Char} {module : Option String} {t : Table Datum}

/-! ## Program texts -/

/-- A program text is read item by item. -/
theorem of_readTable {text : String} (h : readTable module text = .ok t) :
    ∃ program items, List.Forall₂ (fun s i => itemOf text.toList module (classesOf program) s = .ok i)
      program items ∧ t = tableOf items := by
  unfold readTable at h
  dsimp only at h
  split at h
  · exact nomatch h
  · split at h
    · exact nomatch h
    · rename_i program _
      cases hdeclarations : declarations text.toList module program with
      | error fault =>
          rw [hdeclarations] at h
          exact nomatch h
      | ok t' =>
          rw [hdeclarations] at h
          obtain rfl := Except.ok.inj h
          obtain ⟨items, hitems, ht⟩ := bind_eq_ok.mp hdeclarations
          exact ⟨program, items, mapM_eq_ok.mp hitems, (Except.ok.inj ht).symm⟩

/-- What a definition declares has the role and the module that it is declared with. -/
theorem of_callableOf {role : Role} {applied : Bool} {h : FunctionHead} {pre post : List Clause}
    {c : Callable Datum} (hc : callableOf source module role applied h pre post = .ok c) :
    c.role = role ∧ c.module = module := by
  obtain ⟨⟨pre', post'⟩, -, hc⟩ := bind_eq_ok.mp hc
  cases hc
  exact ⟨rfl, rfl⟩

/-- A function is declared as one, in the module of the text. -/
theorem of_functionOf {h : FunctionHead} {c : Callable Datum}
    (hc : functionOf source module h = .ok (some c)) : c.role = .function ∧ c.module = module := by
  unfold functionOf at hc
  split at hc
  · exact nomatch hc
  · obtain ⟨pre, -, hc⟩ := bind_eq_ok.mp hc
    obtain ⟨post, -, hc⟩ := bind_eq_ok.mp hc
    obtain ⟨c', hc', hc⟩ := bind_eq_ok.mp hc
    cases hc
    exact of_callableOf hc'

/-- A member is declared as a method or a constructor. -/
theorem role_of_memberOf {owner : String} {s : Stmt} {c : Callable Datum}
    (h : memberOf source module owner s = .declared c) : c.role ≠ .function := by
  unfold memberOf at h
  split at h
  · split_ifs at h
    split at h
    · exact nomatch h
    · dsimp only at h
      split at h
      · rename_i c' hc
        cases h
        rw [(of_callableOf hc).1]
        split <;> exact nofun
      · exact nomatch h
  · exact nomatch h

end Covenant.Source

namespace Covenant.Declaration

open Value

variable {t : Table Datum}

/-! ## Tables -/

/-- A table that was read from one document or from one program text. -/
inductive Loaded (t : Table Datum) : Prop where
  | document {path : List Document.PathStep} {j : Document.Json}
      (h : Document.readTable path j = .ok t)
  | program {module : Option String} {source : String} (h : Source.readTable module source = .ok t)

/-- Callables have the roles for where they stand: those of types are methods or constructors, and
    the others functions. -/
structure Aligned {α : Type} (t : Table α) : Prop where
  members : ∀ T ∈ t.types, ∀ c ∈ T.callables, c.role ≠ .function
  functions : ∀ f ∈ t.functions, f.role = .function

/-- An item that is a function declares one. -/
theorem of_itemOf_function {source : List Char} {module : Option String}
    {classes : List Source.ClassDef} {s : Tree.Stmt} {c : Callable Datum}
    (h : Source.itemOf source module classes s = .ok (.function c)) :
    c.role = .function ∧ c.module = module := by
  unfold Source.itemOf at h
  split at h
  · -- a class declares no function
    unfold Source.typeOf at h
    split at h
    · cases h
    · split at h
      · cases h
      · obtain ⟨fields, -, h⟩ := bind_eq_ok.mp h
        cases h
  · split at h
    · rename_i c' hc
      cases h
      exact Source.of_functionOf hc
    · cases h
    · cases h
  · cases h

/-- An item that is a type has the declared members of its class for callables. -/
theorem of_itemOf_type {source : List Char} {module : Option String}
    {classes : List Source.ClassDef} {s : Tree.Stmt} {T : TypeDecl Datum}
    {errors : List GenerationError}
    (h : Source.itemOf source module classes s = .ok (.type T errors)) :
    ∀ c ∈ T.callables, c.role ≠ .function := by
  unfold Source.itemOf at h
  split at h
  · unfold Source.typeOf at h
    split at h
    · cases h
    · split at h
      · cases h
      · obtain ⟨fields, -, h⟩ := bind_eq_ok.mp h
        cases h
        intro c hc
        obtain ⟨m, hm, hmc⟩ := List.mem_filterMap.mp hc
        obtain ⟨s', -, rfl⟩ := List.mem_map.mp hm
        split at hmc
        · rename_i c' hdeclared
          cases hmc
          exact Source.role_of_memberOf hdeclared
        · exact nomatch hmc
  · split at h <;> cases h
  · cases h

/-- **PROGRAM TEXTS** declare callables with the roles for where they stand. -/
theorem aligned_of_readTable {module : Option String} {source : String}
    (h : Source.readTable module source = .ok t) : Aligned t := by
  obtain ⟨program, items, hitems, rfl⟩ := Source.of_readTable h
  have hitem : ∀ i ∈ items, ∃ s, Source.itemOf source.toList module (Source.classesOf program) s
      = .ok i := fun i hi => by
    obtain ⟨s, -, hs⟩ := exists_of_forall₂_right hitems i hi
    exact ⟨s, hs⟩
  constructor
  · intro T hT
    obtain ⟨i, hi, hiT⟩ := List.mem_filterMap.mp hT
    obtain ⟨s, hs⟩ := hitem i hi
    split at hiT
    · cases hiT
      exact of_itemOf_type hs
    · exact nomatch hiT
  · intro f hf
    obtain ⟨i, hi, hif⟩ := List.mem_filterMap.mp hf
    obtain ⟨s, hs⟩ := hitem i hi
    split at hif
    · cases hif
      exact (of_itemOf_function hs).1
    · exact nomatch hif

/-- **ONE MODULE**: all functions of a loaded table have the same. -/
theorem Loaded.oneModule (h : Loaded t) : ∃ m, ∀ f ∈ t.functions, f.module = m := by
  cases h with
  | document h =>
      obtain ⟨m, types, functions, rfl⟩ := Document.of_readTable h
      refine ⟨m, fun f hf => ?_⟩
      obtain ⟨p, -, rfl⟩ := List.mem_map.mp hf
      rfl
  | @program module source h =>
      obtain ⟨program, items, hitems, rfl⟩ := Source.of_readTable h
      refine ⟨module, fun f hf => ?_⟩
      obtain ⟨i, hi, hif⟩ := List.mem_filterMap.mp hf
      obtain ⟨s, -, hs⟩ := exists_of_forall₂_right hitems i hi
      split at hif
      · cases hif
        exact (of_itemOf_function hs).2
      · exact nomatch hif

end Covenant.Declaration
