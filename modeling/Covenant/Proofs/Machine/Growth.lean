import Covenant.Machine.Call
import Covenant.Proofs.Protocol.Dialogue

/-! # Growth — computations that only make objects

    A heap grows if every object that it has stays as it is.  Computations
    that only make objects, and what is put together from them, let the heap
    grow; the namespace of a clause is made in this way
    (`growing_clauseNames`). -/

namespace Covenant.Machine

/-! ## Heaps -/

namespace Heap

variable {h h' h'' : Heap}

theorem lt_of_get? {a : Address} {o : Object} (ho : h.get? a = some o) : a < h.objects.size := by
  unfold get? at ho
  exact (Array.getElem?_eq_some_iff.mp ho).1

theorem size_add (h : Heap) (o : Object) : (h.add o).2.objects.size = h.objects.size + 1 :=
  Array.size_push o

theorem size_put (h : Heap) (a : Address) (o : Object) :
    (h.put a o).objects.size = h.objects.size := Array.size_setIfInBounds

/-- What is put at an address is there, if there was an object. -/
theorem eq_of_get?_put {a : Address} {o x : Object} (hx : (h.put a o).get? a = some x) :
    x = o := by
  unfold put get? at hx
  rw [Array.getElem?_setIfInBounds_self] at hx
  split at hx
  · exact (Option.some.inj hx).symm
  · cases hx

/-- Every object of a heap is in another one as it is. -/
def Grows (h h' : Heap) : Prop := ∀ a o, h.get? a = some o → h'.get? a = some o

theorem Grows.refl (h : Heap) : h.Grows h := fun _ _ ho => ho

theorem Grows.trans (hg : h.Grows h') (hg' : h'.Grows h'') : h.Grows h'' :=
  fun a o ho => hg' a o (hg a o ho)

theorem grows_add (h : Heap) (o : Object) : h.Grows (h.add o).2 :=
  fun _ _ hx => (h.get?_add_of_lt o (lt_of_get? hx)).trans hx

theorem Grows.object? {v : Value} {o : Object} (hg : h.Grows h') (ho : h.object? v = some o) :
    h'.object? v = some o := by
  cases v with
  | ref a => exact hg a o ho
  | atom | type | routine | module => cases ho

end Heap

/-! ## Computations -/

/-- A run that has ended with a value has got there in two steps. -/
theorem Run.bind_eq_done {σ ε α β : Type} {r : Run σ ε α} {k : α → σ → Run σ ε β} {b : β} {t : σ}
    (h : r.bind k = .done b t) : ∃ a s, r = .done a s ∧ k a s = .done b t := by
  cases r with
  | done a s => exact ⟨a, s, rfl, h⟩
  | thrown e s => cases h
  | paused s resume => cases h

/-- A computation that lets the heap grow. -/
def Comp.Growing {α : Type} (x : Comp α) : Prop :=
  ∀ h a h', x h = .done a h' → h.Grows h'

section Growing

variable {α β : Type}

theorem growing_pure (a : α) : (pure a : Comp α).Growing := by
  rintro h b h' ⟨⟩
  exact .refl h

theorem growing_bind {x : Comp α} {f : α → Comp β} (hx : x.Growing) (hf : ∀ a, (f a).Growing) :
    (x >>= f).Growing := by
  intro h b h' hdone
  obtain ⟨a, h₁, ha, hb⟩ := Run.bind_eq_done hdone
  exact (hx h a h₁ ha).trans (hf a h₁ b h' hb)

theorem growing_heap : Comp.heap.Growing := by
  rintro h b h' ⟨⟩
  exact .refl h

theorem growing_make (o : Object) : (Comp.make o).Growing := by
  rintro h b h' ⟨⟩
  exact h.grows_add o

theorem growing_mapM {f : α → Comp β} (hf : ∀ a, (f a).Growing) (as : List α) :
    (as.mapM f).Growing := by
  induction as with
  | nil => exact growing_pure []
  | cons a as ih =>
      rw [List.mapM_cons]
      refine growing_bind (hf a) fun b => growing_bind ih fun bs => ?_
      exact growing_pure _

end Growing

/-! ## The namespace of a clause -/

theorem growing_namesAt (a : Address) : (Comp.namesAt a).Growing := by
  refine growing_bind growing_heap fun h => ?_
  split
  · exact growing_pure _
  · exact growing_pure _

theorem growing_boundNamesOf (b : Signature.Binding Value) : (boundNamesOf b).Growing := by
  refine growing_mapM (fun p => growing_bind ?_ fun v => growing_pure _) b
  cases p.2 with
  | one v => exact growing_pure v
  | many vs => exact growing_make _
  | named ps => exact growing_make _

theorem growing_withReserved (kind : ViolationKind) (a : Activation Value)
    (names : Names Value) : (withReserved kind a names).Growing := by
  unfold withReserved
  by_cases hk : kind = .postcondition
  · simp only [if_pos hk]
    exact growing_bind (growing_make _) fun store => growing_pure _
  · simp only [if_neg hk]
    exact growing_pure _

/-- Making the namespace of a clause changes no object. -/
theorem growing_clauseNames (implementation : Value) (kind : ViolationKind)
    (a : Activation Value) : (clauseNames implementation kind a).Growing := by
  have hargs : ∀ module : Names Value, Comp.Growing (do
      let names ← if kind = .invariant then pure module
        else do pure (Names.setAll module (← boundNamesOf a.arguments))
      withReserved kind a names) := by
    intro module
    by_cases hk : kind = .invariant
    · simp only [if_pos hk]
      exact growing_bind (growing_pure _) (growing_withReserved kind a)
    · simp only [if_neg hk]
      refine growing_bind (growing_boundNamesOf a.arguments) fun ps => ?_
      exact growing_bind (growing_pure _) (growing_withReserved kind a)
  refine growing_bind growing_heap fun h => ?_
  cases globalsOf h implementation with
  | none => exact growing_bind (growing_pure _) hargs
  | some g => exact growing_bind (growing_namesAt g) hargs

end Covenant.Machine
