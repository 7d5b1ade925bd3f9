import Covenant.Machine.Object

/-! # Snapshots — copies of one level

    A value that cannot change is its own snapshot.  A collection or an
    instance is copied without its parts: what the copy holds is what the
    original held, and a later change of the original itself does not reach
    the copy. -/

namespace Covenant.Machine

/-- Whether a snapshot of an object is a new object. -/
def Object.isCopied : Object → Bool
  | .list _ | .set _ | .dict _ | .bytearray _ | .names _ | .record .. | .captures _ => true
  | _ => false

/-- Whether an object cannot be copied at all. -/
def Object.isUncopyable : Object → Bool
  | .generator .. | .coroutine .. | .static _ | .classMethod _ => true
  | _ => false

/-- A value kept apart from later changes: the value itself, or a copy with the heap it is
    in. -/
def Heap.snapshot (h : Heap) (v : Value) : Value × Heap :=
  match h.object? v with
  | some o =>
    if o.isCopied then
      let (a, h) := h.add o
      (.ref a, h)
    else (v, h)
  | none => (v, h)

/-- A snapshot shows what the original showed when it was taken. -/
theorem Heap.object?_snapshot (h : Heap) (v : Value) :
    (h.snapshot v).2.object? (h.snapshot v).1 = h.object? v := by
  unfold Heap.snapshot
  cases ho : h.object? v with
  | none => simp [ho]
  | some o =>
    by_cases hc : o.isCopied
    · simp only [hc, if_true]
      exact h.get?_add_self o
    · simp [hc, ho]

/-- Taking a snapshot changes no object. -/
theorem Heap.get?_snapshot (h : Heap) (v : Value) {a : Address} (ha : a < h.objects.size) :
    (h.snapshot v).2.get? a = h.get? a := by
  unfold Heap.snapshot
  cases h.object? v with
  | none => rfl
  | some o =>
    by_cases hc : o.isCopied
    · simp only [hc, if_true]
      exact h.get?_add_of_lt o ha
    · simp [hc]

/-- Keeps a value apart from later changes. -/
def Comp.snapshot (v : Value) : Comp Value := do
  match ← object? v with
  | some o =>
    if o.isUncopyable then fail .wrongType
    else fun h =>
      let (w, h) := h.snapshot v
      .done w h
  | none =>
    match v with
    | .module _ => fail .wrongType
    | v => pure v

end Covenant.Machine
