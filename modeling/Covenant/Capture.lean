import Covenant.Error
import Covenant.Names

/-! # Captured values — what fields held on entry

    A run of a wrapper keeps the values that its postconditions call old.  A
    store belongs to one run: it is made empty, filled before the
    implementation is called, and then only read. -/

namespace Covenant

open Text

/-- The captured values of one run, by field. -/
structure Captures (α : Type) where
  entries : Names α := []

namespace Captures

variable {α : Type}

/-- Keeps a value for a field; a field that has one keeps its place. -/
def capture (c : Captures α) (field : String) (value : α) : Captures α :=
  ⟨Names.set c.entries field value⟩

/-- The value kept for a field. -/
def lookup (c : Captures α) (field : String) : Option α := c.entries.lookup field

/-- Whether a field has a value. -/
def contains (c : Captures α) (field : String) : Bool := (c.lookup field).isSome

/-- The fields in the order in which they were first captured. -/
def fields (c : Captures α) : List String := c.entries.map (·.1)

/-- How many fields have a value. -/
def size (c : Captures α) : Nat := c.entries.length

/-- The store as a text: its fields in order of their characters. -/
def text (c : Captures α) : String :=
  let sorted := c.fields.mergeSort fun a b => a ≤ b
  "CaptureStore([" ++ ", ".intercalate (sorted.map quote) ++ "])"

end Captures

/-- What is said when a field has no captured value. -/
def notCapturedMessage (field : String) : String := s!"no value was captured for old({field})"

/-- A captured value is found under its field, and the others are as before. -/
theorem Captures.lookup_capture {α : Type} (c : Captures α) (field other : String) (v : α) :
    (c.capture field v).lookup other = if other = field then some v else c.lookup other :=
  Names.lookup_set c.entries field other v

end Covenant
