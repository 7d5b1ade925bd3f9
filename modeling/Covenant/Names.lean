/-! # Names — values under names, in order

    A table of names keeps the order in which the names were first given.
    Setting a name that is there changes its value and not its place. -/

namespace Covenant

/-- Values under names, in the order in which the names were first given. -/
abbrev Names (α : Type) := List (String × α)

namespace Names

variable {α : Type}

/-- Sets a name; an old one keeps its place. -/
def set : Names α → String → α → Names α
  | [], name, v => [(name, v)]
  | (n, x) :: ps, name, v => if n = name then (name, v) :: ps else (n, x) :: set ps name v

/-- Sets several names in order. -/
def setAll (ps qs : Names α) : Names α := qs.foldl (fun ps q => set ps q.1 q.2) ps

/-- Removes a name. -/
def erase (name : String) (ps : Names α) : Names α := ps.eraseP (·.1 == name)

/-- Looking up a name that was set finds it, and the others are as before. -/
theorem lookup_set (ps : Names α) (name other : String) (v : α) :
    (set ps name v).lookup other = if other = name then some v else ps.lookup other := by
  induction ps with
  | nil => by_cases h : other = name <;> simp [set, List.lookup_cons, h, beq_false_of_ne]
  | cons p ps ih =>
    obtain ⟨n, x⟩ := p
    by_cases hn : n = name
    · by_cases h : other = name <;> simp [set, List.lookup_cons, hn, h, beq_false_of_ne]
    · by_cases h : other = n
      · simp [set, hn, h]
      · simp [set, List.lookup_cons, hn, h, ih, beq_false_of_ne]

/-- Setting a name adds it at the end, if it is new. -/
theorem keys_set (ps : Names α) (name : String) (v : α) :
    (set ps name v).map (·.1)
      = if name ∈ ps.map (·.1) then ps.map (·.1) else ps.map (·.1) ++ [name] := by
  induction ps with
  | nil => simp [set]
  | cons p ps ih =>
    obtain ⟨n, x⟩ := p
    by_cases hn : n = name
    · simp [set, hn]
    · have hn' : name ≠ n := fun h => hn h.symm
      simp only [set, hn, if_false, List.map_cons, ih, List.mem_cons, hn', false_or]
      split <;> simp

end Names

end Covenant
