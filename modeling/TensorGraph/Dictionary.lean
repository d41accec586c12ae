/-
  Dictionaries: values by name.

  A name has at most one value.  Setting it again replaces the value, and a name that was erased can
  be set anew.  The attributes of a node are kept in this way, and so are the names of all nodes.
-/

namespace TensorGraph

/-- Values by name, each name at most once. -/
structure Dictionary (β : Type) where
  entries : List (String × β) := []

namespace Dictionary

variable {β : Type}

/-- The value of a name. -/
def get? (d : Dictionary β) (name : String) : Option β :=
  (d.entries.find? fun entry => entry.1 == name).map (·.2)

/-- The dictionary without a name. -/
def erase (d : Dictionary β) (name : String) : Dictionary β :=
  ⟨d.entries.filter fun entry => entry.1 != name⟩

/-- The dictionary with the value of a name set. -/
def insert (d : Dictionary β) (name : String) (value : β) : Dictionary β :=
  ⟨(d.erase name).entries ++ [(name, value)]⟩

/-! ## What a name has -/

theorem get?_erase (d : Dictionary β) (name other : String) :
    (d.erase name).get? other = if other = name then none else d.get? other := by
  rw [get?, get?, erase, List.find?_filter]
  split
  · rename_i hsame
    subst hsame
    rw [Option.map_eq_none_iff, List.find?_eq_none]
    simp
  · rename_i hother
    congr 2
    funext entry
    by_cases hentry : entry.1 = other <;> simp [hentry, hother]

theorem get?_insert (d : Dictionary β) (name other : String) (value : β) :
    (d.insert name value).get? other = if other = name then some value else d.get? other := by
  have hfound : (d.insert name value).get? other =
      ((d.erase name).get? other).or (if other = name then some value else none) := by
    simp only [get?, insert, List.find?_append, List.find?_singleton]
    cases (d.erase name).entries.find? fun entry => entry.1 == other with
    | some entry => rfl
    | none => by_cases hsame : other = name <;> simp [hsame, Ne.symm]
  rw [hfound, get?_erase]
  split <;> simp

/-- The names with a value are those of the entries. -/
theorem get?_isSome_iff {d : Dictionary β} {name : String} :
    (d.get? name).isSome = true ↔ name ∈ d.entries.map (·.1) := by
  rw [get?, Option.isSome_map, List.find?_isSome, List.mem_map]
  simp only [beq_iff_eq]

end Dictionary

end TensorGraph
