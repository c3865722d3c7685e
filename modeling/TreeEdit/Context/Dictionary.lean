/-!
# Dictionaries

A dictionary gives values to names and keeps the order in which names were first set: setting a name
again changes its value where it stands.
-/

namespace TreeEdit

/-- Names with values, in the order in which the names were first set. -/
abbrev Dictionary (α : Type) := List (String × α)

namespace Dictionary

/-- The value of a name. -/
def get? (name : String) : Dictionary α → Option α
  | [] => none
  | (n, v) :: rest => if name = n then some v else get? name rest

/-- The dictionary with another value for a name. -/
def set (name : String) (value : α) : Dictionary α → Dictionary α
  | [] => [(name, value)]
  | (n, v) :: rest => if name = n then (n, value) :: rest else (n, v) :: set name value rest

/-- A name that was set has the value it was set to, and the others have those they had. -/
theorem get?_set (name other : String) (value : α) (d : Dictionary α) :
    get? other (set name value d) = if other = name then some value else get? other d := by
  induction d with
  | nil => rfl
  | cons e d ih =>
    obtain ⟨n, v⟩ := e
    by_cases hn : name = n
    · subst hn
      by_cases ho : other = name <;> simp [set, get?, ho]
    · by_cases ho : other = n
      · subst ho
        simp [set, get?, hn, Ne.symm hn]
      · simp [set, get?, hn, ho, ih]

end Dictionary

end TreeEdit
