/-!
# Tables

A table maps keys to entries and holds at most one entry for a key that was put in with `set`.
`get?_set` and `get?_erase` say what is found after a change.
-/

namespace FrozenScript

/-- Keys with their entries. -/
abbrev Table (κ α : Type) := List (κ × α)

namespace Table

variable {κ α : Type} [DecidableEq κ]

/-- The entry of a key. -/
def get? (table : Table κ α) (wanted : κ) : Option α :=
  match table with
  | [] => none
  | (key, entry) :: rest => if key = wanted then some entry else get? rest wanted

/-- Give a key an entry, in the place of its former entry if it has one. -/
def set (table : Table κ α) (wanted : κ) (entry : α) : Table κ α :=
  match table with
  | [] => [(wanted, entry)]
  | (key, former) :: rest =>
    if key = wanted then (wanted, entry) :: rest else (key, former) :: set rest wanted entry

/-- Remove a key. -/
def erase (table : Table κ α) (wanted : κ) : Table κ α :=
  table.filter fun (key, _) => key != wanted

/-- The entries in the order of their names. -/
def sorted (table : Table String α) : Table String α :=
  table.mergeSort fun a b => !decide (b.1 < a.1)

/-- After a change a key has its new entry, and every other key has its former one. -/
theorem get?_set (table : Table κ α) (wanted other : κ) (entry : α) :
    (table.set wanted entry).get? other =
      if wanted = other then some entry else table.get? other := by
  induction table with
  | nil => simp [set, get?]
  | cons head rest ih =>
    obtain ⟨key, former⟩ := head
    by_cases hkey : key = wanted
    · subst hkey
      by_cases hother : key = other <;> simp [set, get?, hother]
    · by_cases hother : key = other
      · subst hother
        simp [set, get?, hkey, Ne.symm hkey]
      · simp [set, get?, hkey, hother, ih]

/-- After a removal the key has no entry, and every other key has its former one. -/
theorem get?_erase (table : Table κ α) (wanted other : κ) :
    (table.erase wanted).get? other = if wanted = other then none else table.get? other := by
  induction table with
  | nil => simp [erase, get?]
  | cons head rest ih =>
    obtain ⟨key, former⟩ := head
    unfold erase at ih ⊢
    by_cases hkey : key = wanted
    · subst hkey
      by_cases hother : key = other <;> simp_all [get?]
    · by_cases hother : key = other
      · subst hother
        simp [get?, hkey, Ne.symm hkey]
      · simp_all [get?]

end Table

end FrozenScript
