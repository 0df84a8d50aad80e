/-!
# Tables

Gates and bags are kept in arrays, one entry for each, and an entry out of range reads as a fallback. What an
operation on such a table does to the entry that is read at a position is said once here: a new entry stands
behind the others (`getD_push`), and an entry that is set or modified is the only one to change (`getD_set`,
`getD_modify`).
-/

namespace Provenance.Table

variable {β : Type} (table : Array β)

/-- A new entry stands behind the others. -/
theorem getD_push (entry fallback : β) (position : Nat) : (table.push entry).getD position fallback =
    if position = table.size then entry else table.getD position fallback := by
  simp only [Array.getD_eq_getD_getElem?, Array.getElem?_push]
  split <;> rfl

/-- A new entry that is the fallback shows nowhere. -/
@[simp] theorem getD_push_fallback (fallback : β) (position : Nat) :
    (table.push fallback).getD position fallback = table.getD position fallback := by
  rw [getD_push]
  split
  · rename_i last
    rw [last, Array.getD_eq_getD_getElem?, Array.getElem?_eq_none (Nat.le_refl _)]
    rfl
  · rfl

/-- Entries change alike when one is modified and when its modification is set. -/
theorem modify_eq_set (change : β → β) (fallback : β) (position : Nat) :
    table.modify position change = table.setIfInBounds position (change (table.getD position fallback)) := by
  refine Array.ext (by simp) fun other inside _ => ?_
  rw [Array.getElem_modify, Array.getElem_setIfInBounds]
  split
  · rename_i same
    subst same
    simp_all
  · rfl

/-- Setting an entry to what it is changes nothing. -/
theorem set_getD (fallback : β) (position : Nat) :
    table.setIfInBounds position (table.getD position fallback) = table := by
  by_cases inside : position < table.size
  · simp [Array.setIfInBounds, inside]
  · simp [Array.setIfInBounds, inside]

variable {table} {position : Nat} (inside : position < table.size)

include inside

/-- An entry that is set is the only one to change. -/
theorem getD_set (entry fallback : β) (other : Nat) :
    (table.setIfInBounds position entry).getD other fallback =
      if other = position then entry else table.getD other fallback := by
  simp only [Array.getD_eq_getD_getElem?, Array.getElem?_setIfInBounds]
  by_cases same : position = other
  · subst same
    simp [inside]
  · simp [same, Ne.symm same]

/-- An entry that is modified is the only one to change. -/
theorem getD_modify (change : β → β) (fallback : β) (other : Nat) :
    (table.modify position change).getD other fallback =
      if other = position then change (table.getD position fallback) else table.getD other fallback := by
  rw [modify_eq_set table change fallback, getD_set inside]

end Provenance.Table
