import Mathlib.Data.Finset.Card
import Mathlib.Data.List.Sort
import Provenance.GateSet

/-!
# More on sets of gates

Sets with the same members are equal (`ext`).  A set of gates as a finite set of numbers, which gives the
number of members after each operation (`size_insert`, `size_erase`, `size_ofList`), and the last member.
-/

namespace Provenance.GateSet

variable {set other : GateSet} {gate : Nat}

/-- Sets with the same members are equal. -/
theorem ext (same : ∀ gate, gate ∈ set ↔ gate ∈ other) : set = other := by
  have lists : set.toList = other.toList := set.sorted.eq_of_mem_iff other.sorted fun gate => same gate
  cases set
  cases other
  cases lists
  rfl

@[simp] theorem not_mem_emptyCollection : gate ∉ (∅ : GateSet) := not_mem_empty

theorem nodup_toList (set : GateSet) : set.toList.Nodup := set.sorted.imp Nat.ne_of_lt

/-- The members as a finite set. -/
def toFinset (set : GateSet) : Finset Nat := ⟨set.toList, set.nodup_toList⟩

@[simp] theorem mem_toFinset : gate ∈ set.toFinset ↔ gate ∈ set := Iff.rfl

@[simp] theorem card_toFinset (set : GateSet) : set.toFinset.card = set.size := rfl

theorem size_le_size (subset : ∀ gate ∈ set, gate ∈ other) : set.size ≤ other.size := by
  rw [← card_toFinset, ← card_toFinset]
  exact Finset.card_le_card subset

@[simp] theorem size_singleton (gate : Nat) : (singleton gate).size = 1 := rfl

/-- A set without members has size zero. -/
theorem size_eq_zero_iff : set.size = 0 ↔ ∀ gate, gate ∉ set := by
  rw [← card_toFinset, Finset.card_eq_zero, Finset.eq_empty_iff_forall_notMem]
  rfl

theorem size_pos_of_ne_empty (some_gate : set ≠ ∅) : 0 < set.size := by
  refine Nat.pos_of_ne_zero fun zero => some_gate ?_
  exact ext fun gate => ⟨fun member => absurd member (size_eq_zero_iff.1 zero gate),
    fun member => absurd member not_mem_emptyCollection⟩

theorem isEmpty_iff : set.isEmpty = true ↔ ∀ gate, gate ∉ set := by
  rw [← size_eq_zero_iff, isEmpty, List.isEmpty_iff, size, List.length_eq_zero_iff]

/-- A new member makes a set larger by one. -/
theorem size_insert (new : gate ∉ set) : (set.insert gate).size = set.size + 1 := by
  have same : (set.insert gate).toFinset = Insert.insert gate set.toFinset := by
    ext other
    simp
  rw [← card_toFinset, same, Finset.card_insert_of_notMem (by simpa using new), card_toFinset]

theorem size_erase (member : gate ∈ set) : (set.erase gate).size + 1 = set.size := by
  have same : (set.erase gate).toFinset = set.toFinset.erase gate := by
    ext other
    simp [and_comm]
  rw [← card_toFinset, same, ← card_toFinset, Finset.card_erase_add_one (by simpa using member)]

theorem toFinset_ofList (gates : List Nat) : (ofList gates).toFinset = gates.toFinset := by
  ext other
  simp

/-- A list without repetition has as many elements as the set of them. -/
theorem size_ofList {gates : List Nat} (nodup : gates.Nodup) : (ofList gates).size = gates.length := by
  rw [← card_toFinset, toFinset_ofList, List.toFinset_card_of_nodup nodup]

/-- A list may repeat elements of the set. -/
theorem size_ofList_le (gates : List Nat) : (ofList gates).size ≤ gates.length := by
  rw [← card_toFinset, toFinset_ofList]
  exact gates.toFinset_card_le

theorem eq_singleton_of_size (member : gate ∈ set) (one : set.size = 1) :
    set = singleton gate := by
  refine ext fun other => ?_
  obtain ⟨only, same⟩ := Finset.card_eq_one.1 ((card_toFinset set).trans one)
  have members : ∀ other, other ∈ set ↔ other = only := fun other => by
    rw [← mem_toFinset, same, Finset.mem_singleton]
  rw [mem_singleton, members, (members gate).1 member]

theorem eq_singleton_of_toList (only : set.toList = [gate]) : set = singleton gate :=
  ext fun other => by rw [mem_def, only, List.mem_singleton, mem_singleton]

theorem mem_of_last? (last : set.last? = some gate) : gate ∈ set := List.mem_of_getLast? last

end Provenance.GateSet
