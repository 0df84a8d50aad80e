/-!
# Finite sets of gates

A gate is its index, a natural number counted from zero in order of creation. A finite set of
gates is kept as the list of its members by increasing index, so two sets with the same members
are the same list. Main statements: membership after each operation (`mem_insert`, `mem_erase`,
`mem_union`, `mem_ofList`).
-/

namespace Provenance

/-! ## Increasing lists -/

namespace Increasing

/-- Puts `gate` where it keeps the list increasing, once. -/
def insert (gate : Nat) : List Nat → List Nat
  | [] => [gate]
  | first :: rest =>
    if gate < first then gate :: first :: rest
    else if gate = first then first :: rest
    else first :: insert gate rest

/-- The members of both lists, in order, each once. -/
def merge : List Nat → List Nat → List Nat
  | [], right => right
  | left, [] => left
  | first :: left, second :: right =>
    if first < second then first :: merge left (second :: right)
    else if second < first then second :: merge (first :: left) right
    else first :: merge left right
termination_by left right => left.length + right.length

theorem mem_insert {gate other : Nat} {list : List Nat} :
    other ∈ insert gate list ↔ other = gate ∨ other ∈ list := by
  induction list with
  | nil => simp [insert]
  | cons first rest ih =>
    simp only [insert]
    split
    · simp
    · split
      · subst gate; simp
      · simp [ih, or_left_comm]

theorem pairwise_insert {gate : Nat} {list : List Nat} (sorted : list.Pairwise (· < ·)) :
    (insert gate list).Pairwise (· < ·) := by
  induction list with
  | nil => simp [insert]
  | cons first rest ih =>
    obtain ⟨below, sortedRest⟩ := List.pairwise_cons.1 sorted
    simp only [insert]
    split
    · refine List.pairwise_cons.2 ⟨fun other member => ?_, sorted⟩
      rcases List.mem_cons.1 member with rfl | member
      · assumption
      · have := below other member; omega
    · split
      · exact sorted
      · refine List.pairwise_cons.2 ⟨fun other member => ?_, ih sortedRest⟩
        rcases mem_insert.1 member with rfl | member
        · omega
        · exact below other member

theorem mem_merge {other : Nat} (left right : List Nat) :
    other ∈ merge left right ↔ other ∈ left ∨ other ∈ right := by
  fun_induction merge left right with
  | case1 => simp
  | case2 => simp
  | case3 first left second right _ ih => simp [ih, or_assoc]
  | case4 first left second right _ _ ih => simp [ih, or_left_comm]
  | case5 first left second right _ _ ih =>
    have : first = second := by omega
    subst second
    simp only [List.mem_cons, ih]
    grind

theorem pairwise_merge {left right : List Nat} (sortedLeft : left.Pairwise (· < ·))
    (sortedRight : right.Pairwise (· < ·)) : (merge left right).Pairwise (· < ·) := by
  fun_induction merge left right with
  | case1 => exact sortedRight
  | case2 => exact sortedLeft
  | case3 first left second right less ih =>
    have ⟨belowLeft, sortedTail⟩ := List.pairwise_cons.1 sortedLeft
    refine List.pairwise_cons.2 ⟨fun other member => ?_, ih sortedTail sortedRight⟩
    rcases (mem_merge _ _).1 member with member | member
    · exact belowLeft other member
    · rcases List.mem_cons.1 member with rfl | member
      · exact less
      · have := (List.pairwise_cons.1 sortedRight).1 other member; omega
  | case4 first left second right _ less ih =>
    have ⟨belowRight, sortedTail⟩ := List.pairwise_cons.1 sortedRight
    refine List.pairwise_cons.2 ⟨fun other member => ?_, ih sortedLeft sortedTail⟩
    rcases (mem_merge _ _).1 member with member | member
    · rcases List.mem_cons.1 member with rfl | member
      · exact less
      · have := (List.pairwise_cons.1 sortedLeft).1 other member; omega
    · exact belowRight other member
  | case5 first left second right _ _ ih =>
    obtain ⟨belowLeft, sortedLeft⟩ := List.pairwise_cons.1 sortedLeft
    obtain ⟨belowRight, sortedRight⟩ := List.pairwise_cons.1 sortedRight
    refine List.pairwise_cons.2 ⟨fun other member => ?_, ih sortedLeft sortedRight⟩
    rcases (mem_merge _ _).1 member with member | member
    · exact belowLeft other member
    · have := belowRight other member; omega

end Increasing

/-! ## Sets -/

/-- A finite set of gates, listed by increasing index. -/
structure GateSet where
  /-- The members, each once, by increasing index. -/
  toList : List Nat
  /-- The list is increasing. -/
  sorted : toList.Pairwise (· < ·)
  deriving DecidableEq

namespace GateSet

/-- The set without members. -/
def empty : GateSet := ⟨[], List.Pairwise.nil⟩

instance : EmptyCollection GateSet := ⟨empty⟩
instance : Inhabited GateSet := ⟨empty⟩

instance : Membership Nat GateSet := ⟨fun set gate => gate ∈ set.toList⟩

instance (gate : Nat) (set : GateSet) : Decidable (gate ∈ set) :=
  inferInstanceAs (Decidable (gate ∈ set.toList))

/-- Whether `gate` is a member; the search stops at the first greater member. -/
def contains (set : GateSet) (gate : Nat) : Bool := set.toList.contains gate

/-- Number of members. -/
def size (set : GateSet) : Nat := set.toList.length

/-- Whether there is no member. -/
def isEmpty (set : GateSet) : Bool := set.toList.isEmpty

/-- The member of lowest index. -/
def first? (set : GateSet) : Option Nat := set.toList.head?

/-- The member of highest index. -/
def last? (set : GateSet) : Option Nat := set.toList.getLast?

/-- The set with one more member. -/
def insert (set : GateSet) (gate : Nat) : GateSet :=
  ⟨Increasing.insert gate set.toList, Increasing.pairwise_insert set.sorted⟩

/-- The set whose only member is `gate`. -/
def singleton (gate : Nat) : GateSet := ⟨[gate], by simp⟩

/-- The members that satisfy a test. -/
def filter (test : Nat → Bool) (set : GateSet) : GateSet :=
  ⟨set.toList.filter test, set.sorted.filter _⟩

/-- The set without `gate`. -/
def erase (set : GateSet) (gate : Nat) : GateSet := set.filter (· != gate)

/-- The members of either set. -/
def union (left right : GateSet) : GateSet :=
  ⟨Increasing.merge left.toList right.toList, Increasing.pairwise_merge left.sorted right.sorted⟩

/-- The members of `left` that are not in `right`. -/
def diff (left right : GateSet) : GateSet := left.filter (!right.contains ·)

/-- Whether every member of `left` is in `right`. -/
def isSubset (left right : GateSet) : Bool := left.toList.all right.contains

/-- The set of the elements of a list. -/
def ofList (gates : List Nat) : GateSet := gates.foldl insert empty

/-! ## Membership -/

theorem mem_def {gate : Nat} {set : GateSet} : gate ∈ set ↔ gate ∈ set.toList := Iff.rfl

@[simp] theorem not_mem_empty {gate : Nat} : gate ∉ (empty : GateSet) := by simp [mem_def, empty]

@[simp] theorem contains_iff {gate : Nat} {set : GateSet} : set.contains gate ↔ gate ∈ set := by
  simp [contains, mem_def]

@[simp] theorem mem_insert {gate other : Nat} {set : GateSet} :
    other ∈ set.insert gate ↔ other = gate ∨ other ∈ set := by
  simp [mem_def, insert, Increasing.mem_insert]

@[simp] theorem mem_singleton {gate other : Nat} : other ∈ singleton gate ↔ other = gate := by
  simp [mem_def, singleton]

@[simp] theorem mem_filter {test : Nat → Bool} {gate : Nat} {set : GateSet} :
    gate ∈ set.filter test ↔ gate ∈ set ∧ test gate := by
  simp [mem_def, filter]

@[simp] theorem mem_erase {gate other : Nat} {set : GateSet} :
    other ∈ set.erase gate ↔ other ∈ set ∧ other ≠ gate := by
  simp [erase]

@[simp] theorem mem_union {gate : Nat} {left right : GateSet} :
    gate ∈ left.union right ↔ gate ∈ left ∨ gate ∈ right := by
  simp [mem_def, union, Increasing.mem_merge]

@[simp] theorem mem_diff {gate : Nat} {left right : GateSet} :
    gate ∈ left.diff right ↔ gate ∈ left ∧ gate ∉ right := by
  simp [diff, Bool.eq_false_iff]

theorem isSubset_iff {left right : GateSet} :
    left.isSubset right ↔ ∀ gate ∈ left, gate ∈ right := by
  simp [isSubset, mem_def, contains]

@[simp] theorem mem_ofList {gate : Nat} {gates : List Nat} :
    gate ∈ ofList gates ↔ gate ∈ gates := by
  suffices ∀ start : GateSet, gate ∈ gates.foldl insert start ↔ gate ∈ start ∨ gate ∈ gates by
    simpa [ofList] using this empty
  induction gates with
  | nil => simp
  | cons head rest ih =>
    intro start
    simp only [List.foldl_cons, ih, mem_insert, List.mem_cons]
    grind

end GateSet

end Provenance
