import Provenance.Proofs.Decomposition.Parents

/-!
# Decompositions of a circuit

A tree of bags decomposes a circuit when both ends of each wire share a bag and the bags of each gate
are connected (`Decomposes`).  The check of a decomposition looks at the tree and at the wires, so it
passes (`check_eq_ok`).  The size of the largest bag is reached and is not exceeded
(`exists_bag_largest`, `size_bag_le`).
-/

namespace Provenance.Decomposition

variable {α : Type} {d : Decomposition} {c : Circuit α}

/-- A tree of bags that covers the wires of a circuit and in which the bags of each gate are
connected. -/
structure Decomposes (d : Decomposition) (c : Circuit α) : Prop where
  tree : d.IsTree
  covers : ∀ gate, ∀ child ∈ c.children gate, ∃ b, gate ∈ d.bag b ∧ child ∈ d.bag b
  connected : ∀ gate, d.Connected gate

/-! ## The largest bag -/

/-- The running maximum of the sizes is the start or the size of a bag, and is not exceeded. -/
theorem foldl_max_spec (bags : List GateSet) (start : Nat) :
    let most := bags.foldl (fun most bag => max most bag.size) start
    start ≤ most ∧ (∀ bag ∈ bags, bag.size ≤ most) ∧
      (most = start ∨ ∃ bag ∈ bags, bag.size = most) := by
  induction bags generalizing start with
  | nil => exact ⟨Nat.le_refl _, fun _ member => absurd member List.not_mem_nil, Or.inl rfl⟩
  | cons first bags ih =>
    obtain ⟨above, bounds, reached⟩ := ih (max start first.size)
    refine ⟨(Nat.le_max_left ..).trans above, fun bag member => ?_, ?_⟩
    · rcases List.mem_cons.1 member with rfl | member
      · exact (Nat.le_max_right ..).trans above
      · exact bounds bag member
    · rcases reached with same | ⟨bag, member, same⟩
      · rcases Nat.le_total first.size start with le | le
        · exact Or.inl (same.trans (Nat.max_eq_left le))
        · exact Or.inr ⟨first, List.mem_cons_self .., (same.trans (Nat.max_eq_right le)).symm⟩
      · exact Or.inr ⟨bag, List.mem_cons_of_mem _ member, same⟩

theorem largest_eq_foldl (d : Decomposition) :
    d.largest = d.bags.toList.foldl (fun most bag => max most bag.size) 0 :=
  (Array.foldl_toList _).symm

theorem bag_mem_bags {b : Nat} (inside : b < d.size) : d.bag b ∈ d.bags.toList := by
  have inside : b < d.bags.size := inside
  simp [bag, Array.getD_eq_getD_getElem?, inside]

theorem exists_bag_of_mem {bag : GateSet} (member : bag ∈ d.bags.toList) :
    ∃ b < d.size, d.bag b = bag := by
  obtain ⟨b, inside, found⟩ := Array.mem_iff_getElem.1 (Array.mem_toList_iff.1 member)
  exact ⟨b, inside, by simp [Decomposition.bag, Array.getD_eq_getD_getElem?, inside, found]⟩

/-- No bag is larger than the largest one. -/
theorem size_bag_le (d : Decomposition) (b : Nat) : (d.bag b).size ≤ d.largest := by
  by_cases inside : b < d.size
  · rw [largest_eq_foldl]
    exact (foldl_max_spec d.bags.toList 0).2.1 _ (bag_mem_bags inside)
  · have empty : ∀ gate, gate ∉ d.bag b := fun gate member => inside (lt_of_mem_bag member)
    rw [GateSet.size_eq_zero_iff.2 empty]
    exact Nat.zero_le _

/-- Some bag is as large as the largest one. -/
theorem exists_bag_largest (some_bag : 0 < d.size) : ∃ b < d.size, (d.bag b).size = d.largest := by
  rcases (foldl_max_spec d.bags.toList 0).2.2 with zero | ⟨bag, member, same⟩
  · have none : d.largest = 0 := (largest_eq_foldl d).trans zero
    have := d.size_bag_le 0
    exact ⟨0, some_bag, by omega⟩
  · obtain ⟨b, inside, found⟩ := exists_bag_of_mem member
    exact ⟨b, inside, by rw [found, same, largest_eq_foldl]⟩

theorem largest_le {most : Nat} (bound : ∀ b, (d.bag b).size ≤ most) : d.largest ≤ most := by
  by_cases some_bag : 0 < d.size
  · obtain ⟨b, _, same⟩ := exists_bag_largest some_bag
    exact same ▸ bound b
  · have none : d.bags.toList = [] := List.length_eq_zero_iff.1 (Nat.eq_zero_of_not_pos some_bag)
    rw [largest_eq_foldl, none]
    exact Nat.zero_le _

/-- The largest size is the one that no bag exceeds and some bag has. -/
theorem largest_eq_of {most b : Nat} (bound : ∀ b, (d.bag b).size ≤ most)
    (reached : (d.bag b).size = most) : d.largest = most :=
  Nat.le_antisymm (largest_le bound) (reached ▸ d.size_bag_le b)

/-! ## The check -/

theorem coversWire_of_mem {b x y : Nat} (left : x ∈ d.bag b) (right : y ∈ d.bag b) :
    d.coversWire x y = true := by
  refine Array.any_eq_true'.2 ⟨d.bag b, ?_, ?_⟩
  · exact Array.mem_toList_iff.1 (bag_mem_bags (lt_of_mem_bag left))
  · rw [Bool.and_eq_true]
    exact ⟨GateSet.contains_iff.2 left, GateSet.contains_iff.2 right⟩

/-- The check of a decomposition of a circuit passes. -/
theorem Decomposes.check_eq_ok (decomposes : d.Decomposes c) : d.check c = .ok () := by
  have tree := decomposes.tree
  have climbs : (List.range d.size).find? (fun b => d.parent b != b && !d.isBelowRoot b) = none := by
    refine List.find?_eq_none.2 fun b member => ?_
    simp [tree.isBelowRoot (List.mem_range.1 member)]
  have roots : (List.range d.size).filter (fun b => d.parent b == b) = [d.root] := by
    have same : (List.range d.size).filter (fun b => d.parent b == b) =
        (List.range d.size).filter (· == d.root) := by
      refine List.filter_congr fun b member => ?_
      rw [Bool.eq_iff_iff, beq_iff_eq, beq_iff_eq]
      exact tree.parent_eq_self_iff b (List.mem_range.1 member)
    rw [same, List.filter_beq, List.count_eq_one_of_mem List.nodup_range
      (List.mem_range.2 tree.root_lt)]
    rfl
  have covered : d.uncoveredWire? c = none := by
    refine List.find?_eq_none.2 fun wire member => ?_
    obtain ⟨gate, -, listed⟩ := List.mem_flatMap.1 member
    obtain ⟨child, wire, rfl⟩ := List.mem_map.1 listed
    obtain ⟨b, left, right⟩ := decomposes.covers gate child wire
    simp [coversWire_of_mem left right]
  unfold check
  simp only [climbs, roots, covered]
  rfl

/-! ## One bag -/

/-- One bag with both ends of all wires is a decomposition. -/
theorem decomposes_ofParents_singleton (bag : GateSet) (width : Nat)
    (held : ∀ gate, ∀ child ∈ c.children gate, gate ∈ bag ∧ child ∈ bag) :
    (ofParents [bag] [0] 0 width).Decomposes c := by
  have only : ∀ {b gate}, gate ∈ (ofParents [bag] [0] 0 width).bag b → b = 0 := by
    intro b gate member
    have inside := lt_of_mem_bag member
    rw [size_ofParents, List.length_singleton] at inside
    omega
  refine ⟨?_, fun gate child wire => ⟨0, held gate child wire⟩, fun gate => ?_⟩
  · refine isTree_ofParents _ _ _ _ rfl Nat.one_pos rfl fun b inside other => ?_
    rw [List.length_singleton] at inside
    omega
  · refine connected_of_hub 0 fun b member => ?_
    rw [only member]

end Provenance.Decomposition
