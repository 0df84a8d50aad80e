import Provenance.Proofs.Decomposition.Check
import Provenance.Proofs.Decomposition.Elimination
import Provenance.Proofs.Decomposition.Parents

/-!
# Elimination makes a tree decomposition

The bags of an elimination are those of the eliminated vertices and what is left.  The neighbours of a
vertex are in the bag of the one of them that goes first, for they are a clique when it goes, or all of
them are left and are in the last bag (`mem_bag_parent`).  So a gate of a bag is also in the bag above,
unless it was eliminated in this bag or the bag is the last one, and its bags are connected.  Two
neighbours of the graph are together in the bag of the one that goes first.
-/

namespace Provenance.Elimination

variable {initial : PrimalGraph} {maxWidth : Nat} {e : Elimination}

/-! ## Positions -/

/-- The table of positions finds each vertex where it was eliminated. -/
theorem getElem?_foldl_positions (done : List Eliminated)
    (nodup : (done.map Eliminated.vertex).Nodup) (gate position : Nat) :
    (done.zipIdx.foldl (fun (table : Std.TreeMap Nat Nat) (gone, position) =>
        table.insert gone.vertex position) ∅)[gate]? = some position ↔
      ∃ gone, done[position]? = some gone ∧ gone.vertex = gate := by
  induction done using List.reverseRecOn with
  | nil => simp
  | append_singleton done last ih =>
    rw [List.map_append] at nodup
    obtain ⟨nodup, _, new⟩ := List.nodup_append.1 nodup
    have new : ∀ gone ∈ done, gone.vertex ≠ last.vertex := fun gone member =>
      new gone.vertex (List.mem_map_of_mem member) last.vertex (by simp)
    rw [List.zipIdx_append, List.foldl_append]
    simp only [List.zipIdx_cons, List.zipIdx_nil, List.foldl_cons, List.foldl_nil, Nat.zero_add,
      Std.TreeMap.getElem?_insert, Nat.compare_eq_eq]
    by_cases same : last.vertex = gate
    · subst same
      rw [if_pos rfl, Option.some.injEq]
      constructor
      · rintro rfl
        exact ⟨last, by simp, rfl⟩
      · rintro ⟨gone, found, again⟩
        by_cases inside : position < done.length
        · rw [List.getElem?_append_left inside] at found
          exact absurd again (new gone (List.mem_of_getElem? found))
        · have := (List.getElem?_eq_some_iff.1 found).1
          simp only [List.length_append, List.length_singleton] at this
          omega
    · rw [if_neg same, ih nodup]
      refine exists_congr fun gone => and_congr_left fun found => ?_
      by_cases inside : position < done.length
      · rw [List.getElem?_append_left inside]
      · constructor
        · intro there
          exact absurd (List.getElem?_eq_some_iff.1 there).1 inside
        · intro there
          rw [List.getElem?_append_right (Nat.le_of_not_lt inside)] at there
          have : gone = last := by simpa using List.mem_of_getElem? there
          exact absurd (this ▸ found) same

theorem getElem?_positions (here : e.Eliminating initial maxWidth) (gate position : Nat) :
    e.positions[gate]? = some position ↔
      ∃ gone, e.done[position]? = some gone ∧ gone.vertex = gate := by
  rw [positions, getElem?_foldl_positions _ here.nodup]
  simp only [Array.getElem?_toList]

/-- The parent of the bag of a vertex is that of the neighbour that goes first, or the root when no
neighbour goes. -/
theorem parentOf_spec (here : e.Eliminating initial maxWidth) {position : Nat} (root : Nat)
    {gone : Eliminated} (found : e.done[position]? = some gone) :
    let parent := parentOf e.positions root gone
    (parent = root ∧ ∀ gate ∈ gone.neighbours, gate ∈ e.graph.vertices) ∨
      ∃ above, e.done[parent]? = some above ∧ position < parent ∧ above.vertex ∈ gone.neighbours ∧
        ∀ j after, e.done[j]? = some after → after.vertex ∈ gone.neighbours → parent ≤ j := by
  intro parent
  have taken : ∀ j, j ∈ gone.neighbours.toList.filterMap (fun gate => e.positions[gate]?) ↔
      ∃ after, e.done[j]? = some after ∧ after.vertex ∈ gone.neighbours := by
    intro j
    simp only [List.mem_filterMap, getElem?_positions here, GateSet.mem_def]
    constructor
    · rintro ⟨gate, member, after, there, rfl⟩
      exact ⟨after, there, member⟩
    · rintro ⟨after, there, member⟩
      exact ⟨after.vertex, member, after, there, rfl⟩
  cases least : (gone.neighbours.toList.filterMap fun gate => e.positions[gate]?).min? with
  | none =>
    refine Or.inl ⟨?_, fun gate member => ?_⟩
    · show parentOf e.positions root gone = root
      rw [parentOf, least, Option.getD_none]
    · refine (here.later position gone found gate member).resolve_right ?_
      rintro ⟨j, after, _, there, rfl⟩
      have := (taken j).2 ⟨after, there, member⟩
      rw [List.min?_eq_none_iff.1 least] at this
      exact List.not_mem_nil this
  | some first =>
    have same : parent = first := by
      show parentOf e.positions root gone = first
      rw [parentOf, least, Option.getD_some]
    obtain ⟨member, lower⟩ := List.min?_eq_some_iff.1 least
    obtain ⟨above, there, neighbour⟩ := (taken first).1 member
    refine Or.inr ⟨above, same ▸ there, ?_, neighbour, fun j after found member => ?_⟩
    · rcases here.later position gone found above.vertex neighbour with
        left | ⟨j, after, behind, at_j, vertex⟩
      · exact absurd left (here.gone above (Array.mem_of_getElem? there))
      · rw [same]
        have found_j : e.positions[above.vertex]? = some j :=
          (getElem?_positions here _ _).2 ⟨after, at_j, vertex⟩
        have found_first : e.positions[above.vertex]? = some first :=
          (getElem?_positions here _ _).2 ⟨above, there, rfl⟩
        rw [found_first, Option.some.injEq] at found_j
        omega
    · exact same ▸ lower j ((taken j).2 ⟨after, found, member⟩)

/-- A vertex is eliminated at one position. -/
theorem position_unique (here : e.Eliminating initial maxWidth) {i j : Nat} {left right : Eliminated}
    (at_i : e.done[i]? = some left) (at_j : e.done[j]? = some right)
    (same : left.vertex = right.vertex) : i = j := by
  have found_i := (getElem?_positions here left.vertex i).2 ⟨left, at_i, rfl⟩
  have found_j := (getElem?_positions here left.vertex j).2 ⟨right, at_j, same.symm⟩
  exact Option.some.inj (found_i.symm.trans found_j)

/-! ## Bags and parents -/

/-- The last bag is what is left, or nothing is left and it is that of the last vertex. -/
theorem root_cases (e : Elimination) :
    (e.decomposition.root = e.done.size ∧ e.bags.length = e.done.size + 1) ∨
      (e.decomposition.root + 1 = e.done.size ∧ e.bags.length = e.done.size ∧
        ∀ gate, gate ∉ e.graph.vertices) := by
  show (e.bags.length - 1 = _ ∧ _) ∨ (e.bags.length - 1 + 1 = _ ∧ _)
  simp only [bags]
  split
  · rename_i empty
    rw [Bool.and_eq_true, GateSet.isEmpty_iff] at empty
    obtain ⟨empty, some_bag⟩ := empty
    have positive : 0 < e.done.size := by
      rw [Array.size_pos_iff]
      rintro none
      simp [none] at some_bag
    refine Or.inr ⟨?_, by simp, empty⟩
    simp only [List.length_map, Array.length_toList]
    omega
  · exact Or.inl ⟨by simp, by simp⟩

theorem root_lt_bags (e : Elimination) : e.decomposition.root < e.bags.length := by
  rcases e.root_cases with ⟨root, length⟩ | ⟨root, length, _⟩ <;> omega

/-- The gates of a bag: those of an eliminated vertex, or what is left. -/
theorem mem_bag_decomposition {gate b : Nat} :
    gate ∈ e.decomposition.bag b ↔
      (∃ gone, e.done[b]? = some gone ∧ gate ∈ gone.bag) ∨
        (b = e.done.size ∧ gate ∈ e.graph.vertices) := by
  have first : gate ∈ ((e.done.toList.map Eliminated.bag)[b]?).getD ∅ ↔
      ∃ gone, e.done[b]? = some gone ∧ gate ∈ gone.bag := by
    rw [List.getElem?_map, Array.getElem?_toList]
    cases e.done[b]? <;> simp
  rw [decomposition, Decomposition.bag_ofParents, List.getD_eq_getElem?_getD]
  simp only [bags]
  split
  · rename_i empty
    rw [Bool.and_eq_true, GateSet.isEmpty_iff] at empty
    rw [first]
    exact ⟨Or.inl, fun there => there.resolve_right fun left => empty.1 gate left.2⟩
  · rw [← first, List.getElem?_append]
    simp only [List.length_map, Array.length_toList]
    by_cases inside : b < e.done.size
    · rw [if_pos inside]
      exact ⟨Or.inl, fun there => there.resolve_right fun left => Nat.ne_of_lt inside left.1⟩
    · have outside : (e.done.toList.map Eliminated.bag)[b]? = none := by simpa using inside
      rw [if_neg inside, outside]
      by_cases last : b = e.done.size
      · simp [last]
      · have beyond : b - e.done.size ≠ 0 := by omega
        cases position : b - e.done.size with
        | zero => exact absurd position beyond
        | succ _ => simp [last]

/-- The parents of the bags as a list. -/
theorem parent_decomposition (e : Elimination) (b : Nat) :
    e.decomposition.parent b =
      match e.done[b]? with
      | some gone => parentOf e.positions e.decomposition.root gone
      | none => if b < e.bags.length then e.decomposition.root else b := by
  show (Decomposition.ofParents _ _ _ _).parent b = _
  rw [Decomposition.parent_ofParents, List.getD_eq_getElem?_getD, List.getElem?_append,
    List.getElem?_map, Array.getElem?_toList, List.length_map, Array.length_toList]
  by_cases inside : b < e.done.size
  · rw [if_pos inside, Array.getElem?_eq_getElem inside]
    rfl
  · rw [if_neg inside, Array.getElem?_eq_none (Nat.le_of_not_lt inside), List.getElem?_replicate]
    have same : b - e.done.size < e.bags.length - e.done.size ↔ b < e.bags.length := by omega
    simp only [same]
    split <;> rfl

/-- The neighbours of a vertex are in the bag above its own. -/
theorem mem_bag_parent (here : e.Eliminating initial maxWidth) {b : Nat} {gone : Eliminated}
    (found : e.done[b]? = some gone) (other : b ≠ e.decomposition.root) :
    b < e.decomposition.parent b ∧ e.decomposition.parent b < e.bags.length ∧
      ∀ gate ∈ gone.neighbours, gate ∈ e.decomposition.bag (e.decomposition.parent b) := by
  have inside : b < e.done.size := (Array.getElem?_eq_some_iff.1 found).1
  have parent : e.decomposition.parent b = parentOf e.positions e.decomposition.root gone := by
    rw [parent_decomposition, found]
  rw [parent]
  rcases parentOf_spec here e.decomposition.root found with
    ⟨root, left⟩ | ⟨above, there, higher, neighbour, least⟩
  · rw [root]
    rcases e.root_cases with ⟨last, length⟩ | ⟨last, length, empty⟩
    · exact ⟨by omega, by omega, fun gate member =>
        mem_bag_decomposition.2 (Or.inr ⟨last, left gate member⟩)⟩
    · exact ⟨by omega, by omega, fun gate member => absurd (left gate member) (empty gate)⟩
  · have below : parentOf e.positions e.decomposition.root gone < e.done.size :=
      (Array.getElem?_eq_some_iff.1 there).1
    refine ⟨higher, ?_, fun gate member => mem_bag_decomposition.2 (Or.inl ⟨above, there, ?_⟩)⟩
    · rcases e.root_cases with ⟨_, length⟩ | ⟨_, length, _⟩ <;> omega
    · rw [Eliminated.bag, GateSet.mem_insert]
      by_cases same : gate = above.vertex
      · exact Or.inl same
      · have absent := here.gone above (Array.mem_of_getElem? there)
        rcases here.cliques gone (Array.mem_of_getElem? found) above.vertex neighbour gate member
          (Ne.symm same) with edge | ⟨first, listed, ⟨vertex, noted⟩ | ⟨vertex, noted⟩⟩
        · exact absurd (here.simple.mem_vertices _ _ (here.simple.symm _ _ edge)) absent
        · obtain ⟨i, at_i⟩ := Array.getElem?_of_mem listed
          rw [← position_unique here at_i there vertex, at_i] at there
          obtain rfl := Option.some.inj there
          exact Or.inr noted
        · -- the vertex of the bag above would go after a neighbour that is not before it
          obtain ⟨i, at_i⟩ := Array.getElem?_of_mem listed
          have late := least i first at_i (vertex ▸ member)
          rcases here.later i first at_i above.vertex noted with left | ⟨j, after, behind, at_j, again⟩
          · exact absurd left absent
          · have := position_unique here at_j there again
            omega

/-- When nothing is left the last vertex had no neighbours. -/
theorem neighbours_last (here : e.Eliminating initial maxWidth) {b : Nat} {gone : Eliminated}
    (found : e.done[b]? = some gone) (root : b = e.decomposition.root) (gate : Nat) :
    gate ∉ gone.neighbours := by
  intro member
  have inside : b < e.done.size := (Array.getElem?_eq_some_iff.1 found).1
  rcases e.root_cases with ⟨last, _⟩ | ⟨last, _, empty⟩
  · omega
  · rcases here.later b gone found gate member with left | ⟨j, after, behind, at_j, _⟩
    · exact empty gate left
    · have := (Array.getElem?_eq_some_iff.1 at_j).1
      omega

theorem parent_root_decomposition (here : e.Eliminating initial maxWidth) :
    e.decomposition.parent e.decomposition.root = e.decomposition.root := by
  rw [parent_decomposition]
  cases found : e.done[e.decomposition.root]? with
  | none => exact ite_self _
  | some gone =>
    rcases parentOf_spec here e.decomposition.root found with
      ⟨root, _⟩ | ⟨above, _, _, neighbour, _⟩
    · exact root
    · exact absurd neighbour (neighbours_last here found rfl above.vertex)

/-! ## The decomposition -/

/-- The parents come behind their children and make a tree. -/
theorem isTree_decomposition (here : e.Eliminating initial maxWidth) :
    e.decomposition.IsTree := by
  refine Decomposition.isTree_ofParents _ _ _ _ ?_ e.root_lt_bags ?_ fun b inside other => ?_
  · rw [List.length_append, List.length_replicate, List.length_map, Array.length_toList]
    rcases e.root_cases with ⟨_, length⟩ | ⟨_, length, _⟩ <;> omega
  · rw [← Decomposition.parent_ofParents e.bags _ (e.bags.length - 1)]
    exact parent_root_decomposition here
  · rw [← Decomposition.parent_ofParents e.bags _ (e.bags.length - 1)]
    have eliminated : b < e.done.size := by
      have other : b ≠ e.decomposition.root := other
      rcases e.root_cases with ⟨_, length⟩ | ⟨_, length, _⟩ <;> omega
    have up := mem_bag_parent here (Array.getElem?_eq_getElem eliminated) other
    exact ⟨up.1, up.2.1⟩

/-- The bags of a gate lead to the bag where it was eliminated, or to the last bag. -/
theorem connected_decomposition (here : e.Eliminating initial maxWidth) (gate : Nat) :
    e.decomposition.Connected gate := by
  have climb : ∀ b gone, e.done[b]? = some gone → gate ∈ gone.neighbours →
      b < e.decomposition.parent b ∧ gate ∈ e.decomposition.bag (e.decomposition.parent b) := by
    intro b gone found neighbour
    have up := mem_bag_parent here found fun root => neighbours_last here found root gate neighbour
    exact ⟨up.1, up.2.2 gate neighbour⟩
  by_cases eliminated : ∃ (i : Nat) (gone : Eliminated), e.done[i]? = some gone ∧ gone.vertex = gate
  · obtain ⟨hub, last, at_hub, vertex⟩ := eliminated
    refine Decomposition.connected_of_climb hub fun b member other => ?_
    rcases mem_bag_decomposition.1 member with ⟨gone, found, held⟩ | ⟨_, left⟩
    · refine climb b gone found ((GateSet.mem_insert.1 held).resolve_left fun same => other ?_)
      exact position_unique here found at_hub (same.symm.trans vertex.symm)
    · exact absurd (vertex ▸ left) (here.gone last (Array.mem_of_getElem? at_hub))
  · refine Decomposition.connected_of_climb e.done.size fun b member other => ?_
    rcases mem_bag_decomposition.1 member with ⟨gone, found, held⟩ | ⟨last, _⟩
    · refine climb b gone found ((GateSet.mem_insert.1 held).resolve_left fun same => ?_)
      exact eliminated ⟨b, gone, found, same.symm⟩
    · exact absurd last other

/-- The bags hold the vertices of the graph. -/
theorem mem_bags_decomposition (here : e.Eliminating initial maxWidth) (gate : Nat) :
    (∃ b, gate ∈ e.decomposition.bag b) ↔ gate ∈ initial.vertices := by
  simp only [mem_bag_decomposition, here.vertices gate]
  constructor
  · rintro ⟨b, ⟨gone, found, held⟩ | ⟨_, left⟩⟩
    · rcases GateSet.mem_insert.1 held with same | neighbour
      · exact Or.inr ⟨gone, Array.mem_of_getElem? found, same.symm⟩
      · rcases here.later b gone found gate neighbour with left | ⟨j, after, _, at_j, vertex⟩
        · exact Or.inl left
        · exact Or.inr ⟨after, Array.mem_of_getElem? at_j, vertex⟩
    · exact Or.inl left
  · rintro (left | ⟨gone, member, same⟩)
    · exact ⟨e.done.size, Or.inr ⟨rfl, left⟩⟩
    · obtain ⟨b, found⟩ := Array.getElem?_of_mem member
      exact ⟨b, Or.inl ⟨gone, found, GateSet.mem_insert.2 (Or.inl same.symm)⟩⟩

/-- Joined gates are together in a bag. -/
theorem exists_bag_of_joined (here : e.Eliminating initial maxWidth) {a b : Nat}
    (joined : e.Joined a b) : ∃ i, a ∈ e.decomposition.bag i ∧ b ∈ e.decomposition.bag i := by
  simp only [mem_bag_decomposition]
  rcases joined with edge | ⟨gone, member, noted⟩
  · have left := here.simple.mem_vertices _ _ (here.simple.symm _ _ edge)
    exact ⟨_, Or.inr ⟨rfl, left⟩, Or.inr ⟨rfl, here.simple.mem_vertices _ _ edge⟩⟩
  · obtain ⟨i, found⟩ := Array.getElem?_of_mem member
    have vertex : gone.vertex ∈ gone.bag := GateSet.mem_insert.2 (Or.inl rfl)
    have others : ∀ gate ∈ gone.neighbours, gate ∈ gone.bag := fun gate neighbour =>
      GateSet.mem_insert.2 (Or.inr neighbour)
    rcases noted with ⟨rfl, neighbour⟩ | ⟨rfl, neighbour⟩
    · exact ⟨i, Or.inl ⟨gone, found, vertex⟩, Or.inl ⟨gone, found, others b neighbour⟩⟩
    · exact ⟨i, Or.inl ⟨gone, found, others a neighbour⟩, Or.inl ⟨gone, found, vertex⟩⟩

/-- No bag is larger than allowed, what is left at the end not being larger than another bag. -/
theorem size_bag_decomposition (here : e.Eliminating initial maxWidth)
    (small : e.graph.vertexCount ≤ e.largest) (b : Nat) :
    (e.decomposition.bag b).size ≤ maxWidth + 1 := by
  refine Nat.le_trans ?_ here.largest_le
  by_cases eliminated : b < e.done.size
  · have same : e.decomposition.bag b = e.done[b].bag := by
      refine GateSet.ext fun gate => ?_
      rw [mem_bag_decomposition, Array.getElem?_eq_getElem eliminated]
      have apart : b ≠ e.done.size := Nat.ne_of_lt eliminated
      simp [apart]
    rw [same]
    exact here.bag_le _ (Array.getElem_mem eliminated)
  · rw [PrimalGraph.vertexCount_eq_size] at small
    refine (GateSet.size_le_size fun gate member => ?_).trans small
    rcases mem_bag_decomposition.1 member with ⟨gone, found, _⟩ | ⟨_, left⟩
    · exact absurd (Array.getElem?_eq_some_iff.1 found).1 eliminated
    · exact left

/-- The width is noted from the largest bag. -/
theorem width_decomposition (e : Elimination) :
    e.decomposition.width = e.decomposition.largest - 1 := by
  rw [Decomposition.largest_eq_foldl]
  rfl

end Provenance.Elimination

namespace Provenance.Circuit

variable {α : Type} {c : Circuit α}

/-- Elimination yields a tree decomposition, unless a wire has an undetermined end: the bags hold the
gates that are defined, no bag is larger than allowed, the width is one less than the size of the
largest bag, and the check passes. -/
theorem decompose_spec {maxWidth : Nat} {d : Decomposition}
    (defined : ∀ gate, ∀ child ∈ c.children gate,
      c.kind gate ≠ .undetermined ∧ c.kind child ≠ .undetermined)
    (made : c.decompose maxWidth = .ok d) :
    d.Decomposes c ∧
      (∀ gate, (∃ b, gate ∈ d.bag b) ↔ c.kind gate ≠ .undetermined) ∧
      (∀ b, (d.bag b).size ≤ maxWidth + 1) ∧
      (∃ b < d.size, d.width = (d.bag b).size - 1 ∧ ∀ other, (d.bag other).size ≤ (d.bag b).size) ∧
      d.check c = .ok () := by
  obtain ⟨e, ran, rfl⟩ : ∃ e, Elimination.run maxWidth (PrimalGraph.ofCircuit c).vertexCount
      (.start (PrimalGraph.ofCircuit c)) = .ok e ∧ e.decomposition = d := by
    unfold decompose at made
    cases ran : Elimination.run maxWidth (PrimalGraph.ofCircuit c).vertexCount
        (.start (PrimalGraph.ofCircuit c)) with
    | error failure => simp [ran, Except.map] at made
    | ok e => exact ⟨e, rfl, by simpa [ran, Except.map] using made⟩
  obtain ⟨here, small⟩ := Elimination.run_spec
    (Elimination.eliminating_start (PrimalGraph.simple_ofCircuit c) maxWidth) (Nat.le_refl _) ran
  have held : ∀ gate, (∃ b, gate ∈ e.decomposition.bag b) ↔ c.kind gate ≠ .undetermined :=
    fun gate => (Elimination.mem_bags_decomposition here gate).trans PrimalGraph.mem_vertices_ofCircuit
  have decomposes : e.decomposition.Decomposes c := by
    refine ⟨Elimination.isTree_decomposition here, fun gate child wire => ?_,
      Elimination.connected_decomposition here⟩
    obtain ⟨left, right⟩ := defined gate child wire
    by_cases loop : gate = child
    · obtain ⟨b, member⟩ := (held gate).2 left
      exact ⟨b, member, loop ▸ member⟩
    · refine Elimination.exists_bag_of_joined here (here.edges gate child ?_)
      exact (PrimalGraph.mem_neighbours_ofCircuit left right).2 ⟨loop, Or.inl wire⟩
  have some_bag := Nat.zero_lt_of_lt decomposes.tree.root_lt
  obtain ⟨b, inside, largest⟩ := Decomposition.exists_bag_largest some_bag
  refine ⟨decomposes, held, Elimination.size_bag_decomposition here small, ⟨b, inside, ?_, ?_⟩,
    decomposes.check_eq_ok⟩
  · rw [largest]
    exact e.width_decomposition
  · intro other
    rw [largest]
    exact e.decomposition.size_bag_le other

/-- The conjunction of two inputs has a decomposition into two bags. -/
theorem decompose_conjunction : ∃ d, conjunction.decompose 1 = .ok d ∧ d.size = 2 ∧
    d.Decomposes conjunction ∧ d.check conjunction = .ok () := by
  have defined : ∀ gate, ∀ child ∈ conjunction.children gate,
      conjunction.kind gate ≠ .undetermined ∧ conjunction.kind child ≠ .undetermined := by
    suffices ∀ gate < 3, ∀ child ∈ conjunction.children gate,
        conjunction.kind gate ≠ .undetermined ∧ conjunction.kind child ≠ .undetermined from
      fun gate child wire => this gate (Network.lt_of_wire wire) child wire
    decide
  obtain ⟨decomposes, _, _, _, checked⟩ := decompose_spec defined
    (rfl : conjunction.decompose 1 = _)
  exact ⟨_, rfl, rfl, decomposes, checked⟩

end Provenance.Circuit
