import Provenance.PrimalGraph
import Provenance.Proofs.Circuit.InStep
import Provenance.Proofs.GateSet

/-!
# Primal graphs are simple

Edges are noted at both ends, no vertex is its own neighbour and neighbours are vertices (`Simple`).
Each operation keeps this and says who is a vertex and who is a neighbour afterwards.  Main statements:
`mem_vertices_eliminate` and `mem_neighbours_eliminate` for the elimination of a vertex, and
`mem_vertices_ofCircuit` and `mem_neighbours_ofCircuit` for the graph of a circuit.
-/

namespace Provenance.PrimalGraph

variable {graph : PrimalGraph}

/-- Edges have two different ends, are noted at both and join vertices. -/
structure Simple (graph : PrimalGraph) : Prop where
  symm : ∀ a b, b ∈ graph.neighbours a → a ∈ graph.neighbours b
  irrefl : ∀ a, a ∉ graph.neighbours a
  mem_vertices : ∀ a b, b ∈ graph.neighbours a → b ∈ graph.vertices

theorem mem_vertices_iff {gate : Nat} : gate ∈ graph.vertices ↔ gate ∈ graph.adjacency := by
  simp [vertices]

/-- The vertices are counted once each. -/
theorem vertexCount_eq_size (graph : PrimalGraph) : graph.vertexCount = graph.vertices.size := by
  rw [vertices, GateSet.size_ofList Std.TreeMap.nodup_keys, Std.TreeMap.length_keys, vertexCount]

/-- What is no vertex has no neighbours. -/
theorem not_mem_neighbours {gate other : Nat} (absent : gate ∉ graph.vertices) :
    other ∉ graph.neighbours gate := by
  rw [mem_vertices_iff] at absent
  rw [neighbours, Std.TreeMap.getD_eq_fallback absent]
  exact GateSet.not_mem_emptyCollection

theorem simple_empty : empty.Simple where
  symm a b member := absurd member (not_mem_neighbours (by simp [mem_vertices_iff, empty]))
  irrefl a := not_mem_neighbours (by simp [mem_vertices_iff, empty])
  mem_vertices a b member := absurd member (not_mem_neighbours (by simp [mem_vertices_iff, empty]))

/-! ## Adding -/

@[simp] theorem mem_vertices_addVertex {gate other : Nat} :
    other ∈ (graph.addVertex gate).vertices ↔ other = gate ∨ other ∈ graph.vertices := by
  rw [mem_vertices_iff, mem_vertices_iff, addVertex, Std.TreeMap.mem_insert, Nat.compare_eq_eq,
    eq_comm]

@[simp] theorem mem_vertices_addHalfEdge {a b other : Nat} :
    other ∈ (graph.addHalfEdge a b).vertices ↔ other = a ∨ other ∈ graph.vertices := by
  rw [mem_vertices_iff, mem_vertices_iff, addHalfEdge, Std.TreeMap.mem_insert, Nat.compare_eq_eq,
    eq_comm]

theorem mem_vertices_addEdge {a b other : Nat} :
    other ∈ (graph.addEdge a b).vertices ↔
      other ∈ graph.vertices ∨ a ≠ b ∧ (other = a ∨ other = b) := by
  unfold addEdge
  split
  · simp_all
  · simp only [mem_vertices_addHalfEdge]
    grind

theorem mem_vertices_addEdges {gate other : Nat} {others : List Nat} :
    other ∈ (graph.addEdges gate others).vertices ↔
      other ∈ graph.vertices ∨ ∃ end_ ∈ others, gate ≠ end_ ∧ (other = gate ∨ other = end_) := by
  unfold addEdges
  induction others generalizing graph with
  | nil => simp
  | cons first others ih =>
    rw [List.foldl_cons, ih, mem_vertices_addEdge]
    simp only [List.mem_cons, exists_eq_or_imp, or_assoc]

/-- Joining vertices with each other adds no vertices. -/
theorem mem_vertices_joinAll {gates : List Nat} (inside : ∀ gate ∈ gates, gate ∈ graph.vertices)
    {other : Nat} : other ∈ (graph.joinAll gates).vertices ↔ other ∈ graph.vertices := by
  induction gates generalizing graph with
  | nil => rfl
  | cons first gates ih =>
    have first_inside := inside first (by simp)
    have same : ∀ other, other ∈ (graph.addEdges first gates).vertices ↔ other ∈ graph.vertices := by
      intro other
      rw [mem_vertices_addEdges]
      constructor
      · rintro (there | ⟨end_, member, _, rfl | rfl⟩)
        · exact there
        · exact first_inside
        · exact inside other (by simp [member])
      · exact Or.inl
    rw [joinAll, ih fun gate member => (same gate).2 (inside gate (by simp [member])), same]

theorem Simple.addVertex (simple : graph.Simple) (gate : Nat) : (graph.addVertex gate).Simple where
  symm a b := by
    rw [neighbours_addVertex, neighbours_addVertex]
    exact simple.symm a b
  irrefl a := by
    rw [neighbours_addVertex]
    exact simple.irrefl a
  mem_vertices a b := by
    rw [neighbours_addVertex, mem_vertices_addVertex]
    exact fun member => Or.inr (simple.mem_vertices a b member)

theorem Simple.addEdges (simple : graph.Simple) (gate : Nat) (others : List Nat) :
    (graph.addEdges gate others).Simple where
  symm a b := by
    have := simple.symm a b
    simp only [mem_neighbours_addEdges]
    grind
  irrefl a := by
    have := simple.irrefl a
    simp only [mem_neighbours_addEdges]
    grind
  mem_vertices a b := by
    have := simple.mem_vertices a b
    simp only [mem_neighbours_addEdges, mem_vertices_addEdges]
    grind

/-! ## Removing -/

/-- Taking a gate out of the sets at some keys. -/
theorem getD_foldl_modify (table : Std.TreeMap Nat GateSet) (gate : Nat) (keys : List Nat)
    (other member : Nat) :
    member ∈ (keys.foldl (fun table key => table.modify key (·.erase gate)) table).getD other ∅ ↔
      member ∈ table.getD other ∅ ∧ ¬ (other ∈ keys ∧ member = gate) := by
  induction keys generalizing table with
  | nil => simp
  | cons key keys ih =>
    have first : member ∈ (table.modify key (·.erase gate)).getD other ∅ ↔
        member ∈ table.getD other ∅ ∧ ¬ (other = key ∧ member = gate) := by
      simp only [Std.TreeMap.getD_modify, Nat.compare_eq_eq]
      by_cases same : key = other
      · subst same
        rw [if_pos rfl, Std.TreeMap.getD_eq_getD_getElem?]
        cases table[key]? <;> simp
      · rw [if_neg same]
        simp [Ne.symm same]
    rw [List.foldl_cons, ih, first]
    grind

theorem mem_foldl_modify (table : Std.TreeMap Nat GateSet) (gate : Nat) (keys : List Nat)
    (other : Nat) :
    other ∈ keys.foldl (fun table key => table.modify key (·.erase gate)) table ↔
      other ∈ table := by
  induction keys generalizing table with
  | nil => rfl
  | cons key keys ih => rw [List.foldl_cons, ih, Std.TreeMap.mem_modify]

@[simp] theorem mem_vertices_removeVertex {gate other : Nat} :
    other ∈ (graph.removeVertex gate).vertices ↔ other ∈ graph.vertices ∧ other ≠ gate := by
  rw [mem_vertices_iff, mem_vertices_iff, removeVertex, Std.TreeMap.mem_erase, mem_foldl_modify,
    and_comm, ne_eq, Nat.compare_eq_eq, eq_comm]

/-- The edges of a removed vertex are gone and the others stay. -/
theorem mem_neighbours_removeVertex (simple : graph.Simple) {gate a b : Nat} :
    b ∈ (graph.removeVertex gate).neighbours a ↔ b ∈ graph.neighbours a ∧ a ≠ gate ∧ b ≠ gate := by
  rw [neighbours, removeVertex]
  simp only [Std.TreeMap.getD_erase, Nat.compare_eq_eq]
  by_cases same : gate = a
  · simp [same]
  · rw [if_neg same, getD_foldl_modify]
    have edge : b ∈ graph.neighbours a → b = gate → a ∈ graph.neighbours gate := by
      rintro member rfl
      exact simple.symm a b member
    constructor
    · rintro ⟨member, kept⟩
      exact ⟨member, Ne.symm same, fun this => kept ⟨edge member this, this⟩⟩
    · rintro ⟨member, _, other⟩
      exact ⟨member, fun gone => other gone.2⟩

/-! ## Elimination of a vertex -/

section Eliminate

variable (simple : graph.Simple) {gate : Nat}

include simple

/-- The neighbours of a removed vertex are still vertices. -/
theorem mem_vertices_of_neighbour {other : Nat} (member : other ∈ graph.neighbours gate) :
    other ∈ (graph.removeVertex gate).vertices := by
  rw [mem_vertices_removeVertex]
  refine ⟨simple.mem_vertices gate other member, ?_⟩
  rintro rfl
  exact simple.irrefl other member

theorem mem_vertices_eliminate {other : Nat} :
    other ∈ (graph.eliminate gate).vertices ↔ other ∈ graph.vertices ∧ other ≠ gate := by
  rw [eliminate, fill,
    mem_vertices_joinAll fun other member => mem_vertices_of_neighbour simple member,
    mem_vertices_removeVertex]

/-- Two vertices are neighbours after an elimination when they were before or both were neighbours
of the vertex that is gone. -/
theorem mem_neighbours_eliminate {a b : Nat} :
    b ∈ (graph.eliminate gate).neighbours a ↔
      a ≠ gate ∧ b ≠ gate ∧
        (b ∈ graph.neighbours a ∨
          a ≠ b ∧ a ∈ graph.neighbours gate ∧ b ∈ graph.neighbours gate) := by
  rw [eliminate, mem_neighbours_fill, mem_neighbours_removeVertex simple]
  have := simple.irrefl gate
  grind

theorem Simple.eliminate (gate : Nat) : (graph.eliminate gate).Simple where
  symm a b := by
    rw [mem_neighbours_eliminate simple, mem_neighbours_eliminate simple]
    have := simple.symm a b
    grind
  irrefl a := by
    rw [mem_neighbours_eliminate simple]
    have := simple.irrefl a
    grind
  mem_vertices a b := by
    rw [mem_neighbours_eliminate simple, mem_vertices_eliminate simple]
    have := simple.mem_vertices a b
    have := simple.mem_vertices gate b
    grind

/-- An elimination takes one vertex away. -/
theorem vertexCount_eliminate (member : gate ∈ graph.vertices) :
    (graph.eliminate gate).vertexCount + 1 = graph.vertexCount := by
  have same : (graph.eliminate gate).vertices = graph.vertices.erase gate :=
    GateSet.ext fun other => by rw [mem_vertices_eliminate simple, GateSet.mem_erase]
  rw [vertexCount_eq_size, vertexCount_eq_size, same, GateSet.size_erase member]

end Eliminate

/-! ## The graph of a circuit -/

variable {α : Type} {c : Circuit α}

/-- The graph of the first gates of a circuit. -/
theorem ofCircuit_spec (c : Circuit α) (count : Nat) :
    let graph := (List.range count).foldl (addGate c) empty
    graph.Simple ∧
      (∀ gate, gate ∈ graph.vertices ↔ c.kind gate ≠ .undetermined ∧
        (gate < count ∨ ∃ parent < count, c.kind parent ≠ .undetermined ∧
          gate ∈ c.children parent)) ∧
      ∀ a b, b ∈ graph.neighbours a ↔ a ≠ b ∧ c.kind a ≠ .undetermined ∧
        c.kind b ≠ .undetermined ∧
          ((a < count ∧ b ∈ c.children a) ∨ (b < count ∧ a ∈ c.children b)) := by
  induction count with
  | zero =>
    refine ⟨simple_empty, fun gate => ?_, fun a b => ?_⟩
    · simp [mem_vertices_iff, empty]
    · have : b ∉ empty.neighbours a := not_mem_neighbours (by simp [mem_vertices_iff, empty])
      simpa using this
  | succ count ih =>
    obtain ⟨simple, vertices, neighbours⟩ := ih
    rw [List.range_succ, List.foldl_append]
    simp only [List.foldl_cons, List.foldl_nil]
    generalize (List.range count).foldl (addGate c) empty = graph at simple vertices neighbours
    rw [addGate]
    split
    · rename_i undetermined
      refine ⟨simple, fun gate => ?_, fun a b => ?_⟩
      · rw [vertices]
        grind
      · rw [neighbours]
        grind
    · rename_i defined
      refine ⟨(simple.addVertex count).addEdges count _, fun gate => ?_, fun a b => ?_⟩
      · rw [mem_vertices_addEdges, mem_vertices_addVertex, vertices]
        simp only [List.mem_filter, bne_iff_ne]
        grind
      · rw [mem_neighbours_addEdges, neighbours_addVertex, neighbours]
        simp only [List.mem_filter, bne_iff_ne]
        grind

theorem simple_ofCircuit (c : Circuit α) : (ofCircuit c).Simple := (ofCircuit_spec c c.size).1

/-- The vertices are the gates that are defined. -/
theorem mem_vertices_ofCircuit {gate : Nat} :
    gate ∈ (ofCircuit c).vertices ↔ c.kind gate ≠ .undetermined := by
  have spec := (ofCircuit_spec c c.size).2.1 gate
  refine Iff.trans spec ⟨And.left, fun defined => ⟨defined, Or.inl ?_⟩⟩
  by_contra outside
  exact defined (Circuit.kind_of_le (Nat.le_of_not_lt outside))

/-- Two gates are neighbours when a wire joins them, both being defined. -/
theorem mem_neighbours_ofCircuit {a b : Nat} (left : c.kind a ≠ .undetermined)
    (right : c.kind b ≠ .undetermined) :
    b ∈ (ofCircuit c).neighbours a ↔ a ≠ b ∧ (b ∈ c.children a ∨ a ∈ c.children b) := by
  have inside : ∀ {gate}, c.kind gate ≠ .undetermined → gate < c.size := by
    intro gate defined
    by_contra outside
    exact defined (Circuit.kind_of_le (Nat.le_of_not_lt outside))
  have spec := (ofCircuit_spec c c.size).2.2 a b
  refine Iff.trans spec ?_
  simp [left, right, inside left, inside right]

end Provenance.PrimalGraph
