import Provenance.Decomposition.Queue
import Provenance.Proofs.PrimalGraph

/-!
# The queue names the next vertex

The order of the vertices and the table of their degrees say the same about each vertex (`Consistent`): a
vertex whose degree is noted again gives up its former place, so no place is left behind.  The queue is in
step with a graph when it holds the vertices with their degrees (`Synced`).  It stays so when a vertex is
eliminated, although only the neighbours of the vertex get new degrees.  A queue in step names a vertex of
least degree, and of those the one of highest index, or none when the graph has none (`Synced.next?`).
-/

namespace Provenance

/-! ## The order of ranks -/

instance : Std.TransCmp rankOrder where
  eq_swap {first second} := by
    simp only [rankOrder, Ordering.swap_then, Nat.compare_swap]
  isLE_trans {first second third} := by
    simp only [rankOrder, Ordering.isLE_then_iff_and, Nat.isLE_compare, Nat.compare_eq_lt]
    omega

instance : Std.LawfulEqCmp rankOrder where
  compare_self := by simp [rankOrder]
  eq_of_compare {first second} same := by
    simp only [rankOrder, Ordering.then_eq_eq, Nat.compare_eq_eq] at same
    exact Prod.ext same.1 same.2.symm

/-- A rank is not behind another when its degree is lower, or the degree is the same and its vertex has
no lower index. -/
theorem isLE_rankOrder {first second : Nat × Nat} : (rankOrder first second).isLE = true ↔
    first.1 < second.1 ∨ first.1 = second.1 ∧ second.2 ≤ first.2 := by
  simp only [rankOrder, Ordering.isLE_then_iff_and, Nat.isLE_compare, Nat.compare_eq_lt]
  omega

namespace EliminationQueue

variable {queue : EliminationQueue} {graph : PrimalGraph}

/-! ## The degrees in the table -/

theorem getElem?_remove (queue : EliminationQueue) (gate vertex : Nat) :
    (queue.remove gate).degrees[vertex]? =
      if gate = vertex then none else queue.degrees[vertex]? := by
  unfold remove
  cases noted : queue.degrees[gate]? with
  | none =>
    by_cases same : gate = vertex
    · simp [← same, noted]
    · simp [same]
  | some old => simp [Std.TreeMap.getElem?_erase]

theorem getElem?_note (queue : EliminationQueue) (gate degree vertex : Nat) :
    (queue.note gate degree).degrees[vertex]? =
      if gate = vertex then some degree else queue.degrees[vertex]? := by
  simp only [note, Std.TreeMap.getElem?_insert, getElem?_remove, Std.compare_eq_iff_eq]
  split <;> rfl

theorem getElem?_update (queue : EliminationQueue) (graph : PrimalGraph) (gates : List Nat)
    (gate : Nat) :
    (queue.update graph gates).degrees[gate]? =
      if gate ∈ gates then some (graph.degree gate) else queue.degrees[gate]? := by
  unfold update
  induction gates generalizing queue with
  | nil => simp
  | cons first gates ih =>
    rw [List.foldl_cons, ih, getElem?_note]
    by_cases later : gate ∈ gates
    · simp [later]
    · by_cases same : first = gate
      · simp [same]
      · simp [later, same, Ne.symm same]

/-! ## The order and the table -/

/-- The order and the table hold the same vertices with the same degrees. -/
def Consistent (queue : EliminationQueue) : Prop :=
  ∀ degree gate, (degree, gate) ∈ queue.ranks ↔ queue.degrees[gate]? = some degree

theorem consistent_empty : empty.Consistent := by
  intro degree gate
  simp [empty]

theorem Consistent.remove (consistent : queue.Consistent) (gate : Nat) :
    (queue.remove gate).Consistent := by
  intro degree vertex
  have before := consistent degree vertex
  unfold EliminationQueue.remove
  cases noted : queue.degrees[gate]? with
  | none => exact before
  | some old =>
    simp only [Std.TreeSet.mem_erase, Std.TreeMap.getElem?_erase, Std.compare_eq_iff_eq]
    by_cases same : gate = vertex
    · subst same
      simp [before, noted]
    · simp [before, same]

/-- A vertex that is noted again leaves its former place. -/
theorem Consistent.note (consistent : queue.Consistent) (gate degree : Nat) :
    (queue.note gate degree).Consistent := by
  intro other vertex
  simp only [EliminationQueue.note, Std.TreeSet.mem_insert, Std.TreeMap.getElem?_insert,
    Std.compare_eq_iff_eq, consistent.remove gate other vertex, getElem?_remove]
  by_cases same : gate = vertex <;> simp [same]

theorem Consistent.update (consistent : queue.Consistent) (graph : PrimalGraph) (gates : List Nat) :
    (queue.update graph gates).Consistent := by
  unfold EliminationQueue.update
  induction gates generalizing queue with
  | nil => exact consistent
  | cons gate gates ih => exact ih (consistent.note gate (graph.degree gate))

/-! ## In step with a graph -/

/-- The vertices of a graph wait, each with its degree. -/
structure Synced (queue : EliminationQueue) (graph : PrimalGraph) : Prop where
  consistent : queue.Consistent
  degrees : ∀ gate,
    queue.degrees[gate]? = if gate ∈ graph.vertices then some (graph.degree gate) else none

/-- The ranks of a queue in step are the vertices with their degrees. -/
theorem Synced.mem_ranks (synced : queue.Synced graph) {degree gate : Nat} :
    (degree, gate) ∈ queue.ranks ↔ gate ∈ graph.vertices ∧ degree = graph.degree gate := by
  rw [synced.consistent, synced.degrees]
  grind

theorem synced_ofGraph (graph : PrimalGraph) : (ofGraph graph).Synced graph where
  consistent := consistent_empty.update graph _
  degrees gate := by
    rw [ofGraph, getElem?_update]
    simp [empty, PrimalGraph.mem_vertices_iff]

/-- The queue stays in step with the graph when a vertex is eliminated: only its neighbours get new
degrees. -/
theorem Synced.eliminate (synced : queue.Synced graph) (simple : graph.Simple) (vertex : Nat) :
    ((queue.remove vertex).update (graph.eliminate vertex) (graph.neighbours vertex).toList).Synced
      (graph.eliminate vertex) where
  consistent := (synced.consistent.remove vertex).update _ _
  degrees gate := by
    rw [getElem?_update]
    by_cases neighbour : gate ∈ (graph.neighbours vertex).toList
    · have there : gate ∈ (graph.eliminate vertex).vertices := by
        rw [PrimalGraph.mem_vertices_eliminate simple]
        exact ⟨simple.mem_vertices vertex gate neighbour,
          fun same => simple.irrefl vertex (same ▸ neighbour)⟩
      rw [if_pos neighbour, if_pos there]
    · rw [if_neg neighbour, getElem?_remove, synced.degrees gate]
      simp only [PrimalGraph.mem_vertices_eliminate simple]
      by_cases same : vertex = gate
      · simp [same]
      · have kept : (graph.eliminate vertex).neighbours gate = graph.neighbours gate := by
          refine GateSet.ext fun other => ?_
          rw [PrimalGraph.mem_neighbours_eliminate simple]
          have back := simple.symm gate other
          have apart : gate ∉ graph.neighbours vertex := neighbour
          grind
        simp [same, Ne.symm same, PrimalGraph.degree, kept]

/-! ## The next vertex -/

/-- The next vertex comes with the first rank: no other rank has a lower degree, or the same degree and a
higher index.  There is none when there are no ranks. -/
theorem next?_spec (queue : EliminationQueue) :
    match queue.next? with
    | none => ∀ rank, rank ∉ queue.ranks
    | some vertex => ∃ least, (least, vertex) ∈ queue.ranks ∧
        ∀ degree gate, (degree, gate) ∈ queue.ranks →
          least < degree ∨ least = degree ∧ gate ≤ vertex := by
  rw [next?, ← Std.TreeSet.min?_eq_head?_toList]
  cases found : queue.ranks.min? with
  | none =>
    rw [Std.TreeSet.min?_eq_none_iff] at found
    exact Std.TreeSet.isEmpty_iff_forall_not_mem.1 found
  | some rank =>
    obtain ⟨member, first⟩ := Std.TreeSet.min?_eq_some_iff_mem_and_forall.1 found
    exact ⟨rank.1, member, fun degree gate there => isLE_rankOrder.1 (first (degree, gate) there)⟩

/-- A queue in step with a graph names a vertex of least degree, the one of highest index among those of
that degree, or the graph has no vertices. -/
theorem Synced.next? (synced : queue.Synced graph) :
    match queue.next? with
    | none => graph.vertexCount = 0
    | some vertex => vertex ∈ graph.vertices ∧ ∀ gate ∈ graph.vertices,
        graph.degree vertex < graph.degree gate ∨
          graph.degree vertex = graph.degree gate ∧ gate ≤ vertex := by
  have spec := queue.next?_spec
  cases found : queue.next? with
  | none =>
    simp only [found] at spec
    rw [PrimalGraph.vertexCount_eq_size, GateSet.size_eq_zero_iff]
    exact fun gate member => spec _ (synced.mem_ranks.2 ⟨member, rfl⟩)
  | some vertex =>
    simp only [found] at spec
    obtain ⟨least, there, first⟩ := spec
    obtain ⟨member, rfl⟩ := synced.mem_ranks.1 there
    exact ⟨member, fun gate left => first _ gate (synced.mem_ranks.2 ⟨left, rfl⟩)⟩

end EliminationQueue

end Provenance
