import Mathlib.Combinatorics.SimpleGraph.Acyclic
import Mathlib.Combinatorics.SimpleGraph.Star
import Mathlib.Data.Finset.Sym
import Provenance.Proofs.Decomposition.Decompose
import Provenance.Proofs.Decomposition.MinimumDegree

/-!
# Forests have width one

When the wires of a circuit make a forest, what is left of it is a forest at each state of the loop.  A
forest with an edge has an end, a vertex with one neighbour, so the vertex of least degree has one neighbour
at most (`degree_le_one`), and its elimination joins no others (`withoutVertex_le`).  So each run is a run within
width one (`Visits.narrow`), and the circuit is decomposed into bags of two gates, however small the limit
(`decompose_forest`).
-/

namespace Provenance

variable {α : Type} {c : Circuit α}

/-! ## Ends of a forest -/

section Ends

variable {V : Type} {G : SimpleGraph V}

/-- A forest with an edge has a vertex with one neighbour: the last one of a longest path. -/
theorem exists_end (forest : G.IsAcyclic) [Finite G.edgeSet] {a b : V} (edge : G.Adj a b) :
    ∃ last before, G.Adj last before ∧ ∀ other, G.Adj last other → other = before := by
  have : Nonempty V := ⟨a⟩
  obtain ⟨_, last, path, isPath, longest⟩ :=
    SimpleGraph.Walk.exists_isPath_forall_isPath_length_le_length G
  have proper : ¬ path.Nil := by
    intro empty
    have short := longest a b (.cons edge .nil) (by simp [edge.ne])
    rw [SimpleGraph.Walk.length_cons, SimpleGraph.Walk.length_eq_zero_iff.2 empty] at short
    omega
  refine ⟨last, path.penultimate, (path.adj_penultimate proper).symm, fun other next => ?_⟩
  refine forest.eq_penultimate_of_adj_end isPath next ?_
  by_contra outside
  have longer := longest _ _ (path.concat next) (isPath.concat outside next)
  rw [SimpleGraph.Walk.length_concat] at longer
  omega

end Ends

/-- The elimination of a vertex with one neighbour at most joins no others. -/
theorem withoutVertex_le {G : SimpleGraph Nat} {vertex : Nat}
    (single : ∀ a b, G.Adj vertex a → G.Adj vertex b → a = b) : withoutVertex G vertex ≤ G := by
  rintro a b ⟨_, _, edge | ⟨different, left, right⟩⟩
  · exact edge
  · exact absurd (single a b left right) different

namespace PrimalGraph

variable {graph : PrimalGraph} {G : SimpleGraph Nat}

theorem Represents.finite_edgeSet (represents : graph.Represents G) (simple : graph.Simple) :
    Finite G.edgeSet := by
  refine Set.Finite.subset (graph.vertices.toFinset.sym2).finite_toSet fun edge member => ?_
  induction edge with
  | _ a b =>
    have edge := (represents a b).2 member
    rw [Finset.mem_coe, Finset.mk_mem_sym2_iff]
    exact ⟨simple.mem_vertices b a (simple.symm a b edge), simple.mem_vertices a b edge⟩

/-- The vertices of a degree of one at most have no two neighbours. -/
theorem Represents.degree_le_one_iff (represents : graph.Represents G) (vertex : Nat) :
    graph.degree vertex ≤ 1 ↔ ∀ a b, G.Adj vertex a → G.Adj vertex b → a = b := by
  rw [degree, ← GateSet.card_toFinset, Finset.card_le_one]
  simp only [GateSet.mem_toFinset, represents vertex _]
  exact ⟨fun single a b left right => single a left b right,
    fun single a left b right => single a b left right⟩

end PrimalGraph

namespace Elimination

variable {maxWidth vertex : Nat} {initial : PrimalGraph} {G : SimpleGraph Nat} {e : Elimination}

/-- The next vertex of a forest has one neighbour at most, since an end of the forest has no more. -/
theorem Eliminating.degree_le_one (here : e.Eliminating initial maxWidth)
    (represents : e.graph.Represents G) (forest : G.IsAcyclic) (next : e.queue.next? = some vertex) :
    e.graph.degree vertex ≤ 1 := by
  rw [represents.degree_le_one_iff]
  intro a b left right
  have := represents.finite_edgeSet here.simple
  obtain ⟨last, before, edge, single⟩ := exists_end forest left
  have named := here.synced.next?
  simp only [next] at named
  have member : last ∈ e.graph.vertices :=
    here.simple.mem_vertices before last ((represents before last).2 edge.symm)
  have least : e.graph.degree vertex ≤ e.graph.degree last := by
    have := named.2 last member
    omega
  have one : e.graph.degree last ≤ 1 := (represents.degree_le_one_iff last).2
    fun a b left right => (single a left).trans (single b right).symm
  exact (represents.degree_le_one_iff vertex).1 (least.trans one) a b left right

/-- In a forest the loop stays within width one, and what is left stays a forest. -/
theorem Visits.narrow (simple : initial.Simple) (represents : initial.Represents G)
    (forest : G.IsAcyclic) (visits : Visits maxWidth (start initial) e) :
    Visits 1 (start initial) e ∧ (filledGraph G e.order).IsAcyclic := by
  induction visits with
  | first => exact ⟨.first, forest⟩
  | @step e vertex before more next _ ih =>
    obtain ⟨narrow, forest⟩ := ih
    have here := before.eliminating (eliminating_start simple maxWidth)
    have left := (before.filled simple represents).1
    have one := here.degree_le_one left forest next
    refine ⟨narrow.step more next one, ?_⟩
    rw [order_step, filledGraph_concat]
    exact forest.anti (withoutVertex_le ((left.degree_le_one_iff vertex).1 one))

end Elimination

namespace Circuit

/-- A circuit whose wires make a forest is not refused, whatever width above zero is allowed, and its
decomposition has width one at most. -/
theorem decompose_forest (forest : c.wiring.IsAcyclic) {maxWidth : Nat} (positive : 1 ≤ maxWidth) :
    ∃ d, c.decompose maxWidth = .ok d ∧ d.width ≤ 1 ∧ ∀ b, (d.bag b).size ≤ 2 := by
  have simple := PrimalGraph.simple_ofCircuit c
  have represents := PrimalGraph.represents_ofCircuit c
  have begin := Elimination.eliminating_start simple maxWidth
  have visits := Elimination.run_visits
    (.first : Elimination.Visits maxWidth (.start (.ofCircuit c)) _) (PrimalGraph.ofCircuit c).vertexCount
  cases ran : Elimination.run maxWidth (PrimalGraph.ofCircuit c).vertexCount (.start (.ofCircuit c)) with
  | error failure =>
    simp only [ran] at visits
    obtain ⟨last, vertex, visits, _, next, wide, _⟩ := visits
    have left := (visits.filled simple represents).1
    have one := (visits.eliminating begin).degree_le_one left
      (visits.narrow simple represents forest).2 next
    omega
  | ok last =>
    simp only [ran] at visits
    have small := (Elimination.run_spec begin (Nat.le_refl _) ran).2
    have here := (visits.narrow simple represents forest).1.eliminating
      (Elimination.eliminating_start simple 1)
    have size_le := Elimination.size_bag_decomposition here small
    refine ⟨last.decomposition, by rw [decompose, ran]; rfl, ?_, size_le⟩
    rw [last.width_decomposition]
    exact Nat.sub_le_sub_right (Decomposition.largest_le size_le) 1

/-- The wires of the conjunction of two inputs make a star. -/
theorem decompose_forest_conjunction : conjunction.wiring.IsAcyclic ∧
    ∃ d, conjunction.decompose 1 = .ok d ∧ d.width ≤ 1 ∧ ∀ b, (d.bag b).size ≤ 2 := by
  have root : ∀ gate child, child ∈ conjunction.children gate → gate = 2 := by
    suffices ∀ gate < 3, ∀ child ∈ conjunction.children gate, gate = 2 from
      fun gate child wire => this gate (Network.lt_of_wire wire) child wire
    decide
  have star : conjunction.wiring ≤ SimpleGraph.starGraph 2 := by
    intro a b edge
    obtain ⟨different, ⟨_, _, wire⟩ | ⟨_, _, wire⟩⟩ := (SimpleGraph.fromRel_adj _ a b).1 edge
    · exact SimpleGraph.starGraph_adj.2 ⟨different, Or.inl (root a b wire)⟩
    · exact SimpleGraph.starGraph_adj.2 ⟨different, Or.inr (root b a wire)⟩
  have forest := (SimpleGraph.isAcyclic_starGraph 2).anti star
  exact ⟨forest, decompose_forest forest (Nat.le_refl 1)⟩

end Circuit

end Provenance
