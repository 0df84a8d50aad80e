import Mathlib.Combinatorics.SimpleGraph.Finite
import Mathlib.Data.Set.Card
import Provenance.Proofs.Decomposition.Elimination

/-!
# Elimination takes a vertex of least degree

The loop is followed state by state.  The graph it keeps is the graph of the wires with the vertices of its
order eliminated, which is said of graphs as mathematics has them (`wiring`, `filledGraph`) and not of the
tables; its edges are the paths of wires by way of eliminated vertices (`filledGraph_adj`,
`Visits.mem_neighbours_iff`).  The queue holds the vertices of that graph with their degrees in it, so the
vertex it names has least degree in the filled graph; it was not named before; and the neighbours noted with
a vertex are those it had in the graph filled by the vertices before it (`visits_spec`).
-/

namespace Provenance

variable {α : Type} {c : Circuit α}

/-! ## Filled graphs -/

/-- The wires between gates that are defined, whatever their direction. -/
def Circuit.wiring (c : Circuit α) : SimpleGraph Nat :=
  .fromRel fun gate child =>
    c.kind gate ≠ .undetermined ∧ c.kind child ≠ .undetermined ∧ child ∈ c.children gate

/-- A graph without a vertex, the neighbours of which are joined with each other. -/
def withoutVertex (G : SimpleGraph Nat) (vertex : Nat) : SimpleGraph Nat where
  Adj a b := a ≠ vertex ∧ b ≠ vertex ∧ (G.Adj a b ∨ a ≠ b ∧ G.Adj vertex a ∧ G.Adj vertex b)
  symm := ⟨fun _ _ ⟨left, right, joined⟩ => ⟨right, left, joined.imp G.adj_symm
    fun ⟨different, first, second⟩ => ⟨different.symm, second, first⟩⟩⟩
  loopless := ⟨fun _ ⟨_, _, joined⟩ => joined.elim (G.irrefl ·) fun ⟨different, _⟩ => different rfl⟩

/-- A graph after the elimination of the vertices of a list, one after the other. -/
def filledGraph (G : SimpleGraph Nat) (order : List Nat) : SimpleGraph Nat := order.foldl withoutVertex G

theorem filledGraph_concat (G : SimpleGraph Nat) (order : List Nat) (vertex : Nat) :
    filledGraph G (order ++ [vertex]) = withoutVertex (filledGraph G order) vertex := by
  rw [filledGraph, List.foldl_append]
  rfl

/-- A path of edges leads from one vertex to another, all vertices between them being of a list. -/
inductive Through (G : SimpleGraph Nat) (order : List Nat) : Nat → Nat → Prop
  | edge {a b : Nat} (edge : G.Adj a b) : Through G order a b
  | via {a middle b : Nat} (first : Through G order a middle) (member : middle ∈ order)
      (second : Through G order middle b) : Through G order a b

namespace Through

variable {G : SimpleGraph Nat} {order more : List Nat} {a b vertex : Nat}

theorem symm (through : Through G order a b) : Through G order b a := by
  induction through with
  | edge edge => exact .edge edge.symm
  | via _ member _ first second => exact .via second member first

theorem mono (through : Through G order a b) (subset : order ⊆ more) : Through G more a b := by
  induction through with
  | edge edge => exact .edge edge
  | via _ member _ first second => exact .via first (subset member) second

/-- A path that may use one more vertex does without it or comes by it. -/
theorem concat_iff : Through G (order ++ [vertex]) a b ↔
    Through G order a b ∨ Through G order a vertex ∧ Through G order vertex b := by
  constructor
  · intro through
    induction through with
    | edge edge => exact Or.inl (.edge edge)
    | @via a middle b _ member _ first second =>
      rcases List.mem_append.1 member with member | last
      · rcases first with first | ⟨first, before⟩
        · rcases second with second | ⟨second, after⟩
          · exact Or.inl (.via first member second)
          · exact Or.inr ⟨.via first member second, after⟩
        · rcases second with second | ⟨_, after⟩
          · exact Or.inr ⟨first, .via before member second⟩
          · exact Or.inr ⟨first, after⟩
      · obtain rfl := List.mem_singleton.1 last
        exact Or.inr ⟨first.elim id And.left, second.elim id And.right⟩
  · rintro (through | ⟨first, second⟩)
    · exact through.mono (List.subset_append_left _ _)
    · exact .via (first.mono (List.subset_append_left _ _)) (by simp)
        (second.mono (List.subset_append_left _ _))

end Through

/-- In a filled graph two vertices are neighbours when a path leads from one to the other by way of vertices
that were eliminated. -/
theorem filledGraph_adj (G : SimpleGraph Nat) (order : List Nat) (a b : Nat) :
    (filledGraph G order).Adj a b ↔ a ≠ b ∧ a ∉ order ∧ b ∉ order ∧ Through G order a b := by
  induction order using List.reverseRecOn generalizing a b with
  | nil =>
    constructor
    · exact fun edge => ⟨edge.ne, List.not_mem_nil, List.not_mem_nil, .edge edge⟩
    · rintro ⟨_, _, _, through⟩
      cases through with
      | edge edge => exact edge
      | via _ none _ => exact absurd none List.not_mem_nil
  | append_singleton order vertex ih =>
    rw [filledGraph_concat, Through.concat_iff]
    simp only [withoutVertex, ih, List.mem_append, List.mem_singleton, not_or]
    constructor
    · rintro ⟨left, right, ⟨different, outside, outside', through⟩ | ⟨different, first, second⟩⟩
      · exact ⟨different, ⟨outside, left⟩, ⟨outside', right⟩, Or.inl through⟩
      · obtain ⟨_, _, outside, through⟩ := first
        obtain ⟨_, _, outside', through'⟩ := second
        exact ⟨different, ⟨outside, left⟩, ⟨outside', right⟩, Or.inr ⟨through.symm, through'⟩⟩
    · rintro ⟨different, ⟨outside, left⟩, ⟨outside', right⟩, through | ⟨first, second⟩⟩
      · exact ⟨left, right, Or.inl ⟨different, outside, outside', through⟩⟩
      · refine ⟨left, right, ?_⟩
        by_cases again : vertex ∈ order
        · exact Or.inl ⟨different, outside, outside', .via first again second⟩
        · exact Or.inr ⟨different, ⟨Ne.symm left, again, outside, first.symm⟩,
            Ne.symm right, again, outside', second⟩

namespace PrimalGraph

variable {graph : PrimalGraph} {G : SimpleGraph Nat}

/-- The neighbours noted in a table are those of a graph. -/
def Represents (graph : PrimalGraph) (G : SimpleGraph Nat) : Prop :=
  ∀ a b, b ∈ graph.neighbours a ↔ G.Adj a b

theorem represents_ofCircuit (c : Circuit α) : (ofCircuit c).Represents c.wiring := by
  intro a b
  rw [Circuit.wiring, SimpleGraph.fromRel_adj]
  by_cases defined : c.kind a ≠ .undetermined ∧ c.kind b ≠ .undetermined
  · rw [mem_neighbours_ofCircuit defined.1 defined.2]
    simp [defined]
  · have apart : b ∉ (ofCircuit c).neighbours a := by
      intro edge
      have simple := simple_ofCircuit c
      exact defined ⟨mem_vertices_ofCircuit.1 (simple.mem_vertices b a (simple.symm a b edge)),
        mem_vertices_ofCircuit.1 (simple.mem_vertices a b edge)⟩
    simp only [apart, false_iff]
    grind

theorem Represents.eliminate (represents : graph.Represents G) (simple : graph.Simple) (vertex : Nat) :
    (graph.eliminate vertex).Represents (withoutVertex G vertex) := by
  intro a b
  rw [mem_neighbours_eliminate simple, represents, represents, represents]
  rfl

/-- The degree in the table is the number of neighbours. -/
theorem Represents.degree_eq (represents : graph.Represents G) (gate : Nat) :
    graph.degree gate = (G.neighborSet gate).ncard := by
  have same : G.neighborSet gate = (graph.neighbours gate).toFinset := by
    ext other
    simp [represents gate other]
  rw [same, Set.ncard_coe_finset, GateSet.card_toFinset, degree]

end PrimalGraph

/-! ## The graph and the queue at each state -/

namespace Elimination

variable {maxWidth : Nat} {e : Elimination}

/-- The neighbours noted with the eliminated vertices are those they had in the graph filled by the vertices
before them. -/
def Notes (e : Elimination) (G : SimpleGraph Nat) : Prop :=
  ∀ (i : Nat) (gone : Eliminated), e.done[i]? = some gone →
    ∀ gate, gate ∈ gone.neighbours ↔ (filledGraph G (e.order.take i)).Adj gone.vertex gate

theorem Notes.step {G : SimpleGraph Nat} (notes : e.Notes G)
    (represents : e.graph.Represents (filledGraph G e.order)) (vertex : Nat) : (e.step vertex).Notes G := by
  have length : e.order.length = e.done.size := by simp [order]
  intro i gone found gate
  rw [done_step, Array.getElem?_push] at found
  rw [order_step]
  split at found
  · rename_i last
    obtain rfl := Option.some.inj found
    rw [last, ← length, List.take_left]
    exact represents vertex gate
  · have inside : i < e.done.size := (Array.getElem?_eq_some_iff.1 found).1
    rw [List.take_append_of_le_length (by omega)]
    exact notes i gone found gate

/-- At each state the table holds the filled graph, and so it did when each vertex was eliminated. -/
theorem Visits.filled {initial : PrimalGraph} {G : SimpleGraph Nat} (simple : initial.Simple)
    (represents : initial.Represents G) (visits : Visits maxWidth (start initial) e) :
    e.graph.Represents (filledGraph G e.order) ∧ e.Notes G := by
  induction visits with
  | first => exact ⟨represents, fun i gone found => by simp [start] at found⟩
  | @step e vertex before more next narrow ih =>
    have here := before.eliminating (eliminating_start simple maxWidth)
    refine ⟨?_, ih.2.step ih.1 vertex⟩
    rw [order_step, filledGraph_concat]
    exact ih.1.eliminate here.simple vertex

/-- Two gates are neighbours at a state when neither was eliminated and a path of wires leads from one to the
other by way of gates that were. -/
theorem Visits.mem_neighbours_iff (visits : Visits maxWidth (start (.ofCircuit c)) e) {a b : Nat} :
    b ∈ e.graph.neighbours a ↔ a ≠ b ∧ a ∉ e.order ∧ b ∉ e.order ∧ Through c.wiring e.order a b := by
  have represents := (visits.filled (PrimalGraph.simple_ofCircuit c) (PrimalGraph.represents_ofCircuit c)).1
  rw [represents a b, filledGraph_adj]

/-- At each state of the loop the vertices left are the gates that are defined and not yet eliminated, and
the graph is that of the wires, filled by the vertices eliminated so far.  The order and the table of the
queue hold just the vertices left, each with its number of neighbours.  The queue names a vertex of least
degree, the one of highest index among those, unless none is left.  No vertex is named twice, and the
neighbours noted with each are those it had in the graph that was filled by the vertices before it. -/
theorem visits_spec (visits : Visits maxWidth (start (.ofCircuit c)) e) :
    let current := filledGraph c.wiring e.order
    let degree := fun gate => (current.neighborSet gate).ncard
    (∀ gate, gate ∈ e.graph.vertices ↔ c.kind gate ≠ .undetermined ∧ gate ∉ e.order) ∧
    (∀ a b, b ∈ e.graph.neighbours a ↔ current.Adj a b) ∧
    (∀ rank gate, (rank, gate) ∈ e.queue.ranks ↔ gate ∈ e.graph.vertices ∧ rank = degree gate) ∧
    (∀ rank gate, e.queue.degrees[gate]? = some rank ↔
      gate ∈ e.graph.vertices ∧ rank = degree gate) ∧
    (match e.queue.next? with
    | none => ∀ gate, gate ∉ e.graph.vertices
    | some vertex => vertex ∈ e.graph.vertices ∧ vertex ∉ e.order ∧
        ∀ gate ∈ e.graph.vertices,
          degree vertex < degree gate ∨ degree vertex = degree gate ∧ gate ≤ vertex) ∧
    e.order.Nodup ∧
    (∀ (i : Nat) (gone : Eliminated), e.done[i]? = some gone →
      ∀ gate, gate ∈ gone.neighbours ↔
        (filledGraph c.wiring (e.order.take i)).Adj gone.vertex gate) ∧
    run maxWidth (PrimalGraph.ofCircuit c).vertexCount (start (.ofCircuit c)) =
      run maxWidth e.graph.vertexCount e := by
  have simple := PrimalGraph.simple_ofCircuit c
  have begin := eliminating_start simple maxWidth
  have here := visits.eliminating begin
  obtain ⟨represents, notes⟩ := visits.filled simple (PrimalGraph.represents_ofCircuit c)
  have degrees := represents.degree_eq
  have left : ∀ gate, gate ∈ e.graph.vertices ↔ c.kind gate ≠ .undetermined ∧ gate ∉ e.order := by
    intro gate
    have all := here.vertices gate
    rw [PrimalGraph.mem_vertices_ofCircuit] at all
    have gone := here.gone
    simp only [order, List.mem_map, Array.mem_toList_iff, all]
    grind
  refine ⟨left, represents, ?ranks, ?table, ?next, here.nodup, notes, visits.run_eq begin⟩
  case ranks =>
    intro rank gate
    rw [here.synced.mem_ranks, degrees]
  case table =>
    intro rank gate
    rw [← here.synced.consistent, here.synced.mem_ranks, degrees]
  case next =>
    have named := here.synced.next?
    cases next : e.queue.next? with
    | none =>
      simp only [next] at named
      rwa [PrimalGraph.vertexCount_eq_size, GateSet.size_eq_zero_iff] at named
    | some vertex =>
      simp only [next, degrees] at named
      exact ⟨named.1, ((left vertex).1 named.1).2, named.2⟩

/-- The conjunction of two inputs: of the inputs, which have degree one each, the second goes first, and then
the conjunction has least degree and the highest index. -/
theorem visits_conjunction :
    ∃ e, Visits 1 (start (.ofCircuit Circuit.conjunction)) e ∧ e.order = [1] ∧
      e.queue.next? = some 2 ∧ ∀ gate ∈ e.graph.vertices,
        ((filledGraph Circuit.conjunction.wiring [1]).neighborSet 2).ncard ≤
          ((filledGraph Circuit.conjunction.wiring [1]).neighborSet gate).ncard := by
  have visits : Visits 1 (start (.ofCircuit Circuit.conjunction))
      ((start (.ofCircuit Circuit.conjunction)).step 1) :=
    .step .first (by decide) rfl (by decide)
  have next : ((start (.ofCircuit Circuit.conjunction)).step 1).queue.next? = some 2 := rfl
  obtain ⟨_, _, _, _, named, _⟩ := visits_spec visits
  simp only [next] at named
  refine ⟨_, visits, rfl, next, fun gate left => ?_⟩
  rcases named.2.2 gate left with lower | ⟨same, _⟩
  · exact Nat.le_of_lt lower
  · exact Nat.le_of_eq same

end Elimination

end Provenance
