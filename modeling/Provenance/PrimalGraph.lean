import Provenance.Circuit.Basic

/-!
# Primal graphs

The primal graph of a circuit has a vertex for each gate that is defined and an edge for each wire,
whatever its direction. Graphs are simple: there are no loops and no repeated edges. A vertex that
is not in the graph has no neighbours. Main statements: who is a neighbour after edges were added
(`mem_neighbours_addEdge`, `mem_neighbours_addEdges`) and after a set was made a clique
(`mem_neighbours_fill`).
-/

namespace Provenance

/-- An undirected graph of gates. Each edge is noted at both of its ends. -/
structure PrimalGraph where
  /-- The neighbours of each vertex. -/
  adjacency : Std.TreeMap Nat GateSet

namespace PrimalGraph

/-- The graph without vertices. -/
def empty : PrimalGraph := ⟨∅⟩

instance : Inhabited PrimalGraph := ⟨empty⟩

/-- The vertices. -/
def vertices (graph : PrimalGraph) : GateSet := .ofList graph.adjacency.keys

/-- Number of vertices. -/
def vertexCount (graph : PrimalGraph) : Nat := graph.adjacency.size

/-- Whether a gate is a vertex. -/
def hasVertex (graph : PrimalGraph) (gate : Nat) : Bool := graph.adjacency.contains gate

/-- The neighbours of a gate. -/
def neighbours (graph : PrimalGraph) (gate : Nat) : GateSet := graph.adjacency.getD gate ∅

/-- Number of neighbours of a gate. -/
def degree (graph : PrimalGraph) (gate : Nat) : Nat := (graph.neighbours gate).size

/-- Whether two gates are neighbours. -/
def hasEdge (graph : PrimalGraph) (a b : Nat) : Bool := (graph.neighbours a).contains b

/-- Number of edges, each counted from both ends. -/
def edgeCount (graph : PrimalGraph) : Nat :=
  (graph.adjacency.foldl (fun count _ neighbours => count + neighbours.size) 0) / 2

/-- Adds a vertex. -/
def addVertex (graph : PrimalGraph) (gate : Nat) : PrimalGraph :=
  ⟨graph.adjacency.insert gate (graph.neighbours gate)⟩

/-- Notes `b` at `a`. -/
def addHalfEdge (graph : PrimalGraph) (a b : Nat) : PrimalGraph :=
  ⟨graph.adjacency.insert a ((graph.neighbours a).insert b)⟩

/-- Adds an edge and its ends; nothing when the ends are the same gate. -/
def addEdge (graph : PrimalGraph) (a b : Nat) : PrimalGraph :=
  if a = b then graph else (graph.addHalfEdge a b).addHalfEdge b a

/-- Adds the edges from `gate` to each of `others`. -/
def addEdges (graph : PrimalGraph) (gate : Nat) (others : List Nat) : PrimalGraph :=
  others.foldl (fun graph other => graph.addEdge gate other) graph

/-- Removes a vertex with its edges. -/
def removeVertex (graph : PrimalGraph) (gate : Nat) : PrimalGraph :=
  let forget (adjacency : Std.TreeMap Nat GateSet) (other : Nat) : Std.TreeMap Nat GateSet :=
    adjacency.modify other (·.erase gate)
  ⟨((graph.neighbours gate).toList.foldl forget graph.adjacency).erase gate⟩

/-- Joins the gates of a list with each other. -/
def joinAll (graph : PrimalGraph) : List Nat → PrimalGraph
  | [] => graph
  | gate :: others => (graph.addEdges gate others).joinAll others

/-- Makes a set of gates a clique. -/
def fill (graph : PrimalGraph) (gates : GateSet) : PrimalGraph := graph.joinAll gates.toList

/-- Merges `target` into `source`: the neighbours of `target` become neighbours of `source`. -/
def contract (graph : PrimalGraph) (source target : Nat) : PrimalGraph :=
  (graph.removeVertex target).addEdges source (graph.neighbours target).toList

/-- Removes a vertex and makes its neighbours a clique. -/
def eliminate (graph : PrimalGraph) (gate : Nat) : PrimalGraph :=
  (graph.removeVertex gate).fill (graph.neighbours gate)

/-! ## Neighbours -/

/-- A new vertex changes no neighbours. -/
theorem neighbours_addVertex (graph : PrimalGraph) (gate other : Nat) :
    (graph.addVertex gate).neighbours other = graph.neighbours other := by
  simp only [neighbours, addVertex, Std.TreeMap.getD_insert]
  split
  · rename_i same
    rw [Nat.compare_eq_eq.1 same]
  · rfl

/-- A half edge changes the neighbours at its one end. -/
theorem neighbours_addHalfEdge (graph : PrimalGraph) (a b gate : Nat) :
    (graph.addHalfEdge a b).neighbours gate =
      if a = gate then (graph.neighbours gate).insert b else graph.neighbours gate := by
  simp only [neighbours, addHalfEdge, Std.TreeMap.getD_insert, Nat.compare_eq_eq]
  split
  · subst gate; rfl
  · rfl

/-- The neighbours after an edge was added: those from before, and the ends of each other. -/
theorem mem_neighbours_addEdge (graph : PrimalGraph) (a b gate other : Nat) :
    other ∈ (graph.addEdge a b).neighbours gate ↔
      other ∈ graph.neighbours gate ∨
        a ≠ b ∧ ((gate = a ∧ other = b) ∨ (gate = b ∧ other = a)) := by
  unfold addEdge
  split
  · simp_all
  · rw [neighbours_addHalfEdge, neighbours_addHalfEdge]
    split <;> split <;> simp <;> grind

/-- The neighbours after the edges from one gate to several others were added. -/
theorem mem_neighbours_addEdges (graph : PrimalGraph) (a : Nat) (others : List Nat)
    (gate other : Nat) :
    other ∈ (graph.addEdges a others).neighbours gate ↔
      other ∈ graph.neighbours gate ∨
        gate ≠ other ∧ ((gate = a ∧ other ∈ others) ∨ (other = a ∧ gate ∈ others)) := by
  unfold addEdges
  induction others generalizing graph with
  | nil => simp
  | cons b others ih =>
    rw [List.foldl_cons, ih, mem_neighbours_addEdge]
    grind

/-- The neighbours after the gates of a list were joined with each other. -/
theorem mem_neighbours_joinAll (graph : PrimalGraph) (gates : List Nat) (gate other : Nat) :
    other ∈ (graph.joinAll gates).neighbours gate ↔
      other ∈ graph.neighbours gate ∨ gate ≠ other ∧ gate ∈ gates ∧ other ∈ gates := by
  induction gates generalizing graph with
  | nil => simp [joinAll]
  | cons first gates ih =>
    rw [joinAll, ih, mem_neighbours_addEdges]
    grind

/-- The neighbours after a set was made a clique. -/
theorem mem_neighbours_fill (graph : PrimalGraph) (gates : GateSet) (gate other : Nat) :
    other ∈ (graph.fill gates).neighbours gate ↔
      other ∈ graph.neighbours gate ∨ gate ≠ other ∧ gate ∈ gates ∧ other ∈ gates :=
  mem_neighbours_joinAll graph gates.toList gate other

/-! ## The graph of a circuit -/

variable {α : Type}

/-- Adds a gate with the wires to its children that are defined. -/
def addGate (c : Circuit α) (graph : PrimalGraph) (gate : Nat) : PrimalGraph :=
  if c.kind gate = .undetermined then graph
  else
    (graph.addVertex gate).addEdges gate
      ((c.children gate).filter fun child => c.kind child != .undetermined)

/-- The primal graph of a circuit. -/
def ofCircuit (c : Circuit α) : PrimalGraph := c.gates.foldl (addGate c) empty

end PrimalGraph

end Provenance
