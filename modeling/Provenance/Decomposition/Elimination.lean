import Provenance.Decomposition.Basic
import Provenance.Decomposition.Queue

/-!
# Decompositions by elimination

Vertices of the primal graph are eliminated one after the other, a vertex of least degree first. The
bag of a vertex holds it and the neighbours it had when it was eliminated; these are a clique from
then on. The rest of the graph makes one last bag as soon as it is not larger than the bags before.
The parent of a bag is the bag of the neighbour that is eliminated first, or the last bag.
-/

namespace Provenance

/-- A vertex with the neighbours it had when it was eliminated. -/
structure Eliminated where
  vertex : Nat
  neighbours : GateSet

namespace Eliminated

/-- The vertex and its neighbours. -/
def bag (e : Eliminated) : GateSet := e.neighbours.insert e.vertex

end Eliminated

/-- An elimination under way. -/
structure Elimination where
  /-- What is left of the graph. -/
  graph : PrimalGraph
  queue : EliminationQueue
  /-- The vertices eliminated so far, in order. -/
  done : Array Eliminated
  /-- The size of the largest bag so far. -/
  largest : Nat

namespace Elimination

/-- The elimination of a graph before its first step. -/
def start (graph : PrimalGraph) : Elimination := ⟨graph, .ofGraph graph, #[], 0⟩

/-- Eliminates a vertex. -/
def step (e : Elimination) (vertex : Nat) : Elimination :=
  let gone : Eliminated := ⟨vertex, e.graph.neighbours vertex⟩
  let graph := e.graph.eliminate vertex
  { graph
    queue := (e.queue.remove vertex).update graph gone.neighbours.toList
    done := e.done.push gone
    largest := max e.largest gone.bag.size }

/-- Eliminates vertices until the rest is not larger than the largest bag; fails at a vertex with
more than `maxWidth` neighbours. `remaining` bounds the number of steps. -/
def run (maxWidth : Nat) : (remaining : Nat) → Elimination → Outcome Elimination
  | 0, e => .ok e
  | remaining + 1, e =>
    if e.graph.vertexCount ≤ e.largest then .ok e
    else
      match e.queue.next? with
      | none => .ok e
      | some vertex =>
        let width := e.graph.degree vertex
        if maxWidth < width then Outcome.fail (.treewidthExceeded width maxWidth)
        else run maxWidth remaining (e.step vertex)

/-- The bags: one for each eliminated vertex, then the rest, which is left out when it is empty and
not the only bag. -/
def bags (e : Elimination) : List GateSet :=
  let bags := e.done.toList.map Eliminated.bag
  let rest := e.graph.vertices
  if rest.isEmpty && !bags.isEmpty then bags else bags ++ [rest]

/-- The positions of the eliminated vertices. -/
def positions (e : Elimination) : Std.TreeMap Nat Nat :=
  e.done.toList.zipIdx.foldl (fun table (gone, position) => table.insert gone.vertex position) ∅

/-- The bag of the neighbour that is eliminated first, or `root`. -/
def parentOf (positions : Std.TreeMap Nat Nat) (root : Nat) (gone : Eliminated) : Nat :=
  ((gone.neighbours.toList.filterMap fun gate => positions[gate]?).min?).getD root

/-- The tree of the bags. -/
def decomposition (e : Elimination) : Decomposition :=
  let bags := e.bags
  let root := bags.length - 1
  let positions := e.positions
  let parents := e.done.toList.map (parentOf positions root)
  let parents := parents ++ List.replicate (bags.length - parents.length) root
  let largest := bags.foldl (fun most bag => max most bag.size) 0
  .ofParents bags parents root (largest - 1)

end Elimination

namespace Circuit

variable {α : Type}

/-- The widest bag that is worth compiling along: its entries grow exponentially with its size. -/
def widthLimit : Nat := 10

/-- A tree decomposition of a circuit; fails as soon as a bag has more than `maxWidth + 1` gates.
Each step takes a vertex away, so their number bounds the steps. -/
def decompose (c : Circuit α) (maxWidth : Nat) : Outcome Decomposition :=
  let graph := PrimalGraph.ofCircuit c
  (Elimination.run maxWidth graph.vertexCount (.start graph)).map (·.decomposition)

end Circuit

end Provenance
