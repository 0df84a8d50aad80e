import Provenance.PrimalGraph

/-!
# Elimination queues

The vertices that wait for their elimination, each with the degree it had when it was last looked
at. They are kept in order: the next one has the least degree, and of those the highest index. A
table of the degrees tells which place of the order a vertex gives up when its degree is looked at
again.
-/

namespace Provenance

/-- Degrees with their vertices: a lower degree goes first, and of one degree the higher index. -/
def rankOrder (first second : Nat × Nat) : Ordering :=
  (compare first.1 second.1).then (compare second.2 first.2)

/-- Vertices with their noted degrees. -/
structure EliminationQueue where
  /-- The noted degrees with their vertices, in order. -/
  ranks : Std.TreeSet (Nat × Nat) rankOrder
  /-- The noted degree of each vertex. -/
  degrees : Std.TreeMap Nat Nat

namespace EliminationQueue

/-- The queue without vertices. -/
def empty : EliminationQueue := ⟨∅, ∅⟩

/-- Whether no vertex waits. -/
def isEmpty (queue : EliminationQueue) : Bool := queue.ranks.isEmpty

/-- Takes a vertex out. -/
def remove (queue : EliminationQueue) (gate : Nat) : EliminationQueue :=
  match queue.degrees[gate]? with
  | some degree => ⟨queue.ranks.erase (degree, gate), queue.degrees.erase gate⟩
  | none => queue

/-- Notes the degree of a vertex. It gives up the place it had, and waits from now on if it did not. -/
def note (queue : EliminationQueue) (gate degree : Nat) : EliminationQueue :=
  let others := queue.remove gate
  ⟨others.ranks.insert (degree, gate), others.degrees.insert gate degree⟩

/-- Notes the degrees of some gates. -/
def update (queue : EliminationQueue) (graph : PrimalGraph) (gates : List Nat) :
    EliminationQueue :=
  gates.foldl (fun queue gate => queue.note gate (graph.degree gate)) queue

/-- The queue of all vertices of a graph. -/
def ofGraph (graph : PrimalGraph) : EliminationQueue := empty.update graph graph.adjacency.keys

/-- The next vertex. -/
def next? (queue : EliminationQueue) : Option Nat := queue.ranks.toList.head?.map (·.2)

end EliminationQueue

end Provenance
