import Std.Data.TreeSet
import Provenance.Failure

/-!
# Orders of a directed graph

Two walks over a graph given by the list of targets of each vertex. `postOrder` lists what can be
reached from one vertex, each vertex behind its targets when there is no cycle. `topologicalOrder`
lists all vertices, each before its targets, or names a vertex on a cycle.

Both keep an explicit stack, and each step either visits a vertex or drops an entry of the stack,
so the number of vertices and edges bounds the steps.
-/

namespace Provenance.Order

/-- A set of visited vertices. -/
abbrev Marks := Std.TreeSet Nat

/-! ## Post-order -/

/-- One depth-first walk. The stack holds the open vertices, innermost first, each with the targets
it has not looked at; a vertex is finished when none is left. `finished` is in reverse. -/
def walk (targets : Nat → List Nat) :
    (fuel : Nat) → (stack : List (Nat × List Nat)) → (visited : Marks) → (finished : List Nat) →
      List Nat
  | 0, _, _, finished => finished.reverse
  | _ + 1, [], _, finished => finished.reverse
  | fuel + 1, (vertex, []) :: stack, visited, finished =>
    walk targets fuel stack visited (vertex :: finished)
  | fuel + 1, (vertex, target :: rest) :: stack, visited, finished =>
    if visited.contains target then walk targets fuel ((vertex, rest) :: stack) visited finished
    else
      walk targets fuel ((target, targets target) :: (vertex, rest) :: stack)
        (visited.insert target) finished

/-- The vertices that can be reached from `root`, each once, `root` last; every vertex comes behind
its targets unless it lies on a cycle with one of them. `size` bounds the number of vertices and
edges together. -/
def postOrder (targets : Nat → List Nat) (size : Nat) (root : Nat) : List Nat :=
  walk targets (size + 1) [(root, targets root)] ((∅ : Marks).insert root) []

/-! ## Topological order -/

/-- The state of the first pass: visited vertices, finished vertices, and the finished ones in
reverse order of finishing. -/
structure Passed where
  visited : Marks
  finished : Marks
  order : List Nat

/-- The first pass from one vertex. A vertex is visited when it is first met on top of the stack and
its unvisited targets are stacked above it; it is finished when it is met again. A vertex that is
its own target is reported. -/
def explore (targets : Nat → List Nat) :
    (fuel : Nat) → (stack : List Nat) → Passed → Except Nat Passed
  | 0, _, passed => .ok passed
  | _ + 1, [], passed => .ok passed
  | fuel + 1, vertex :: stack, passed =>
    if passed.visited.contains vertex then
      if passed.finished.contains vertex then explore targets fuel stack passed
      else
        explore targets fuel stack
          { passed with
            finished := passed.finished.insert vertex
            order := vertex :: passed.order }
    else if (targets vertex).contains vertex then .error vertex
    else
      let visited := passed.visited.insert vertex
      let pending := (targets vertex).filter (!visited.contains ·)
      explore targets fuel (pending.reverse ++ vertex :: stack) { passed with visited }

/-- The first pass from each vertex not visited yet. -/
def exploreAll (targets : Nat → List Nat) (fuel : Nat) : List Nat → Passed → Except Nat Passed
  | [], passed => .ok passed
  | vertex :: rest, passed =>
    if passed.visited.contains vertex then exploreAll targets fuel rest passed
    else
      match explore targets fuel [vertex] passed with
      | .ok passed => exploreAll targets fuel rest passed
      | .error vertex => .error vertex

/-- The second pass: the last source of a vertex of the list, in the order `sources` gives, that
comes neither before it nor at it. -/
def backEdge? (sources : Nat → List Nat) : List Nat → Marks → Option Nat
  | [], _ => none
  | vertex :: rest, passed =>
    let passed := passed.insert vertex
    match (sources vertex).reverse.find? (!passed.contains ·) with
    | some source => some source
    | none => backEdge? sources rest passed

/-- All of `vertices` and what they reach, each vertex once and before its targets; a vertex on a
cycle if there is a cycle. `sources` is `targets` turned round, and `size` bounds the number of
vertices and edges together. -/
def topologicalOrder (targets sources : Nat → List Nat) (size : Nat) (vertices : List Nat) :
    Except Nat (List Nat) :=
  match exploreAll targets (2 * size + 2) vertices ⟨∅, ∅, []⟩ with
  | .error vertex => .error vertex
  | .ok passed =>
    match backEdge? sources passed.order ∅ with
    | some vertex => .error vertex
    | none => .ok passed.order

end Provenance.Order
