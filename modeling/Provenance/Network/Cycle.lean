import Provenance.Network
import Provenance.Order

/-!
# Orders and cycles of a network

The wires of a network as a directed graph: what a gate reaches, children first, and the check that
no gate is its own descendant.
-/

namespace Provenance.Network

variable {κ : Type}

/-- The gates that can be reached from `root`, each once, `root` last and children first. -/
def postOrder (n : Network κ) (root : Nat) : List Nat :=
  Order.postOrder n.children (n.size + n.wireCount) root

/-- The gates mentioned by the network: each gate and its children, in the order of their gates. -/
def mentioned (n : Network κ) : List Nat := n.gates.flatMap fun gate => gate :: n.children gate

/-- For each gate its parents, by increasing index and each once. -/
def parents (n : Network κ) : Std.TreeMap Nat (List Nat) :=
  n.gates.foldr
    (fun gate table =>
      (n.children gate).eraseDups.foldl
        (fun table child => table.insert child (gate :: table.getD child [])) table)
    ∅

/-- Fails with a gate on a cycle of wires, if there is a cycle. -/
def checkAcyclic (n : Network κ) : Outcome Unit :=
  let parents := n.parents
  match Order.topologicalOrder (fun gate => (n.children gate).eraseDups)
      (fun gate => parents.getD gate []) (n.size + 2 * n.wireCount) n.mentioned with
  | .ok _ => .ok ()
  | .error gate => Outcome.fail (.cyclic gate)

end Provenance.Network
