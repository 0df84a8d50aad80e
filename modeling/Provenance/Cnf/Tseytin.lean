import Provenance.Circuit.Basic
import Provenance.Cnf.Basic

/-!
# Circuits as formulas in conjunctive normal form

The encoding has one variable for each gate of the circuit, reached from the root or not. The
clauses of a gate say that its variable is the value of the gate on those of its children, and a
last clause says that the root is true. So a world fixes all variables, and the models are the
worlds in which the root is true.
-/

namespace Provenance.Circuit

open Literal (pos neg)

variable {α : Type}

/-- The clauses that define the variable of a gate. -/
def gateClauses (c : Circuit α) (gate : Nat) : Outcome (List Clause) :=
  let children := c.children gate
  match c.kind gate with
  | .input => .ok []
  | .and =>
    .ok (children.map (fun child => [neg gate, pos child]) ++ [pos gate :: children.map neg])
  | .or =>
    .ok (children.map (fun child => [pos gate, neg child]) ++ [neg gate :: children.map pos])
  | .not => (c.onlyChild gate).map fun child => [[neg gate, neg child], [pos gate, pos child]]
  | .alternative => Outcome.fail (.multivalued gate)
  | .undetermined => Outcome.fail (.undetermined gate)

/-- The encoding of the circuit, with `root` forced to be true. -/
def tseytin (c : Circuit α) (root : Nat) : Outcome Cnf := do
  let clauses ← c.gates.mapM c.gateClauses
  .ok (.ofClauses c.size (clauses.flatten ++ [[pos root]]))

variable [Scalar α]

/-- The weights of the literals of the inputs: for each its probability, then that of the
opposite. -/
def literalWeights (c : Circuit α) : List (Literal × α) :=
  c.inputs.toList.flatMap fun input =>
    [(pos input, c.prob input), (neg input, Scalar.complement (c.prob input))]

/-- A weight on one line, as weighted model counters read it. -/
def weightLine (weight : Literal × α) : String :=
  "w " ++ toString weight.1.toDimacs ++ " " ++ Scalar.text weight.2 ++ "\n"

/-- The encoding as DIMACS text, with the weights of the inputs behind it when `weighted`. -/
def cnfText (c : Circuit α) (root : Nat) (weighted : Bool) : Outcome String := do
  let formula ← c.tseytin root
  let weights := if weighted then c.literalWeights else []
  .ok (formula.dimacs ++ String.join (weights.map weightLine))

end Provenance.Circuit
