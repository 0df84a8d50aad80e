import Provenance.Cnf.Basic
import Provenance.Failure

/-!
# Formulas in negation normal form

A formula is a list of nodes, children before their parents, the last one being the root. Nodes
refer to each other by their positions.
-/

namespace Provenance

/-- A node of a formula. -/
inductive NnfNode where
  | literal (l : Literal)
  /-- A conjunction, true when empty. -/
  | and (children : List Nat)
  /-- A disjunction, false when empty; perhaps with a variable on which its children disagree. -/
  | or (opposing : Option Nat) (children : List Nat)
  deriving DecidableEq, Repr

/-- The numbers at the top of a formula. -/
structure NnfHeader where
  /-- Number of variables; zero when it is not known. -/
  varCount : Nat
  /-- Number of nodes. -/
  nodes : Nat
  /-- Number of edges as it was noted, which may be wrong. -/
  edges : Nat
  deriving DecidableEq, Repr

/-- A formula. -/
structure Nnf where
  header : NnfHeader
  nodes : List NnfNode
  deriving DecidableEq, Repr

namespace Nnf

/-- The values of nodes one after the other, `before` being those of the nodes in front. A node out
of range counts as false. -/
def valuesFrom (assignment : Nat → Bool) : List NnfNode → (before : List Bool) → List Bool
  | [], before => before
  | node :: rest, before =>
    let child (position : Nat) : Bool := before.getD position false
    let value := match node with
      | .literal l => l.holds assignment
      | .and children => children.all child
      | .or _ children => children.any child
    valuesFrom assignment rest (before ++ [value])

/-- Whether an assignment satisfies the formula: the value of the last node. -/
def holds (formula : Nnf) (assignment : Nat → Bool) : Bool :=
  ((valuesFrom assignment formula.nodes []).getLast?).getD false

end Nnf

/-- A formula as far as it could be read, with the failure that ended the reading. -/
structure NnfReading where
  header : NnfHeader
  /-- The nodes in front of the failure. -/
  nodes : List NnfNode
  /-- Whether the end of the formula was reached. -/
  ending : Outcome Unit

namespace NnfReading

/-- The formula, when its end was reached. -/
def toNnf (reading : NnfReading) : Outcome Nnf :=
  reading.ending.map fun _ => ⟨reading.header, reading.nodes⟩

end NnfReading

end Provenance
