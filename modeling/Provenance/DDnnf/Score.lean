import Provenance.DDnnf.Basic
import Provenance.DDnnf.Table

/-!
# Scores of inputs

In a random world the true inputs are players, and a coalition of them wins when the root is true
on it alone. The score of an input is its expected Shapley or Banzhaf value in this game. On a
smooth d-DNNF it follows from two tables made bottom up: how likely each number of true inputs is,
and the expected number of winning coalitions by the number of true inputs and the size of the
coalition.
-/

namespace Provenance.DDnnf

variable {α : Type} [Scalar α]

/-- Computes a value for each gate of a list from the values before it. -/
def tabulate {β : Type} (value : Std.TreeMap Nat β → Nat → Outcome β) :
    List Nat → Std.TreeMap Nat β → Outcome (Std.TreeMap Nat β)
  | [], table => .ok table
  | gate :: rest, table => do
    let entry ← value table gate
    tabulate value rest (table.insert gate entry)

/-- The value of a child, which comes before its parent. -/
def childValue {β : Type} (table : Std.TreeMap Nat β) (gate : Nat) (child : Option Nat) :
    Outcome β :=
  Outcome.ofOption (.unsupported gate .childOutOfOrder) (child.bind fun child => table[child]?)

/-! ## Numbers of true inputs -/

/-- How likely each number of true inputs below a gate is. On a smooth circuit the first child of a
disjunction reads what all of them read. -/
def delta (c : Circuit α) (table : Std.TreeMap Nat (Distribution α)) (gate : Nat) :
    Outcome (Distribution α) :=
  let children := c.children gate
  match c.kind gate with
  | .input => .ok #[Scalar.complement (c.prob gate), c.prob gate]
  | .not => childValue table gate children.head?
  | .or => if children.isEmpty then .ok #[Scalar.one] else childValue table gate children.head?
  | .and =>
    children.foldlM
      (fun result child => do
        let other ← childValue table gate (some child)
        .ok (result.convolve other))
      #[Scalar.one]
  | .alternative => Outcome.fail (.multivalued gate)
  | .undetermined => Outcome.fail (.undetermined gate)

/-- The distributions of all gates below a gate. -/
def deltas (c : Circuit α) (gate : Nat) : Outcome (Std.TreeMap Nat (Distribution α)) :=
  tabulate (delta c) (c.postOrder gate) ∅

/-- How likely it is that exactly `k` inputs below a gate are true, for each `k`. -/
def sizeDistribution (d : DDnnf α) (gate : Nat) : Outcome (Distribution α) :=
  (deltas d.circuit gate).map (·.getD gate #[])

/-! ## Winning coalitions -/

/-- The expected number of winning coalitions below a gate. A coalition loses a negation when it
wins its child. -/
def alpha (c : Circuit α) (sizes : Std.TreeMap Nat (Distribution α))
    (table : Std.TreeMap Nat (Triangle α)) (gate : Nat) : Outcome (Triangle α) :=
  let children := c.children gate
  match c.kind gate with
  | .input => .ok #[#[Scalar.zero], #[Scalar.zero, c.prob gate]]
  | .and =>
    children.foldlM
      (fun result child => do
        let other ← childValue table gate (some child)
        .ok (result.convolve other))
      #[#[Scalar.one]]
  | .or =>
    children.foldlM
      (fun result child => do
        let other ← childValue table gate (some child)
        .ok (result.add other))
      #[#[Scalar.zero]]
  | .not => do
    let child ← c.onlyChild gate
    let won ← childValue table gate (some child)
    let size ← childValue sizes gate (some child)
    let binomial : Triangle α := .pascal won.size
    .ok (.build won.size fun k l => binomial.entry k l * size.entry k - won.entry k l)
  | .alternative => Outcome.fail (.multivalued gate)
  | .undetermined => Outcome.fail (.undetermined gate)

/-- For each `k` and `l`, the sum over the worlds with `k` true inputs below a gate of their
probability times the number of coalitions of `l` of them that win the gate. -/
def coalitions (d : DDnnf α) (gate : Nat) : Outcome (Triangle α) := do
  let sizes ← deltas d.circuit gate
  let table ← tabulate (alpha d.circuit sizes) (d.circuit.postOrder gate) ∅
  .ok (table.getD gate #[])

/-! ## Scores -/

/-- How a coalition is weighted. -/
inductive Score where
  /-- Every size of a coalition counts the same, and every coalition of a size. -/
  | shapley
  /-- Every coalition counts the same. -/
  | banzhaf
  deriving DecidableEq, Repr

/-- What `wins` coalitions of `l` among `k` other players contribute. -/
def Score.share (score : Score) (binomial : Triangle α) (k l : Nat) (wins : α) : α :=
  match score with
  | .shapley => wins / binomial.entry k l / Scalar.ofNat (k + 1)
  | .banzhaf => wins / Scalar.power (Scalar.ofNat 2) k

/-- The sum of the shares of the differences between two tables. -/
def shares (score : Score) (positive negative : Triangle α) : α :=
  let size := max positive.size negative.size
  let binomial : Triangle α := .pascal size
  accumulate
    (fun k total =>
      accumulate
        (fun l total =>
          let difference := positive.entry k l - negative.entry k l
          if Scalar.eq difference Scalar.zero then total
          else total + score.share binomial k l difference)
        total (k + 1))
    Scalar.zero size

/-- The score of an input; other gates have none. The coalitions that an input joins win with the
input true and lose with it false. -/
def score (d : DDnnf α) (score : Score) (input : Nat) : Outcome α :=
  if d.circuit.kind input = .input then do
    let positive ← (d.condition input true).coalitions d.root
    let negative ← (d.condition input false).coalitions d.root
    let value := shares score positive negative * d.circuit.prob input
    .ok (Scalar.clamp (Scalar.zero - Scalar.one) Scalar.one value)
  else .ok Scalar.zero

/-- The scores of all inputs. -/
def scores (d : DDnnf α) (score : Score) : Outcome (List (Nat × α)) :=
  d.circuit.inputs.toList.mapM fun input => do
    let value ← d.score score input
    .ok (input, value)

end Provenance.DDnnf
