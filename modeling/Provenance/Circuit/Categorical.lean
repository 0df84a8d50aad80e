import Provenance.Circuit.Basic

/-!
# Expanding categorical variables

The alternatives of each key become conjunctions at the leaves of a balanced decision tree over
fresh inputs, so each is true with its weight and at most one of them is true. When the weights do
not add up to one, a further input in front of the tree is true with the total weight.
-/

namespace Provenance.Circuit

variable {α : Type}

/-- The alternatives grouped by their key, those without key first, then by increasing key. -/
def keyGroups (c : Circuit α) : List (List Nat) :=
  let alternatives := c.alternatives.toList
  let keyless := alternatives.filter (c.key? · |>.isNone)
  let keys := (GateSet.ofList (alternatives.filterMap c.key?)).toList
  let keyed := keys.map fun key => alternatives.filter (c.key? · == some key)
  if keyless.isEmpty then keyed else keyless :: keyed

variable [Scalar α]

/-- The sums of the first weights: of none, of one, and so on up to all. -/
def cumulated (weights : List α) : Array α :=
  weights.foldl (fun sums weight => sums.push (sums.back?.getD Scalar.zero + weight))
    #[Scalar.zero]

/-- The decision tree over the alternatives from `first` to `last`: a fresh input chooses between
the lower and the upper half, and its negation guards the upper one. `guards` are the gates that
hold on the way from the top. -/
def decisionTree (alternatives : Array Nat) (sums : Array α) (first last : Nat) (guards : List Nat)
    (c : Circuit α) : Circuit α :=
  if first < last then
    let middle := (first + last) / 2
    let sum (n : Nat) : α := sums.getD n Scalar.zero
    let total := sum (last + 1) - sum first
    let p := if Scalar.lt Scalar.zero total then (sum (middle + 1) - sum first) / total
      else Scalar.zero
    let (choice, c) := c.addInput p
    let (opposite, c) := c.addNode .not [choice]
    let c := decisionTree alternatives sums first middle (guards ++ [choice]) c
    decisionTree alternatives sums (middle + 1) last (guards ++ [opposite]) c
  else c.setChildren (alternatives.getD first 0) guards
termination_by last - first

/-- Expands the alternatives of one key. -/
def expandGroup (c : Circuit α) (alternatives : List Nat) : Circuit α :=
  let sums := cumulated (alternatives.map c.prob)
  let total := sums.back?.getD Scalar.zero
  let (guards, c) :=
    if Scalar.almostEqual total Scalar.one then ([], c)
    else
      let (guard, c) := c.addInput total
      ([guard], c)
  let c := c.decisionTree alternatives.toArray sums 0 (alternatives.length - 1) guards
  alternatives.foldl
    (fun c gate => ((c.setKind gate .and).setProb gate Scalar.one).dropKey gate) c

/-- The circuit with Boolean inputs in place of all alternatives. -/
def expandAlternatives (c : Circuit α) : Circuit α := c.keyGroups.foldl expandGroup c

end Provenance.Circuit
