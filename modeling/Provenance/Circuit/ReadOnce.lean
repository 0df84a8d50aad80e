import Provenance.Circuit.Basic

/-!
# Closed form for circuits that read each variable once

When no variable is read at two places the children of a gate are independent, so probabilities
multiply. Alternatives of one key that stand together under a disjunction exclude each other, so
their weights add up. The evaluation notes every input and every key it reads and fails when one
is read again.
-/

namespace Provenance.Circuit

variable {α : Type}

/-- The inputs and the keys read so far. -/
structure Seen where
  inputs : GateSet
  keys : GateSet

namespace Seen

/-- Nothing read. -/
def nothing : Seen := ⟨∅, ∅⟩

/-- Notes an input, for the failure of `gate` if it was read before. -/
def readInput (seen : Seen) (gate : Nat) : Outcome Seen :=
  if seen.inputs.contains gate then Outcome.fail (.notIndependent gate)
  else .ok { seen with inputs := seen.inputs.insert gate }

/-- Notes a key, for the failure of `gate` if it was read before. -/
def readKey (seen : Seen) (key gate : Nat) : Outcome Seen :=
  if seen.keys.contains key then Outcome.fail (.notIndependent gate)
  else .ok { seen with keys := seen.keys.insert key }

end Seen

/-- The key of an alternative. -/
def requireKey (c : Circuit α) (gate : Nat) : Outcome Nat :=
  Outcome.ofOption (.unsupported gate .missingKey) (c.key? gate)

/-- Whether a child of a disjunction waits until the other children are done. -/
def isDeferred (c : Circuit α) (kind : Kind) (child : Nat) : Bool :=
  kind == .or && c.kind child == .alternative

variable [Scalar α]

/-- How the value of a child enters the accumulated value of a gate. -/
def absorb (kind : Kind) (accumulated p : α) : α :=
  match kind with
  | .not => p
  | .or => accumulated * Scalar.complement p
  | _ => accumulated * p

/-- The total weight of the alternatives among `children` that have a key, from the left. -/
def keyWeight (c : Circuit α) (key : Nat) (children : List Nat) : α :=
  children.foldl
    (fun total child => if c.key? child = some key then total + c.prob child else total)
    Scalar.zero

/-- Multiplies `accumulated`, key by key, with the probability that no child with that key is
true. -/
def multiplyKeys (c : Circuit α) (gate : Nat) (children : List Nat) :
    List Nat → Seen → α → Outcome (α × Seen)
  | [], seen, accumulated => .ok (accumulated, seen)
  | key :: rest, seen, accumulated => do
    let seen ← seen.readKey key gate
    multiplyKeys c gate children rest seen
      (accumulated * Scalar.complement (c.keyWeight key children))

/-- The probability that none of the alternatives under a disjunction is true. -/
def noAlternative (c : Circuit α) (gate : Nat) (seen : Seen) : Outcome (α × Seen) := do
  let children := (c.children gate).filter (c.kind · == .alternative)
  let keys ← children.mapM c.requireKey
  c.multiplyKeys gate children (GateSet.ofList keys).toList seen Scalar.one

mutual

/-- The probability of `gate`, with the reads below it noted. `depth` bounds the length of a path
below the gate. -/
def readOnce (c : Circuit α) (gate : Nat) : (depth : Nat) → Seen → Outcome (α × Seen)
  | 0, _ => Outcome.fail (.withoutValue gate)
  | depth + 1, seen =>
    match c.kind gate with
    | .input => do
      let seen ← seen.readInput gate
      .ok (c.prob gate, seen)
    | .alternative => do
      let key ← c.requireKey gate
      let seen ← seen.readKey key gate
      .ok (c.prob gate, seen)
    | .undetermined => Outcome.fail (.undetermined gate)
    | .not => do
      let child ← c.onlyChild gate
      let (p, seen) ← readOnceAll c .not [child] depth seen Scalar.zero
      .ok (Scalar.complement p, seen)
    | .and => readOnceAll c .and (c.children gate) depth seen Scalar.one
    | .or => do
      let (noChild, seen) ← readOnceAll c .or (c.children gate) depth seen Scalar.one
      let (noAlternative, seen) ← c.noAlternative gate seen
      .ok (Scalar.complement (noChild * noAlternative), seen)

/-- The accumulated value of the children of a gate of a kind, from the left, alternatives under a
disjunction left out. -/
def readOnceAll (c : Circuit α) (kind : Kind) :
    List Nat → (depth : Nat) → Seen → α → Outcome (α × Seen)
  | [], _, seen, accumulated => .ok (accumulated, seen)
  | child :: rest, depth, seen, accumulated => do
    if c.isDeferred kind child then readOnceAll c kind rest depth seen accumulated
    else
      let (p, seen) ← readOnce c child depth seen
      readOnceAll c kind rest depth seen (absorb kind accumulated p)

end

/-- The probability of `root` when no variable is read twice. A path visits a gate at most once, so
the number of gates bounds the depth. -/
def independentEvaluation (c : Circuit α) (root : Nat) : Outcome α :=
  (c.readOnce root (c.size + 1) .nothing).map (·.1)

end Provenance.Circuit
