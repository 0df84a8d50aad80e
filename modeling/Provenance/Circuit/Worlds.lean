import Provenance.Budget
import Provenance.Circuit.Evaluate

/-!
# Enumerating worlds

The probability of a gate as the sum, over all worlds in which it is true, of the probability of
the world. Worlds are numbered by the binary digits of a counter, the lowest digit for the first
input.
-/

namespace Provenance.Circuit

variable {α : Type} [Scalar α]

/-- Enumeration needs a counter of one machine word: with this many inputs it does not fit. -/
def enumerationLimit : Nat := 64

/-- The product over `inputs` of the probability that each is as the binary digits of `number`
say, from the left. -/
def worldProbability (c : Circuit α) (number : Nat) (inputs : List Nat) : α :=
  let rec extend : List Nat → Nat → α → α
    | [], _, p => p
    | input :: rest, number, p =>
      let factor := if number % 2 = 1 then c.prob input else Scalar.complement (c.prob input)
      extend rest (number / 2) (p * factor)
  extend inputs number Scalar.one

/-- The inputs that are true in a numbered world, as a table by gate. -/
def worldTable (size number : Nat) (inputs : List Nat) : Array Bool :=
  let rec mark : List Nat → Nat → Array Bool → Array Bool
    | [], _, table => table
    | input :: rest, number, table =>
      mark rest (number / 2) (if number % 2 = 1 then table.setIfInBounds input true else table)
  mark inputs number (Array.replicate size false)

/-- Adds to `total` the probabilities of the worlds from `number` on in which the last gate of
`order` is true. -/
def addWorlds (c : Circuit α) (order inputs : List Nat) :
    (remaining : Nat) → (number : Nat) → (total : α) → Outcome α
  | 0, _, total => .ok total
  | remaining + 1, number, total => do
    let table := worldTable c.size number inputs
    let value ← c.evaluateInOrder order (table.getD · false)
    let total := if value then total + c.worldProbability number inputs else total
    addWorlds c order inputs remaining (number + 1) total

/-- The exact probability of `root`, the inputs being independent. -/
def possibleWorlds (c : Circuit α) (root : Nat) (budget : Budget) : Outcome α := do
  c.requireBoolean
  let inputs := c.inputs.toList
  Outcome.require (inputs.length < enumerationLimit) (.tooManyInputs inputs.length)
  let order := c.postOrder root
  let worlds := Nat.pow 2 inputs.length
  c.requireValues order
  budget.afford (c.worldWork order) worlds .worlds
  addWorlds c order inputs worlds 0 Scalar.zero

end Provenance.Circuit
