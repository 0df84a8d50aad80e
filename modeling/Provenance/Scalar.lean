import Provenance.Numeral
import Provenance.Decimal

/-!
# Scalars

Probabilities, weights and scores are computed over any type of scalars. Doubles are what the
program computes with; rationals are the exact reading of the same computations, in which its laws
are stated. Every computation of the library keeps one order of operations, so that doubles give
one result.
-/

namespace Provenance

/-- Numbers to compute probabilities with. -/
class Scalar (α : Type) extends Add α, Sub α, Mul α, Div α where
  /-- The scalar nearest to a natural number. -/
  ofNat : Nat → α
  /-- The scalar nearest to a written number, if there is one. -/
  ofNumeral? : Numeral → Option α
  /-- Strictly less. -/
  lt : α → α → Bool
  /-- Less or equal. -/
  le : α → α → Bool
  /-- Equal as numbers. -/
  eq : α → α → Bool
  /-- The text in formulas, messages and weights. -/
  text : α → String

instance : Scalar Float where
  ofNat n := (Numeral.ofNat n).toFloat
  ofNumeral? numeral := some numeral.toFloat
  lt a b := a < b
  le a b := a ≤ b
  eq a b := a == b
  text := DecimalStyle.plain.text

instance : Scalar Rat where
  ofNat n := n
  ofNumeral? := Numeral.toRat?
  lt a b := a < b
  le a b := a ≤ b
  eq a b := a == b
  text := toString

namespace Scalar

variable {α : Type} [Scalar α]

/-- Nothing. -/
def zero : α := ofNat 0

/-- Certainty. -/
def one : α := ofNat 1

/-- The probability of the opposite event. -/
def complement (p : α) : α := one - p

/-- The bound of rounding errors, a thousand-millionth. -/
def tolerance : α := one / ofNat 1000000000

/-- Whether two scalars are equal up to rounding errors. -/
def almostEqual (a b : α) : Bool :=
  let difference := a - b
  lt difference tolerance && lt (zero - tolerance) difference

/-- The nearest scalar between two bounds; the lower bound when `x` is undefined. -/
def clamp (low high x : α) : α :=
  let raised := if lt low x then x else low
  if lt raised high then raised else high

/-- `base` multiplied with itself, `exponent` times. -/
def power (base : α) : Nat → α
  | 0 => one
  | exponent + 1 => power base exponent * base

/-- The sum of a list, from the left. -/
def sum (terms : List α) : α := terms.foldl (· + ·) zero

/-- The product of a list, from the left. -/
def product (factors : List α) : α := factors.foldl (· * ·) one

end Scalar

/-! ## Binomial coefficients -/

/-- The row of Pascal's triangle below `row`. -/
def pascalNext {α : Type} [Scalar α] (row : List α) : List α :=
  Scalar.one :: List.zipWith (· + ·) row row.tail ++ [Scalar.one]

/-- The rows `0` to `n` of Pascal's triangle, each entry the sum of the two above it. -/
def pascal {α : Type} [Scalar α] (n : Nat) : List (List α) :=
  let rec rows : (remaining : Nat) → List α → List (List α)
    | 0, row => [row]
    | remaining + 1, row => row :: rows remaining (pascalNext row)
  rows n [Scalar.one]

end Provenance
