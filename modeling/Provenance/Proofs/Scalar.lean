import Mathlib.Algebra.BigOperators.Group.List.Basic
import Mathlib.Algebra.Order.Field.Rat
import Mathlib.Data.Nat.Choose.Basic
import Provenance.Scalar

/-!
# Rational scalars

Computed over the rationals the operations of scalars are the exact ones, and Pascal's triangle holds the
binomial coefficients (`getElem?_pascal`).
-/

namespace Provenance

namespace Scalar

@[simp] theorem ofNat_rat (n : Nat) : (ofNat n : Rat) = n := rfl

@[simp] theorem zero_rat : (zero : Rat) = 0 := rfl

@[simp] theorem one_rat : (one : Rat) = 1 := rfl

@[simp] theorem eq_rat (a b : Rat) : Scalar.eq a b = decide (a = b) := rfl

theorem power_rat (base : Rat) (exponent : Nat) : power base exponent = base ^ exponent := by
  induction exponent with
  | zero =>
    rw [pow_zero]
    rfl
  | succ exponent ih =>
    rw [pow_succ, ← ih]
    rfl

theorem sum_rat (terms : List Rat) : sum terms = terms.sum := List.sum_eq_foldl.symm

theorem product_rat (factors : List Rat) : product factors = factors.prod :=
  List.prod_eq_foldl.symm

/-- A scalar between the bounds stays as it is. -/
theorem clamp_rat {low high x : Rat} (above : low ≤ x) (below : x ≤ high) : clamp low high x = x := by
  have raised : (if lt low x then x else low) = x := by
    split
    · rfl
    · rename_i not_above
      exact le_antisymm above (not_lt.1 fun less => not_above (decide_eq_true less))
  show (if lt (if lt low x then x else low) high then _ else high) = x
  rw [raised]
  split
  · rfl
  · rename_i not_below
    exact le_antisymm (not_lt.1 fun less => not_below (decide_eq_true less)) below

end Scalar

/-! ## Pascal's triangle -/

/-- A row of Pascal's triangle. -/
def binomials (n : Nat) : List Rat := (List.range (n + 1)).map fun l => (n.choose l : Rat)

@[simp] theorem length_binomials (n : Nat) : (binomials n).length = n + 1 := by
  simp [binomials]

theorem getElem_binomials (n l : Nat) (inside : l < (binomials n).length) :
    (binomials n)[l] = (n.choose l : Rat) := by
  simp [binomials]

/-- Each row gives the next one. -/
theorem pascalNext_binomials (n : Nat) : pascalNext (binomials n) = binomials (n + 1) := by
  have sums : List.zipWith (· + ·) (binomials n) (binomials n).tail =
      (List.range n).map fun l => ((n + 1).choose (l + 1) : Rat) := by
    refine List.ext_getElem (by simp) fun l small _ => ?_
    simp only [List.length_zipWith, List.length_tail, length_binomials] at small
    simp [getElem_binomials, Nat.choose_succ_succ]
  show Scalar.one :: List.zipWith (· + ·) (binomials n) (binomials n).tail ++ [Scalar.one] = _
  rw [sums, binomials, List.range_succ, List.map_append, List.range_succ_eq_map]
  simp [Function.comp_def]

theorem iterate_pascalNext (n : Nat) : pascalNext^[n] [Scalar.one] = binomials n := by
  induction n with
  | zero => rfl
  | succ n ih => rw [Function.iterate_succ_apply', ih, pascalNext_binomials]

theorem length_rows {α : Type} [Scalar α] (remaining : Nat) (first : List α) :
    (pascal.rows remaining first).length = remaining + 1 := by
  induction remaining generalizing first with
  | zero => rfl
  | succ remaining ih => rw [pascal.rows, List.length_cons, ih]

/-- The rows are computed one from another. -/
theorem getElem?_rows {α : Type} [Scalar α] {remaining row : Nat} (first : List α)
    (inside : row ≤ remaining) :
    (pascal.rows remaining first)[row]? = some (pascalNext^[row] first) := by
  induction remaining generalizing first row with
  | zero =>
    obtain rfl := Nat.le_zero.1 inside
    rfl
  | succ remaining ih =>
    rw [pascal.rows]
    cases row with
    | zero => rfl
    | succ row => rw [List.getElem?_cons_succ, ih _ (Nat.le_of_succ_le_succ inside)]; rfl

/-- The rows of Pascal's triangle are those of binomial coefficients. -/
theorem getElem?_pascal {n row : Nat} (inside : row ≤ n) :
    (pascal n : List (List Rat))[row]? = some (binomials row) := by
  rw [pascal, getElem?_rows _ inside, iterate_pascalNext]

end Provenance
