import Provenance.Scalar

/-!
# Tables of counts

A distribution gives a weight to each size. A triangular table gives a weight to each pair of a
size and a smaller or equal one; its row `k` has `k + 1` entries. When two parts of a circuit read
different inputs, sizes add up, and distributions and tables convolve. Each entry is added up in one
order.
-/

namespace Provenance

/-- Adds up from the lowest index: `term i` takes the total so far to the total with index `i`. -/
def accumulate {α : Type} (term : Nat → α → α) (start : α) : (count : Nat) → α
  | 0 => start
  | count + 1 => term count (accumulate term start count)

/-- A weight for each size. -/
abbrev Distribution (α : Type) := Array α

/-- A weight for each pair of a size and a smaller or equal one. -/
abbrev Triangle (α : Type) := Array (Array α)

variable {α : Type} [Scalar α]

namespace Distribution

/-- The weight of a size. -/
def entry (a : Distribution α) (k : Nat) : α := a.getD k Scalar.zero

/-- The distribution of the sum of two sizes. -/
def convolve (a b : Distribution α) : Distribution α :=
  (Array.range (a.size + b.size - 1)).map fun k =>
    accumulate
      (fun i total => if i ≤ k ∧ k - i < b.size then total + entry a i * entry b (k - i) else total)
      Scalar.zero a.size

end Distribution

namespace Triangle

/-- The weight of a pair. -/
def entry (a : Triangle α) (k l : Nat) : α := (a.getD k #[]).getD l Scalar.zero

/-- The triangle with `size` rows and given entries. -/
def build (size : Nat) (entry : Nat → Nat → α) : Triangle α :=
  (Array.range size).map fun k => (Array.range (k + 1)).map (entry k)

omit [Scalar α] in
@[simp] theorem size_build (size : Nat) (value : Nat → Nat → α) :
    (build size value).size = size := by simp [build]

/-- The entries of a triangle are those it was built with. -/
theorem entry_build (size : Nat) (value : Nat → Nat → α) {k l : Nat} (row : k < size)
    (column : l ≤ k) : entry (build size value) k l = value k l := by
  have : l < k + 1 := by omega
  simp [entry, build, Array.getD_eq_getD_getElem?, row, this]

/-- The sum of two triangles. -/
def add (a b : Triangle α) : Triangle α :=
  build (max a.size b.size) fun k l =>
    if k < b.size then entry a k l + entry b k l else entry a k l

/-- One entry of a convolution. Zeros of the first triangle are passed over. -/
def convolved (a b : Triangle α) (k l : Nat) : α :=
  accumulate
    (fun i total =>
      if i ≤ k ∧ k - i < b.size then
        accumulate
          (fun j total =>
            let x := entry a i j
            if j ≤ l ∧ l - j ≤ k - i ∧ !Scalar.eq x Scalar.zero then
              total + x * entry b (k - i) (l - j)
            else total)
          total (i + 1)
      else total)
    Scalar.zero a.size

/-- The triangle of the sums of two pairs. -/
def convolve (a b : Triangle α) : Triangle α := build (a.size + b.size - 1) (convolved a b)

/-- Pascal's triangle with the rows `0` to `n`. -/
def pascal (n : Nat) : Triangle α := ((Provenance.pascal n).map List.toArray).toArray

end Triangle

end Provenance
