import Mathlib.Algebra.Polynomial.Coeff
import Provenance.DDnnf.Table
import Provenance.Proofs.Scalar

/-!
# Tables as polynomials

A distribution over the rationals is read as a polynomial, with the weight of a size as its coefficient,
and a triangular table as a polynomial whose coefficients are polynomials.  Entries out of the table are
zero, as are coefficients (`coeff_poly`).  Then the convolution of two tables is the product of their
polynomials (`poly_convolve`) and the sum of two tables is the sum.
-/

namespace Provenance

open Polynomial

/-- Adding up terms from the lowest index gives their sum. -/
theorem accumulate_eq_sum {term : Nat → Rat → Rat} (x : Nat → Rat)
    (adds : ∀ i total, term i total = total + x i) (start : Rat) (count : Nat) :
    accumulate term start count = start + ∑ i ∈ Finset.range count, x i := by
  induction count with
  | zero => simp [accumulate]
  | succ count ih => rw [accumulate, adds, ih, Finset.sum_range_succ, add_assoc]

/-! ## Distributions -/

namespace Distribution

/-- The polynomial with the weights of the sizes as coefficients. -/
noncomputable def poly (a : Distribution Rat) : Polynomial Rat :=
  ∑ k ∈ Finset.range a.size, monomial k (a.entry k)

theorem entry_of_le {a : Distribution Rat} {k : Nat} (outside : a.size ≤ k) : a.entry k = 0 := by
  simp [entry, Array.getD_eq_getD_getElem?, outside]

@[simp] theorem coeff_poly (a : Distribution Rat) (k : Nat) : a.poly.coeff k = a.entry k := by
  simp only [poly, finsetSum_coeff, coeff_monomial, Finset.sum_ite_eq', Finset.mem_range]
  split
  · rfl
  · rename_i outside
    exact (entry_of_le (Nat.le_of_not_lt outside)).symm

@[simp] theorem size_convolve (a b : Distribution Rat) :
    (a.convolve b).size = a.size + b.size - 1 := by
  simp [convolve]

/-- An entry of a convolution is the sum over the ways to split its size. -/
theorem entry_convolve (a b : Distribution Rat) (k : Nat) :
    (a.convolve b).entry k = ∑ i ∈ Finset.range (k + 1), a.entry i * b.entry (k - i) := by
  by_cases inside : k < a.size + b.size - 1
  · have computed : (a.convolve b).entry k = accumulate (fun i total =>
        if i ≤ k ∧ k - i < b.size then total + a.entry i * b.entry (k - i) else total)
        0 a.size := by
      simp [entry, convolve, Array.getD_eq_getD_getElem?, inside]
    rw [computed, accumulate_eq_sum
      (fun i => if i ≤ k ∧ k - i < b.size then a.entry i * b.entry (k - i) else 0)
      (fun i total => by split <;> simp), zero_add]
    refine Finset.sum_congr_of_eq_on_inter (fun i _ beyond => ?_) (fun i _ beyond => ?_)
      fun i _ member => ?_
    · exact if_neg fun both => beyond (Finset.mem_range.2 (Nat.lt_succ_of_le both.1))
    · rw [entry_of_le (Nat.le_of_not_lt (mt Finset.mem_range.2 beyond)), zero_mul]
    · have low := Nat.le_of_lt_succ (Finset.mem_range.1 member)
      split
      · rfl
      · rename_i high
        rw [entry_of_le (Nat.le_of_not_lt fun small => high ⟨low, small⟩), mul_zero]
  · rw [entry_of_le (by simpa using inside)]
    refine (Finset.sum_eq_zero fun i member => ?_).symm
    have := Finset.mem_range.1 member
    rcases Nat.lt_or_ge i a.size with small | large
    · rw [entry_of_le (a := b) (by omega), mul_zero]
    · rw [entry_of_le large, zero_mul]

theorem poly_convolve (a b : Distribution Rat) : (a.convolve b).poly = a.poly * b.poly := by
  ext k
  rw [coeff_poly, entry_convolve, coeff_mul,
    Finset.Nat.sum_antidiagonal_eq_sum_range_succ fun i j => a.poly.coeff i * b.poly.coeff j]
  simp only [coeff_poly]

end Distribution

/-! ## Triangular tables -/

namespace Triangle

/-- The polynomial in the sizes whose coefficients are the polynomials of the rows. -/
noncomputable def poly (a : Triangle Rat) : Polynomial (Polynomial Rat) :=
  ∑ k ∈ Finset.range a.size, monomial k (∑ l ∈ Finset.range (k + 1), monomial l (a.entry k l))

theorem coeff_poly (a : Triangle Rat) (k l : Nat) :
    (a.poly.coeff k).coeff l = if k < a.size ∧ l ≤ k then a.entry k l else 0 := by
  have row : a.poly.coeff k =
      if k < a.size then ∑ l ∈ Finset.range (k + 1), monomial l (a.entry k l) else 0 := by
    simp only [poly, finsetSum_coeff, coeff_monomial, Finset.sum_ite_eq', Finset.mem_range]
  rw [row]
  by_cases inside : k < a.size
  · rw [if_pos inside]
    simp only [finsetSum_coeff, coeff_monomial, Finset.sum_ite_eq', Finset.mem_range, inside,
      true_and, Nat.lt_succ_iff]
  · simp [inside]

/-- The polynomial of a table that is built from its entries. -/
theorem coeff_poly_build (size : Nat) (value : Nat → Nat → Rat) (k l : Nat) :
    ((build size value).poly.coeff k).coeff l = if k < size ∧ l ≤ k then value k l else 0 := by
  rw [coeff_poly, size_build]
  split
  · rename_i inside
    exact entry_build size value inside.1 inside.2
  · rfl

theorem entry_of_le {a : Triangle Rat} {k l : Nat} (outside : a.size ≤ k) : a.entry k l = 0 := by
  simp [entry, Array.getD_eq_getD_getElem?, outside]

theorem poly_add (a b : Triangle Rat) : (a.add b).poly = a.poly + b.poly := by
  ext k l
  rw [coeff_add, coeff_add, Triangle.add, coeff_poly_build, coeff_poly, coeff_poly]
  by_cases column : l ≤ k
  · by_cases left : k < a.size <;> by_cases right : k < b.size <;> simp [column, left, right]
    exact entry_of_le (Nat.le_of_not_lt left)
  · simp [column]

/-- An entry of a convolution is the sum over the ways to split both numbers. -/
theorem convolved_eq_sum (a b : Triangle Rat) (k l : Nat) :
    convolved a b k l = ∑ i ∈ Finset.range (k + 1), ∑ j ∈ Finset.range (l + 1),
      (a.poly.coeff i).coeff j * (b.poly.coeff (k - i)).coeff (l - j) := by
  have inner : ∀ i total, accumulate (fun j total =>
        let x := entry a i j
        if j ≤ l ∧ l - j ≤ k - i ∧ !Scalar.eq x Scalar.zero then
          total + x * entry b (k - i) (l - j)
        else total) total (i + 1) =
      total + ∑ j ∈ Finset.range (i + 1),
        if j ≤ l ∧ l - j ≤ k - i then a.entry i j * b.entry (k - i) (l - j) else 0 := by
    intro i total
    refine accumulate_eq_sum _ (fun j total => ?_) total (i + 1)
    by_cases fits : j ≤ l ∧ l - j ≤ k - i
    · by_cases zero : a.entry i j = 0 <;> simp [fits, zero]
    · rw [if_neg fits, add_zero]
      exact if_neg fun all => fits ⟨all.1, all.2.1⟩
  have outer : convolved a b k l = 0 + ∑ i ∈ Finset.range a.size,
      if i ≤ k ∧ k - i < b.size then
        ∑ j ∈ Finset.range (i + 1),
          if j ≤ l ∧ l - j ≤ k - i then a.entry i j * b.entry (k - i) (l - j) else 0
      else 0 := by
    refine accumulate_eq_sum _ (fun i total => ?_) _ _
    rw [inner]
    split <;> simp
  rw [outer, zero_add]
  simp only [coeff_poly]
  refine Finset.sum_congr_of_eq_on_inter (fun i _ beyond => ?_) (fun i _ beyond => ?_)
    fun i small low => ?_
  · exact if_neg fun both => beyond (Finset.mem_range.2 (Nat.lt_succ_of_le both.1))
  · refine Finset.sum_eq_zero fun j _ => ?_
    rw [if_neg fun both => beyond (Finset.mem_range.2 both.1), zero_mul]
  · have small := Finset.mem_range.1 small
    have low := Nat.le_of_lt_succ (Finset.mem_range.1 low)
    by_cases high : k - i < b.size
    · rw [if_pos ⟨low, high⟩]
      refine Finset.sum_congr_of_eq_on_inter (fun j _ beyond => ?_) (fun j _ beyond => ?_)
        fun j column left => ?_
      · exact if_neg fun both => beyond (Finset.mem_range.2 (Nat.lt_succ_of_le both.1))
      · rw [if_neg fun both => beyond (Finset.mem_range.2 (Nat.lt_succ_of_le both.2)), zero_mul]
      · have column := Nat.le_of_lt_succ (Finset.mem_range.1 column)
        have left := Nat.le_of_lt_succ (Finset.mem_range.1 left)
        simp [small, high, column, left]
    · rw [if_neg fun both => high both.2]
      refine (Finset.sum_eq_zero fun j _ => ?_).symm
      rw [if_neg (c := k - i < b.size ∧ _) fun both => high both.1, mul_zero]

theorem poly_convolve (a b : Triangle Rat) : (a.convolve b).poly = a.poly * b.poly := by
  ext k l
  have product : ((a.poly * b.poly).coeff k).coeff l =
      ∑ i ∈ Finset.range (k + 1), ∑ j ∈ Finset.range (l + 1),
        (a.poly.coeff i).coeff j * (b.poly.coeff (k - i)).coeff (l - j) := by
    rw [coeff_mul, Finset.Nat.sum_antidiagonal_eq_sum_range_succ fun i j =>
      a.poly.coeff i * b.poly.coeff j, finsetSum_coeff]
    refine Finset.sum_congr rfl fun i _ => ?_
    rw [coeff_mul, Finset.Nat.sum_antidiagonal_eq_sum_range_succ fun j j' =>
      (a.poly.coeff i).coeff j * (b.poly.coeff (k - i)).coeff j']
  rw [convolve, coeff_poly_build, product]
  split
  · exact convolved_eq_sum a b k l
  · rename_i outside
    refine (Finset.sum_eq_zero fun i low => Finset.sum_eq_zero fun j left => ?_).symm
    have low := Finset.mem_range.1 low
    have left := Finset.mem_range.1 left
    rw [coeff_poly, coeff_poly]
    by_cases first : i < a.size ∧ j ≤ i
    · rw [if_neg (c := k - i < b.size ∧ _) (by omega), mul_zero]
    · rw [if_neg first, zero_mul]

/-- The entries of Pascal's triangle are the binomial coefficients. -/
theorem entry_pascal {n k l : Nat} (row : k ≤ n) (column : l ≤ k) :
    (pascal n : Triangle Rat).entry k l = k.choose l := by
  have inside : l < (binomials k).length := by
    rw [length_binomials]
    exact Nat.lt_succ_of_le column
  simp only [entry, pascal, Array.getD_eq_getD_getElem?, List.getElem?_toArray, List.getElem?_map,
    getElem?_pascal row, Option.map_some, Option.getD_some, List.getElem?_eq_getElem inside,
    getElem_binomials]

end Triangle

end Provenance
