import Mathlib.Algebra.BigOperators.Group.Finset.Powerset
import Mathlib.Algebra.BigOperators.Ring.Finset
import Mathlib.Data.Nat.Choose.Sum
import Provenance.Proofs.DDnnf.Table

/-!
# Counting worlds and coalitions

Inputs are true independently of each other.  A world is the set of those that are true, and a coalition
is a subset of a world.  How likely each number of true inputs is, and the expected number of winning
coalitions by both numbers, are polynomials (`sizes`, `wins`).  Over sets without common inputs they
multiply, when coalitions win together that win in both parts (`wins_union`).  Over one set, wins that
exclude each other add up (`wins_or`), and the coalitions that lose are those of the right size that do
not win (`coeff_wins_not`).

A table counts a set when it holds these polynomials and has a row for each number of inputs
(`Distribution.Counts`, `Triangle.Counts`).
-/

namespace Provenance

open Polynomial

variable {p : Nat → Rat} {V W N M : Finset Nat}

/-- The probability that of some inputs exactly those of a world are true. -/
def exactly (p : Nat → Rat) (inputs world : Finset Nat) : Rat :=
  (∏ i ∈ world, p i) * ∏ i ∈ inputs \ world, (1 - p i)

theorem exactly_union (apart : Disjoint V W) (left : N ⊆ V) (right : M ⊆ W) :
    exactly p (V ∪ W) (N ∪ M) = exactly p V N * exactly p W M := by
  have separate := Finset.disjoint_left.1 apart
  have rest : (V ∪ W) \ (N ∪ M) = V \ N ∪ W \ M := by
    ext i
    have := @separate i
    have := @left i
    have := @right i
    simp only [Finset.mem_sdiff, Finset.mem_union]
    tauto
  have apart_rest : Disjoint (V \ N) (W \ M) :=
    apart.mono Finset.sdiff_subset Finset.sdiff_subset
  rw [exactly, rest, Finset.prod_union (apart.mono left right), Finset.prod_union apart_rest, exactly,
    exactly]
  ring

/-- A subset of a union is one of each part. -/
theorem sum_powerset_union {α : Type} [AddCommMonoid α] (apart : Disjoint V W)
    (f : Finset Nat → α) :
    ∑ N ∈ (V ∪ W).powerset, f N = ∑ N ∈ V.powerset, ∑ M ∈ W.powerset, f (N ∪ M) := by
  induction W using Finset.induction generalizing f with
  | empty => simp
  | insert y W new ih =>
    rw [Finset.disjoint_insert_right] at apart
    have outside : y ∉ V ∪ W := by simp [apart.1, new]
    rw [Finset.union_insert, Finset.sum_powerset_insert outside, ih apart.2, ih apart.2,
      ← Finset.sum_add_distrib]
    refine Finset.sum_congr rfl fun N _ => ?_
    rw [Finset.sum_powerset_insert new]
    simp only [Finset.union_insert]

theorem sum_powerset_singleton {α : Type} [AddCommMonoid α] (i : Nat) (f : Finset Nat → α) :
    ∑ N ∈ ({i} : Finset Nat).powerset, f N = f ∅ + f {i} := by
  rw [← insert_empty_eq, Finset.sum_powerset_insert (Finset.notMem_empty i)]
  simp

/-! ## Numbers of true inputs -/

/-- How likely each number of true inputs is. -/
noncomputable def sizes (p : Nat → Rat) (inputs : Finset Nat) : Polynomial Rat :=
  ∑ world ∈ inputs.powerset, monomial world.card (exactly p inputs world)

theorem sizes_union (apart : Disjoint V W) : sizes p (V ∪ W) = sizes p V * sizes p W := by
  rw [sizes, sum_powerset_union apart, sizes, sizes, Finset.sum_mul_sum]
  refine Finset.sum_congr rfl fun N left => Finset.sum_congr rfl fun M right => ?_
  rw [Finset.mem_powerset] at left right
  rw [monomial_mul_monomial, Finset.card_union_of_disjoint (apart.mono left right),
    exactly_union apart left right]

/-- The coefficients are the chances of the numbers of true inputs. -/
theorem coeff_sizes (k : Nat) :
    (sizes p V).coeff k = ∑ world ∈ V.powersetCard k, exactly p V world := by
  rw [sizes, finsetSum_coeff, Finset.powersetCard_eq_filter, Finset.sum_filter]
  exact Finset.sum_congr rfl fun N _ => coeff_monomial

/-! ## Winning coalitions -/

/-- The expected number of winning coalitions by the number of true inputs and the size of the
coalition. -/
noncomputable def wins (p : Nat → Rat) (inputs : Finset Nat) (f : Finset Nat → Bool) :
    Polynomial (Polynomial Rat) :=
  ∑ world ∈ inputs.powerset, ∑ coalition ∈ world.powerset,
    monomial world.card (monomial coalition.card (if f coalition then exactly p inputs world else 0))

variable {f g h : Finset Nat → Bool}

theorem wins_congr (same : ∀ S ⊆ V, f S = g S) : wins p V f = wins p V g := by
  refine Finset.sum_congr rfl fun N left => Finset.sum_congr rfl fun S inside => ?_
  rw [same S ((Finset.mem_powerset.1 inside).trans (Finset.mem_powerset.1 left))]

/-- Coalitions that win in two parts with different inputs. -/
theorem wins_union (apart : Disjoint V W)
    (both : ∀ S ⊆ V, ∀ T ⊆ W, h (S ∪ T) = (f S && g T)) :
    wins p (V ∪ W) h = wins p V f * wins p W g := by
  rw [wins, sum_powerset_union apart, wins, wins, Finset.sum_mul_sum]
  refine Finset.sum_congr rfl fun N left => Finset.sum_congr rfl fun M right => ?_
  rw [Finset.mem_powerset] at left right
  rw [sum_powerset_union (apart.mono left right), Finset.sum_mul_sum]
  refine Finset.sum_congr rfl fun S below => Finset.sum_congr rfl fun T below' => ?_
  rw [Finset.mem_powerset] at below below'
  have split := (apart.mono left right).mono below below'
  rw [monomial_mul_monomial, monomial_mul_monomial, Finset.card_union_of_disjoint split,
    Finset.card_union_of_disjoint (apart.mono left right), exactly_union apart left right,
    both S (below.trans left) T (below'.trans right)]
  cases f S <;> cases g T <;> simp

/-- Wins that exclude each other add up. -/
theorem wins_or (exclusive : ∀ S ⊆ V, ¬ (f S = true ∧ g S = true)) :
    wins p V (fun S => f S || g S) = wins p V f + wins p V g := by
  rw [wins, wins, wins, ← Finset.sum_add_distrib]
  refine Finset.sum_congr rfl fun N left => ?_
  rw [← Finset.sum_add_distrib]
  refine Finset.sum_congr rfl fun S inside => ?_
  have apart := exclusive S ((Finset.mem_powerset.1 inside).trans (Finset.mem_powerset.1 left))
  rw [← map_add, ← map_add]
  cases at_f : f S <;> cases at_g : g S <;> simp_all

theorem wins_false : wins p V (fun _ => false) = 0 := by
  simp [wins]

theorem coeff_wins (k l : Nat) : ((wins p V f).coeff k).coeff l =
    ∑ world ∈ V.powerset, ∑ coalition ∈ world.powerset,
      if world.card = k ∧ coalition.card = l then
        if f coalition then exactly p V world else 0
      else 0 := by
  simp only [wins, finsetSum_coeff, coeff_monomial]
  refine Finset.sum_congr rfl fun N _ => Finset.sum_congr rfl fun S _ => ?_
  by_cases row : N.card = k <;> simp [row, coeff_monomial]

/-- The coefficients are the expected numbers of winning coalitions. -/
theorem coeff_wins_eq_sum (k l : Nat) : ((wins p V f).coeff k).coeff l =
    ∑ world ∈ V.powersetCard k,
      exactly p V world * ((world.powersetCard l).filter (f · = true)).card := by
  rw [coeff_wins, Finset.powersetCard_eq_filter, Finset.sum_filter]
  refine Finset.sum_congr rfl fun N _ => ?_
  by_cases row : N.card = k
  · simp only [row, true_and, if_true, Finset.powersetCard_eq_filter, Finset.filter_filter,
      ← Finset.sum_filter, Finset.sum_const, nsmul_eq_mul, mul_comm]
  · simp [row]

/-- The coalitions of a size are as many as a binomial coefficient says. -/
theorem coeff_wins_true (k l : Nat) :
    ((wins p V fun _ => true).coeff k).coeff l = k.choose l * (sizes p V).coeff k := by
  rw [coeff_wins, sizes, finsetSum_coeff, Finset.mul_sum]
  refine Finset.sum_congr rfl fun N _ => ?_
  rw [coeff_monomial]
  by_cases row : N.card = k
  · subst row
    simp only [true_and, if_true]
    rw [← Finset.sum_filter, Finset.sum_const, ← Finset.powersetCard_eq_filter,
      Finset.card_powersetCard, nsmul_eq_mul]
  · simp [row]

/-- The coalitions that lose are the others of the size. -/
theorem coeff_wins_not (k l : Nat) : ((wins p V fun S => !f S).coeff k).coeff l =
    k.choose l * (sizes p V).coeff k - ((wins p V f).coeff k).coeff l := by
  have all : (wins p V fun S => f S || !f S) = wins p V fun _ => true :=
    wins_congr fun S _ => Bool.or_not_self (f S)
  have exclusive : ∀ S ⊆ V, ¬ (f S = true ∧ (!f S) = true) := fun S _ => by simp
  rw [← coeff_wins_true, ← all, wins_or exclusive, coeff_add, coeff_add, add_sub_cancel_left]

/-! ## Tables that count -/

/-- The table has the weights of all numbers of true inputs. -/
structure Distribution.Counts (a : Distribution Rat) (p : Nat → Rat) (inputs : Finset Nat) : Prop where
  size : a.size = inputs.card + 1
  poly : a.poly = sizes p inputs

namespace Distribution

variable {a b : Distribution Rat}

theorem counts_empty : Counts #[1] p ∅ where
  size := rfl
  poly := by simp [poly, sizes, exactly, entry]

theorem counts_singleton (i : Nat) : Counts #[1 - p i, p i] p {i} where
  size := rfl
  poly := by
    rw [poly, sizes, sum_powerset_singleton]
    simp [exactly, entry, Finset.sum_range_succ]

theorem Counts.convolve (left : a.Counts p V) (right : b.Counts p W) (apart : Disjoint V W) :
    (a.convolve b).Counts p (V ∪ W) where
  size := by
    rw [size_convolve, left.size, right.size, Finset.card_union_of_disjoint apart]
    omega
  poly := by rw [poly_convolve, left.poly, right.poly, sizes_union apart]

theorem Counts.coeff (counts : a.Counts p V) (k : Nat) : (sizes p V).coeff k = a.entry k := by
  rw [← counts.poly, coeff_poly]

theorem Counts.entry_eq_sum (counts : a.Counts p V) (k : Nat) :
    a.entry k = ∑ world ∈ V.powersetCard k, exactly p V world := by
  rw [← counts.coeff, coeff_sizes]

end Distribution

/-- The table has the weights of all numbers of true inputs and sizes of winning coalitions. -/
structure Triangle.Counts (a : Triangle Rat) (p : Nat → Rat) (inputs : Finset Nat)
    (f : Finset Nat → Bool) : Prop where
  size : a.size = inputs.card + 1
  poly : a.poly = wins p inputs f

namespace Triangle

variable {a b : Triangle Rat}

theorem Counts.congr (counts : a.Counts p V f) (same : ∀ S ⊆ V, f S = g S) : a.Counts p V g where
  size := counts.size
  poly := counts.poly.trans (wins_congr same)

theorem counts_true : Counts #[#[1]] p ∅ fun _ => true where
  size := rfl
  poly := by simp [poly, wins, exactly, entry]

theorem poly_false : Triangle.poly #[#[0]] = 0 := by
  simp [poly, entry]

theorem counts_false : Counts #[#[0]] p ∅ fun _ => false where
  size := rfl
  poly := by rw [poly_false, wins_false]

theorem counts_singleton (i : Nat) :
    Counts #[#[0], #[0, p i]] p {i} fun coalition => decide (i ∈ coalition) where
  size := rfl
  poly := by
    rw [poly, wins, sum_powerset_singleton, sum_powerset_singleton]
    simp [exactly, entry, Finset.sum_range_succ]

theorem Counts.convolve (left : a.Counts p V f) (right : b.Counts p W g) (apart : Disjoint V W)
    (both : ∀ S ⊆ V, ∀ T ⊆ W, h (S ∪ T) = (f S && g T)) :
    (a.convolve b).Counts p (V ∪ W) h where
  size := by
    rw [Triangle.convolve, size_build, left.size, right.size, Finset.card_union_of_disjoint apart]
    omega
  poly := by rw [poly_convolve, left.poly, right.poly, wins_union apart both]

theorem Counts.add (left : a.Counts p V f) (right : b.Counts p V g)
    (exclusive : ∀ S ⊆ V, ¬ (f S = true ∧ g S = true)) :
    (a.add b).Counts p V fun S => f S || g S where
  size := by rw [Triangle.add, size_build, left.size, right.size, Nat.max_self]
  poly := by rw [poly_add, left.poly, right.poly, wins_or exclusive]

/-- The start of a sum leaves the first table as it is. -/
theorem Counts.false_add (counts : a.Counts p V f) : (Triangle.add #[#[0]] a).Counts p V f where
  size := by
    rw [Triangle.add, size_build, counts.size]
    exact Nat.max_eq_right (Nat.succ_le_succ (Nat.zero_le _))
  poly := by rw [poly_add, poly_false, zero_add, counts.poly]

/-- The table of the coalitions that lose. -/
theorem Counts.complement (counts : a.Counts p V f) {sizes : Distribution Rat}
    (counts_sizes : sizes.Counts p V) :
    (build a.size fun k l => (pascal a.size : Triangle Rat).entry k l * sizes.entry k - a.entry k l).Counts
      p V fun S => !f S where
  size := by rw [size_build, counts.size]
  poly := by
    ext k l
    rw [coeff_poly_build, coeff_wins_not, ← counts.poly, coeff_poly, counts_sizes.coeff]
    by_cases inside : k < a.size ∧ l ≤ k
    · rw [if_pos inside, if_pos inside, entry_pascal inside.1.le inside.2]
    · rw [if_neg inside, if_neg inside, sub_zero]
      by_cases column : l ≤ k
      · have beyond : a.size ≤ k := Nat.le_of_not_lt fun row => inside ⟨row, column⟩
        rw [Distribution.entry_of_le (by rwa [counts_sizes.size, ← counts.size]), mul_zero]
      · rw [Nat.choose_eq_zero_of_lt (Nat.lt_of_not_le column), Nat.cast_zero, zero_mul]

end Triangle

end Provenance
