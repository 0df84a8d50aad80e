import Mathlib.Tactic.FieldSimp
import Mathlib.Tactic.Linarith
import Provenance.DDnnf.Score
import Provenance.Proofs.DDnnf.Coalitions

/-!
# Expected scores

A score is an expectation over worlds of a weighted sum over the coalitions of the world (`expected`).
Both ways of weighting share what a coalition counts out to it with and without one more player, so a
player on whom nothing depends can be left out (`expected_insert`), and the weights of a world add up to
one (`expected_one`).
-/

namespace Provenance

variable {p : Nat → Rat} {V A : Finset Nat} {w : Nat → Nat → Rat} {g : Finset Nat → Rat}

/-- The expectation over the worlds of the weighted sum over their coalitions. -/
def expected (p : Nat → Rat) (inputs : Finset Nat) (w : Nat → Nat → Rat) (g : Finset Nat → Rat) : Rat :=
  ∑ world ∈ inputs.powerset, exactly p inputs world *
    ∑ coalition ∈ world.powerset, w world.card coalition.card * g coalition

/-! ## Null players -/

theorem exactly_insert_of_notMem {y : Nat} (new : y ∉ V) {N : Finset Nat} (inside : N ⊆ V) :
    exactly p (insert y V) N = (1 - p y) * exactly p V N := by
  have outside : y ∉ N := fun member => new (inside member)
  rw [exactly, exactly, Finset.insert_sdiff_of_notMem V outside,
    Finset.prod_insert fun member => new (Finset.mem_sdiff.1 member).1]
  ring

theorem exactly_insert_insert {y : Nat} (new : y ∉ V) {N : Finset Nat} (inside : N ⊆ V) :
    exactly p (insert y V) (insert y N) = p y * exactly p V N := by
  have outside : y ∉ N := fun member => new (inside member)
  have rest : insert y V \ insert y N = V \ N := by
    ext i
    simp only [Finset.mem_sdiff, Finset.mem_insert, not_or]
    constructor
    · rintro ⟨same | member, different, other⟩
      · exact absurd same different
      · exact ⟨member, other⟩
    · rintro ⟨member, other⟩
      exact ⟨Or.inr member, fun same => new (same ▸ member), other⟩
  rw [exactly, exactly, rest, Finset.prod_insert outside]
  ring

/-- A player on whom nothing depends can be left out. -/
theorem expected_insert {y : Nat} (new : y ∉ V)
    (shared : ∀ n s, s ≤ n → w (n + 1) s + w (n + 1) (s + 1) = w n s)
    (ignores : ∀ S ⊆ V, g (insert y S) = g S) :
    expected p (insert y V) w g = expected p V w g := by
  rw [expected, Finset.sum_powerset_insert new, ← Finset.sum_add_distrib]
  refine Finset.sum_congr rfl fun N left => ?_
  have left := Finset.mem_powerset.1 left
  have outside : y ∉ N := fun member => new (left member)
  have inner : ∑ S ∈ (insert y N).powerset, w (insert y N).card S.card * g S =
      ∑ S ∈ N.powerset, w N.card S.card * g S := by
    rw [Finset.sum_powerset_insert outside, ← Finset.sum_add_distrib]
    refine Finset.sum_congr rfl fun S below => ?_
    have below := Finset.mem_powerset.1 below
    have apart : y ∉ S := fun member => outside (below member)
    rw [Finset.card_insert_of_notMem outside, Finset.card_insert_of_notMem apart,
      ignores S (below.trans left), ← add_mul, shared _ _ (Finset.card_le_card below)]
  rw [inner, exactly_insert_of_notMem new left, exactly_insert_insert new left]
  ring

/-- Only the players matter on whom something depends. -/
theorem expected_of_subset (subset : V ⊆ A) (shared : ∀ n s, s ≤ n → w (n + 1) s + w (n + 1) (s + 1) = w n s)
    (depends : ∀ S T, (∀ i ∈ V, i ∈ S ↔ i ∈ T) → g S = g T) :
    expected p A w g = expected p V w g := by
  obtain ⟨rest, apart, rfl⟩ : ∃ rest, Disjoint V rest ∧ A = V ∪ rest :=
    ⟨A \ V, Finset.disjoint_sdiff, (Finset.union_sdiff_of_subset subset).symm⟩
  clear subset
  induction rest using Finset.induction with
  | empty => rw [Finset.union_empty]
  | insert y rest new ih =>
    rw [Finset.disjoint_insert_right] at apart
    have outside : y ∉ V ∪ rest := by simp [apart.1, new]
    rw [Finset.union_insert, expected_insert outside shared fun S _ => ?_, ih apart.2]
    refine depends _ _ fun i member => ?_
    have different : i ≠ y := fun same => apart.1 (same ▸ member)
    simp [different]

/-- The worlds with a player come to an expectation over the worlds of the others. -/
theorem sum_with_player {x : Nat} (new : x ∉ A) (w : Nat → Nat → Rat) (g : Finset Nat → Rat) :
    ∑ N ∈ (insert x A).powerset with x ∈ N,
        exactly p (insert x A) N * ∑ S ∈ (N.erase x).powerset, w N.card S.card * g S =
      expected p A (fun n s => w (n + 1) s) g * p x := by
  have without : ∀ N ∈ A.powerset, x ∉ N := fun N left member => new (Finset.mem_powerset.1 left member)
  rw [Finset.sum_filter, Finset.sum_powerset_insert new,
    Finset.sum_eq_zero fun N left => if_neg (without N left), zero_add, expected, Finset.sum_mul]
  refine Finset.sum_congr rfl fun N left => ?_
  rw [if_pos (Finset.mem_insert_self x N), exactly_insert_insert new (Finset.mem_powerset.1 left),
    Finset.erase_insert (without N left), Finset.card_insert_of_notMem (without N left)]
  ring

theorem expected_congr {h : Finset Nat → Rat} (same : ∀ S ⊆ V, g S = h S) :
    expected p V w g = expected p V w h := by
  refine Finset.sum_congr rfl fun N left => congrArg (exactly p V N * ·) ?_
  refine Finset.sum_congr rfl fun S below => ?_
  rw [same S ((Finset.mem_powerset.1 below).trans (Finset.mem_powerset.1 left))]

/-! ## Bounds -/

/-- The weights of the coalitions of a world add up to one. -/
theorem expected_one (shared : ∀ n s, s ≤ n → w (n + 1) s + w (n + 1) (s + 1) = w n s)
    (start : w 0 0 = 1) : expected p V w (fun _ => 1) = 1 := by
  rw [expected_of_subset (Finset.empty_subset V) shared fun _ _ _ => rfl]
  simp [expected, exactly, start]

theorem exactly_nonneg (probs : ∀ i ∈ V, 0 ≤ p i ∧ p i ≤ 1) {N : Finset Nat} (inside : N ⊆ V) :
    0 ≤ exactly p V N := by
  refine mul_nonneg (Finset.prod_nonneg fun i member => (probs i (inside member)).1)
    (Finset.prod_nonneg fun i member => ?_)
  exact sub_nonneg.2 (probs i (Finset.mem_sdiff.1 member).1).2

/-- What is at most one for each coalition is so on average. -/
theorem abs_expected_le (probs : ∀ i ∈ V, 0 ≤ p i ∧ p i ≤ 1)
    (shared : ∀ n s, s ≤ n → w (n + 1) s + w (n + 1) (s + 1) = w n s) (start : w 0 0 = 1)
    (nonneg : ∀ n s, 0 ≤ w n s) (bounded : ∀ S, |g S| ≤ 1) : |expected p V w g| ≤ 1 := by
  have one : expected p V w (fun _ => 1) = 1 := expected_one shared start
  rw [← one, expected, expected]
  refine (Finset.abs_sum_le_sum_abs _ _).trans (Finset.sum_le_sum fun N left => ?_)
  have likely := exactly_nonneg probs (Finset.mem_powerset.1 left)
  rw [abs_mul, abs_of_nonneg likely]
  refine mul_le_mul_of_nonneg_left ?_ likely
  refine (Finset.abs_sum_le_sum_abs _ _).trans (Finset.sum_le_sum fun S _ => ?_)
  rw [abs_mul, abs_of_nonneg (nonneg _ _)]
  exact mul_le_mul_of_nonneg_left (bounded S) (nonneg _ _)

/-! ## The two ways of weighting -/

namespace DDnnf

/-- The weight of a coalition of `size` that one more of the players of a world joins. -/
def Score.weight : Score → (players size : Nat) → Rat
  | .shapley, players, size =>
    (size.factorial * (players - size - 1).factorial : Rat) / players.factorial
  | .banzhaf, players, _ => 1 / 2 ^ (players - 1)

variable (score : Score)

theorem Score.weight_nonneg (players size : Nat) : 0 ≤ score.weight players size := by
  cases score with
  | shapley => exact div_nonneg (mul_nonneg (Nat.cast_nonneg _) (Nat.cast_nonneg _)) (Nat.cast_nonneg _)
  | banzhaf => exact div_nonneg zero_le_one (pow_nonneg zero_le_two _)

/-- With one more player a coalition shares its weight with the coalition that the player joined. -/
theorem Score.weight_shared (n s : Nat) (small : s ≤ n) :
    score.weight (n + 2) s + score.weight (n + 2) (s + 1) = score.weight (n + 1) s := by
  cases score with
  | shapley =>
    obtain ⟨rest, rfl⟩ := Nat.exists_eq_add_of_le small
    have first : s + rest + 2 - s - 1 = rest + 1 := by omega
    have second : s + rest + 2 - (s + 1) - 1 = rest := by omega
    have third : s + rest + 1 - s - 1 = rest := by omega
    have positive : ((s + rest + 1).factorial : Rat) ≠ 0 := Nat.cast_ne_zero.2 (Nat.factorial_ne_zero _)
    simp only [Score.weight, first, second, third]
    rw [Nat.factorial_succ (s + rest + 1), Nat.factorial_succ rest, Nat.factorial_succ s]
    push_cast
    field_simp
    ring
  | banzhaf =>
    simp only [Score.weight]
    rw [show n + 2 - 1 = n + 1 from rfl, Nat.add_sub_cancel, pow_succ]
    ring

theorem Score.weight_one_zero : score.weight 1 0 = 1 := by
  cases score <;> simp [Score.weight]

/-- What a coalition contributes is weighted. -/
theorem Score.share_eq {k l n : Nat} (row : k ≤ n) (column : l ≤ k) (x : Rat) :
    score.share (.pascal n) k l x = score.weight (k + 1) l * x := by
  cases score with
  | shapley =>
    have exact_weight : (k.choose l : Rat) * l.factorial * (k - l).factorial = k.factorial := by
      exact_mod_cast Nat.choose_mul_factorial_mul_factorial column
    have rest : k + 1 - l - 1 = k - l := by omega
    have chosen : (k.choose l : Rat) ≠ 0 := Nat.cast_ne_zero.2 (Nat.choose_pos column).ne'
    have positive : (k.factorial : Rat) ≠ 0 := Nat.cast_ne_zero.2 (Nat.factorial_ne_zero _)
    show x / (Triangle.pascal n : Triangle Rat).entry k l / ((k + 1 : Nat) : Rat) = _
    rw [Triangle.entry_pascal row column, Score.weight, rest, Nat.factorial_succ]
    push_cast
    rw [← exact_weight]
    rw [← exact_weight] at positive
    field_simp
  | banzhaf =>
    show x / Scalar.power ((2 : Nat) : Rat) k = _
    rw [Scalar.power_rat, Score.weight, Nat.add_sub_cancel]
    push_cast
    ring

/-- The expected score of an input in the game in which the true inputs of a random world are players: what
the coalitions of the other players gain when the input joins them, weighted. -/
def expectedScore (p : Nat → Rat) (inputs : Finset Nat) (f : Finset Nat → Bool) (x : Nat) : Rat :=
  ∑ N ∈ inputs.powerset with x ∈ N, exactly p inputs N *
    ∑ S ∈ (N.erase x).powerset, score.weight N.card S.card *
      ((if f (insert x S) then 1 else 0) - if f S then 1 else 0)

end DDnnf

end Provenance
