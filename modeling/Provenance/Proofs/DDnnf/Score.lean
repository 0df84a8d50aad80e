import Provenance.Proofs.DDnnf.Condition
import Provenance.Proofs.DDnnf.Game

/-!
# Scores are expected values

The difference of two tables of winning coalitions, weighted entry by entry, is the expectation of the
weighted differences (`shares_spec`).  With the input true and false the tables count the coalitions that
win with it and without it, over the inputs that the root reads; the other inputs are null players.  So
the score of an input is its expected Shapley or Banzhaf value among all inputs (`score_spec`).
-/

namespace Provenance

open Polynomial

variable {p : Nat → Rat} {V : Finset Nat} {f g : Finset Nat → Bool}

/-! ## Shares -/

/-- The weighted sum of the coefficients is the expectation of the weights of the winning coalitions. -/
theorem sum_coeff_wins (w : Nat → Nat → Rat) :
    ∑ k ∈ Finset.range (V.card + 1), ∑ l ∈ Finset.range (k + 1),
        w k l * ((wins p V f).coeff k).coeff l =
      expected p V w fun S => if f S then 1 else 0 := by
  have swap : ∀ t : Nat → Nat → Finset Nat → Finset Nat → Rat,
      ∑ k ∈ Finset.range (V.card + 1), ∑ l ∈ Finset.range (k + 1),
          ∑ N ∈ V.powerset, ∑ S ∈ N.powerset, t k l N S =
        ∑ N ∈ V.powerset, ∑ S ∈ N.powerset,
          ∑ k ∈ Finset.range (V.card + 1), ∑ l ∈ Finset.range (k + 1), t k l N S := by
    intro t
    rw [Finset.sum_congr rfl fun k _ => Finset.sum_comm, Finset.sum_comm]
    refine Finset.sum_congr rfl fun N _ => ?_
    rw [Finset.sum_congr rfl fun k _ => Finset.sum_comm, Finset.sum_comm]
  simp only [coeff_wins, Finset.mul_sum, expected]
  rw [swap]
  refine Finset.sum_congr rfl fun N left => Finset.sum_congr rfl fun S below => ?_
  have row : N.card ∈ Finset.range (V.card + 1) :=
    Finset.mem_range.2 (Nat.lt_succ_of_le (Finset.card_le_card (Finset.mem_powerset.1 left)))
  have column : S.card ∈ Finset.range (N.card + 1) :=
    Finset.mem_range.2 (Nat.lt_succ_of_le (Finset.card_le_card (Finset.mem_powerset.1 below)))
  rw [Finset.sum_eq_single_of_mem N.card row fun k _ other => ?_,
    Finset.sum_eq_single_of_mem S.card column fun l _ other => ?_]
  · rw [if_pos ⟨rfl, rfl⟩]
    split <;> ring
  · rw [if_neg fun both => other both.2.symm, mul_zero]
  · refine Finset.sum_eq_zero fun l _ => ?_
    rw [if_neg fun both => other both.1.symm, mul_zero]

theorem expected_sub {w : Nat → Nat → Rat} (g h : Finset Nat → Rat) :
    expected p V w g - expected p V w h = expected p V w fun S => g S - h S := by
  simp only [expected, ← Finset.sum_sub_distrib, ← mul_sub]

namespace DDnnf

theorem Score.share_zero (score : Score) (binomial : Triangle Rat) (k l : Nat) :
    score.share binomial k l 0 = 0 := by
  cases score with
  | shapley =>
    show 0 / binomial.entry k l / ((k + 1 : Nat) : Rat) = 0
    rw [zero_div, zero_div]
  | banzhaf =>
    show 0 / Scalar.power ((2 : Nat) : Rat) k = 0
    rw [zero_div]

/-- The shares of the differences between two tables add up to the expected weighted difference. -/
theorem shares_spec (score : Score) {positive negative : Triangle Rat}
    (left : positive.Counts p V f) (right : negative.Counts p V g) :
    shares score positive negative =
      expected p V (fun n s => score.weight (n + 1) s) fun S =>
        (if f S then 1 else 0) - if g S then 1 else 0 := by
  have size : max positive.size negative.size = V.card + 1 := by
    rw [left.size, right.size, Nat.max_self]
  have entries : shares score positive negative =
      0 + ∑ k ∈ Finset.range (V.card + 1), ∑ l ∈ Finset.range (k + 1),
        score.share (.pascal (V.card + 1)) k l (positive.entry k l - negative.entry k l) := by
    rw [← size]
    refine accumulate_eq_sum _ (fun k total => ?_) _ _
    refine accumulate_eq_sum _ (fun l total => ?_) _ _
    by_cases same : positive.entry k l - negative.entry k l = 0
    · simp [same, score.share_zero]
    · exact if_neg fun zero => same (of_decide_eq_true zero)
  rw [entries, zero_add, ← expected_sub, ← sum_coeff_wins, ← sum_coeff_wins, ← Finset.sum_sub_distrib]
  refine Finset.sum_congr rfl fun k row => ?_
  rw [← Finset.sum_sub_distrib]
  refine Finset.sum_congr rfl fun l column => ?_
  have row := Finset.mem_range.1 row
  have column := Nat.le_of_lt_succ (Finset.mem_range.1 column)
  rw [score.share_eq row.le column, ← left.poly, ← right.poly, Triangle.coeff_poly, Triangle.coeff_poly,
    if_pos ⟨by rwa [left.size], column⟩, if_pos ⟨by rwa [right.size], column⟩]
  exact mul_sub ..

/-! ## What an input gains -/

variable {d : DDnnf Rat} {x : Nat}

/-- What a coalition gains at the root when an input joins it. -/
def gain (d : DDnnf Rat) (x : Nat) (coalition : Finset Nat) : Rat :=
  (if winning d.circuit d.root (insert x coalition) then 1 else 0) -
    if winning d.circuit d.root (coalition.erase x) then 1 else 0

theorem abs_gain_le (coalition : Finset Nat) : |d.gain x coalition| ≤ 1 := by
  unfold gain
  split <;> split <;> simp

/-- What an input gains on average among the inputs that the root reads it gains among all inputs. -/
theorem expected_gain (inStep : d.circuit.InStep) (countable : d.circuit.IsCountable d.root)
    (score : Score) :
    expected d.circuit.prob ((d.circuit.support [d.root]).erase x)
        (fun n s => score.weight (n + 1) s) (d.gain x) =
      expected d.circuit.prob (d.circuit.inputs.toFinset.erase x)
        (fun n s => score.weight (n + 1) s) (d.gain x) := by
  refine (expected_of_subset (Finset.erase_subset_erase x fun input member => ?_)
    (fun n s small => score.weight_shared n s small) fun S T same => ?_).symm
  · exact (inStep.inputs input).2 (Circuit.mem_support_singleton.1 member).2
  · have others : ∀ input ∈ d.circuit.support [d.root], input ≠ x → (input ∈ S ↔ input ∈ T) :=
      fun input member other => same input (Finset.mem_erase.2 ⟨other, member⟩)
    have joined : winning d.circuit d.root (insert x S) = winning d.circuit d.root (insert x T) := by
      refine winning_congr countable.formula (List.mem_singleton_self _) fun input member => ?_
      rw [Finset.mem_insert, Finset.mem_insert]
      exact or_congr_right' (others input member)
    have left : winning d.circuit d.root (S.erase x) = winning d.circuit d.root (T.erase x) := by
      refine winning_congr countable.formula (List.mem_singleton_self _) fun input member => ?_
      rw [Finset.mem_erase, Finset.mem_erase]
      exact and_congr_right (others input member)
    rw [gain, gain, joined, left]

section Conditioned

variable (inStep : d.circuit.InStep) (countable : d.circuit.IsCountable d.root)
  (kind : d.circuit.kind x = .input)

include inStep countable kind

/-- With the input constant the coalitions are those of the other inputs. -/
theorem coalitions_condition (value : Bool) :
    ∃ table, (d.condition x value).coalitions d.root = .ok table ∧
      table.Counts d.circuit.prob ((d.circuit.support [d.root]).erase x)
        (winning (d.condition x value).circuit d.root) := by
  obtain ⟨table, computed, counts⟩ := coalitions_spec (d := d.condition x value)
    (isCountable_condition inStep kind countable)
  refine ⟨table, computed, ?_⟩
  rw [← support_condition inStep kind countable]
  exact counts

theorem winning_condition_true (coalition : Finset Nat) :
    winning (d.condition x true).circuit d.root coalition =
      winning d.circuit d.root (insert x coalition) :=
  winning_condition inStep kind countable (by simp) fun input other => by simp [other]

theorem winning_condition_false (coalition : Finset Nat) :
    winning (d.condition x false).circuit d.root coalition =
      winning d.circuit d.root (coalition.erase x) :=
  winning_condition inStep kind countable (by simp) fun input other => by simp [other]

/-- The shares add up to what the input gains on average. -/
theorem shares_condition (score : Score) :
    ∃ positive negative, (d.condition x true).coalitions d.root = .ok positive ∧
      (d.condition x false).coalitions d.root = .ok negative ∧
      shares score positive negative =
        expected d.circuit.prob ((d.circuit.support [d.root]).erase x)
          (fun n s => score.weight (n + 1) s) (d.gain x) := by
  obtain ⟨positive, found, left⟩ := coalitions_condition inStep countable kind true
  obtain ⟨negative, found', right⟩ := coalitions_condition inStep countable kind false
  refine ⟨positive, negative, found, found', (shares_spec score left right).trans ?_⟩
  refine expected_congr fun S _ => ?_
  rw [winning_condition_true inStep countable kind, winning_condition_false inStep countable kind, gain]

end Conditioned

/-! ## Scores -/

/-- The score of an input is its expected score among all inputs. -/
theorem score_eq_ok (inStep : d.circuit.InStep) (countable : d.circuit.IsCountable d.root)
    (probs : ∀ input, d.circuit.kind input = .input →
      0 ≤ d.circuit.prob input ∧ d.circuit.prob input ≤ 1)
    (kind : d.circuit.kind x = .input) (score : Score) :
    d.score score x = .ok (expectedScore score d.circuit.prob d.circuit.inputs.toFinset
      (winning d.circuit d.root) x) := by
  obtain ⟨others, same⟩ : ∃ others, others = d.circuit.inputs.toFinset.erase x := ⟨_, rfl⟩
  have new : x ∉ others := same ▸ Finset.notMem_erase x _
  have all : d.circuit.inputs.toFinset = insert x others := by
    rw [same, Finset.insert_erase (GateSet.mem_toFinset.2 ((inStep.inputs x).2 kind))]
  have value : ∑ N ∈ (insert x others).powerset with x ∈ N,
      exactly d.circuit.prob (insert x others) N *
        ∑ S ∈ (N.erase x).powerset, score.weight N.card S.card *
          ((if winning d.circuit d.root (insert x S) then 1 else 0) -
            if winning d.circuit d.root S then 1 else 0) =
      expected d.circuit.prob others (fun n s => score.weight (n + 1) s) (d.gain x) *
        d.circuit.prob x := by
    rw [← sum_with_player new]
    refine Finset.sum_congr rfl fun N _ => congrArg (exactly d.circuit.prob (insert x others) N * ·) ?_
    refine Finset.sum_congr rfl fun S below => ?_
    have outside : x ∉ S := fun member =>
      Finset.notMem_erase x N (Finset.mem_powerset.1 below member)
    rw [gain, Finset.erase_eq_of_notMem outside]
  have bounded : |expected d.circuit.prob others (fun n s => score.weight (n + 1) s) (d.gain x) *
      d.circuit.prob x| ≤ 1 := by
    have likely := probs x kind
    rw [abs_mul, abs_of_nonneg likely.1]
    refine mul_le_one₀ (abs_expected_le (fun input member => probs input ?_)
      (fun n s small => score.weight_shared n s small) score.weight_one_zero
      (fun n s => score.weight_nonneg (n + 1) s) abs_gain_le) likely.1 likely.2
    rw [same] at member
    exact (inStep.inputs input).1 (GateSet.mem_toFinset.1 (Finset.mem_of_mem_erase member))
  obtain ⟨positive, negative, found, found', total⟩ := shares_condition inStep countable kind score
  rw [expected_gain inStep countable, ← same] at total
  rw [expectedScore, all, value]
  obtain ⟨above, below⟩ := abs_le.1 bounded
  rw [DDnnf.score, if_pos kind, found, found']
  simp only [bind, Except.bind, total]
  rw [Scalar.clamp_rat (by simpa using above) (by simpa using below)]

/-- The score of an input is its expected Shapley or Banzhaf value, in the game of the true inputs of a
random world.  All inputs are players, also those that the root does not read. -/
theorem score_spec (inStep : d.circuit.InStep) (countable : d.circuit.IsCountable d.root)
    (probs : ∀ input, d.circuit.kind input = .input →
      0 ≤ d.circuit.prob input ∧ d.circuit.prob input ≤ 1)
    (kind : d.circuit.kind x = .input) (score : Score) :
    ∃ f : Finset Nat → Bool,
      (∀ S, d.circuit.evaluate d.root (Circuit.among S) = .ok (f S)) ∧
      d.score score x = .ok (∑ N ∈ d.circuit.inputs.toFinset.powerset with x ∈ N,
        exactly d.circuit.prob d.circuit.inputs.toFinset N *
          ∑ S ∈ (N.erase x).powerset, score.weight N.card S.card *
            ((if f (insert x S) then 1 else 0) - if f S then 1 else 0)) := by
  exact ⟨winning d.circuit d.root, fun S => countable.formula.evaluate _,
    score_eq_ok inStep countable probs kind score⟩

theorem isCountable_conjunction : Circuit.conjunction.IsCountable 2 := by
  have wires : ∀ gate < 3, ∀ child ∈ Circuit.conjunction.children gate, child < gate := by decide
  have input : ∀ child ∈ Circuit.conjunction.children 2, Circuit.conjunction.kind child = .input ∧
      Circuit.conjunction.children child = [] := by decide
  -- the root reaches itself and its two children
  have cases : ∀ gate, Circuit.conjunction.Reaches 2 gate →
      gate = 2 ∨ Circuit.conjunction.kind gate = .input ∧ Circuit.conjunction.children gate = [] := by
    intro gate path
    rcases Network.Reaches.cases_iff.1 path with same | ⟨child, wire, path⟩
    · exact Or.inl same
    · obtain rfl := Network.Reaches.eq_of_children_nil (input child wire).2 path
      exact Or.inr (input gate wire)
  have apart : Circuit.conjunction.Disjoint [0, 1] := by
    refine List.pairwise_pair.2 fun input both => ?_
    have left := Network.Reaches.eq_of_children_nil (n := Circuit.conjunction.toNetwork) rfl both.1.1
    have right := Network.Reaches.eq_of_children_nil (n := Circuit.conjunction.toNetwork) rfl both.2.1
    omega
  have no_or : ∀ gate, Circuit.conjunction.Reaches 2 gate → Circuit.conjunction.kind gate ≠ .or := by
    intro gate path is_or
    rcases cases gate path with rfl | ⟨is_input, _⟩
    · exact absurd is_or (by decide)
    · exact absurd (is_input.symm.trans is_or) (by decide)
  refine
    { formula :=
        { even := Circuit.inStep_conjunction.even
          acyclic := Network.acyclic_of_lt fun gate child wire =>
            wires gate (Network.lt_of_wire wire) child wire
          evaluable := fun gate path => ?_ }
      childless := fun gate path is_input => ?_
      decomposable := fun gate path is_and => ?_
      deterministic := fun gate path is_or => absurd is_or (no_or gate path)
      smooth := fun gate path is_or => absurd is_or (no_or gate path) }
  · rcases cases gate path with rfl | ⟨is_input, _⟩
    · exact trivial
    · simp [Circuit.Evaluable, is_input]
  · rcases cases gate path with rfl | ⟨_, childless⟩
    · exact absurd is_input (by decide)
    · exact childless
  · rcases cases gate path with rfl | ⟨is_input, _⟩
    · exact apart
    · exact absurd (is_input.symm.trans is_and) (by decide)

/-- In a conjunction of two inputs the first one gains when the second one is there. -/
theorem score_conjunction :
    (ofCircuit Circuit.conjunction 2).score .shapley 0 = .ok (1 / 12) ∧
    ∃ f : Finset Nat → Bool,
      (∀ S, Circuit.conjunction.evaluate 2 (Circuit.among S) = .ok (f S)) ∧
      (ofCircuit Circuit.conjunction 2).score .shapley 0 =
        .ok (∑ N ∈ Circuit.conjunction.inputs.toFinset.powerset with 0 ∈ N,
          exactly Circuit.conjunction.prob Circuit.conjunction.inputs.toFinset N *
            ∑ S ∈ (N.erase 0).powerset, Score.shapley.weight N.card S.card *
              ((if f (insert 0 S) then 1 else 0) - if f S then 1 else 0)) := by
  refine ⟨by decide +kernel, ?_⟩
  refine score_spec (d := ofCircuit Circuit.conjunction 2) Circuit.inStep_conjunction
    isCountable_conjunction (fun input is_input => ?_) rfl .shapley
  have inside : input < 3 := Circuit.lt_of_input is_input
  obtain rfl | rfl | rfl : input = 0 ∨ input = 1 ∨ input = 2 := by omega
  all_goals decide +kernel

end DDnnf

end Provenance
