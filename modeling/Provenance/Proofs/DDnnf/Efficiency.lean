import Provenance.Proofs.DDnnf.Probability
import Provenance.Proofs.DDnnf.Score

/-!
# Shapley values add up

In one world the Shapley values of the players add up to what they win together, less what is won by no
one: a coalition with some players and without some others is counted once for each player that it gains
and once for each that it lacks, with opposite signs and the same total weight (`sum_marginals`).  On
average over the worlds the sum is the chance of the root, less its value where all inputs are false
(`sum_expectedScore`), and this is what the scores of a d-DNNF add up to (`sum_scores_spec`).
-/

namespace Provenance

variable {p : Nat → Rat} {V N : Finset Nat} {x : Nat}

/-! ## One world -/

/-- The coalitions with a player are those of the others that the player joined. -/
theorem sum_powerset_with (member : x ∈ N) (h : Finset Nat → Rat) :
    ∑ S ∈ (N.erase x).powerset, h (insert x S) = ∑ T ∈ N.powerset with x ∈ T, h T := by
  have apart : ∀ S ∈ (N.erase x).powerset, x ∉ S := fun S below member =>
    Finset.notMem_erase x N (Finset.mem_powerset.1 below member)
  rw [Finset.sum_filter]
  conv_rhs => rw [← Finset.insert_erase member]
  rw [Finset.sum_powerset_insert (Finset.notMem_erase x N), Finset.sum_eq_zero fun S below =>
    if_neg (apart S below), zero_add]
  exact Finset.sum_congr rfl fun S _ => (if_pos (Finset.mem_insert_self x S)).symm

theorem sum_powerset_without (h : Finset Nat → Rat) :
    ∑ S ∈ (N.erase x).powerset, h S = ∑ T ∈ N.powerset with x ∉ T, h T := by
  refine Finset.sum_congr ?_ fun _ _ => rfl
  ext S
  rw [Finset.mem_powerset, Finset.mem_filter, Finset.mem_powerset, Finset.subset_erase]

namespace DDnnf

/-- The share of a coalition among those of its size. -/
def sizeShare (players size : Nat) : Rat :=
  (size.factorial * (players - size).factorial : Rat) / players.factorial

theorem sizeShare_zero (players : Nat) : sizeShare players 0 = 1 := by
  have positive : (players.factorial : Rat) ≠ 0 := Nat.cast_ne_zero.2 players.factorial_ne_zero
  rw [sizeShare, Nat.factorial_zero, Nat.cast_one, one_mul, Nat.sub_zero, div_self positive]

theorem sizeShare_self (players : Nat) : sizeShare players players = 1 := by
  have positive : (players.factorial : Rat) ≠ 0 := Nat.cast_ne_zero.2 players.factorial_ne_zero
  rw [sizeShare, Nat.sub_self, Nat.factorial_zero, Nat.cast_one, mul_one, div_self positive]

/-- The members of a coalition have its share together. -/
theorem mul_weight_pred {players size : Nat} (some_member : 0 < size) :
    size * Score.shapley.weight players (size - 1) = sizeShare players size := by
  obtain ⟨size, rfl⟩ := Nat.exists_eq_add_of_lt some_member
  have rest : players - (0 + size + 1 - 1) - 1 = players - (0 + size + 1) := by omega
  rw [Score.weight, sizeShare, rest, Nat.zero_add, Nat.add_sub_cancel, Nat.factorial_succ]
  push_cast
  ring

/-- So have the players that it lacks. -/
theorem sub_mul_weight {players size : Nat} (some_other : size < players) :
    ((players - size : Nat) : Rat) * Score.shapley.weight players size = sizeShare players size := by
  obtain ⟨rest, rfl⟩ := Nat.exists_eq_add_of_lt some_other
  have one_less : size + rest + 1 - size - 1 = rest := by omega
  have others : size + rest + 1 - size = rest + 1 := by omega
  rw [Score.weight, sizeShare, one_less, others, Nat.factorial_succ rest]
  push_cast
  ring

/-- A coalition that is not empty is counted once for each player that it gains. -/
theorem sum_joined (g : Finset Nat → Rat) :
    ∑ x ∈ N, ∑ S ∈ (N.erase x).powerset, Score.shapley.weight N.card S.card * g (insert x S) =
      ∑ T ∈ N.powerset, sizeShare N.card T.card * g T - g ∅ := by
  calc ∑ x ∈ N, ∑ S ∈ (N.erase x).powerset, Score.shapley.weight N.card S.card * g (insert x S)
    _ = ∑ x ∈ N, ∑ T ∈ N.powerset with x ∈ T, Score.shapley.weight N.card (T.card - 1) * g T := by
      refine Finset.sum_congr rfl fun x member => ?_
      rw [← sum_powerset_with member]
      refine Finset.sum_congr rfl fun S below => ?_
      have apart : x ∉ S := fun member => Finset.notMem_erase x N (Finset.mem_powerset.1 below member)
      rw [Finset.card_insert_of_notMem apart, Nat.add_sub_cancel]
    _ = ∑ T ∈ N.powerset, ∑ x ∈ T, Score.shapley.weight N.card (T.card - 1) * g T := by
      refine Finset.sum_comm' fun x T => ?_
      rw [Finset.mem_filter, Finset.mem_powerset]
      exact ⟨fun both => ⟨both.2.2, both.2.1⟩, fun both => ⟨both.2 both.1, both.2, both.1⟩⟩
    _ = ∑ T ∈ N.powerset.erase ∅, sizeShare N.card T.card * g T := by
      rw [← Finset.sum_erase N.powerset (a := ∅) Finset.sum_empty]
      refine Finset.sum_congr rfl fun T listed => ?_
      have some_member := Finset.card_pos.2 (Finset.nonempty_iff_ne_empty.2 (Finset.ne_of_mem_erase listed))
      rw [Finset.sum_const, nsmul_eq_mul, ← mul_assoc, mul_weight_pred some_member]
    _ = ∑ T ∈ N.powerset, sizeShare N.card T.card * g T - g ∅ := by
      rw [Finset.sum_erase_eq_sub (Finset.empty_mem_powerset N), Finset.card_empty, sizeShare_zero, one_mul]

/-- A coalition that is not whole is counted once for each player that it lacks. -/
theorem sum_left (g : Finset Nat → Rat) :
    ∑ x ∈ N, ∑ S ∈ (N.erase x).powerset, Score.shapley.weight N.card S.card * g S =
      ∑ T ∈ N.powerset, sizeShare N.card T.card * g T - g N := by
  calc ∑ x ∈ N, ∑ S ∈ (N.erase x).powerset, Score.shapley.weight N.card S.card * g S
    _ = ∑ x ∈ N, ∑ T ∈ N.powerset with x ∉ T, Score.shapley.weight N.card T.card * g T :=
      Finset.sum_congr rfl fun x _ => sum_powerset_without _
    _ = ∑ T ∈ N.powerset, ∑ x ∈ N \ T, Score.shapley.weight N.card T.card * g T := by
      refine Finset.sum_comm' fun x T => ?_
      rw [Finset.mem_filter, Finset.mem_sdiff]
      exact ⟨fun both => ⟨⟨both.1, both.2.2⟩, both.2.1⟩, fun both => ⟨both.1.1, both.2, both.1.2⟩⟩
    _ = ∑ T ∈ N.powerset.erase N, sizeShare N.card T.card * g T := by
      rw [← Finset.sum_erase N.powerset (a := N) (by rw [sdiff_self]; exact Finset.sum_empty)]
      refine Finset.sum_congr rfl fun T listed => ?_
      obtain ⟨different, below⟩ := Finset.mem_erase.1 listed
      have below := Finset.mem_powerset.1 below
      have some_other := Finset.card_lt_card (Finset.ssubset_iff_subset_ne.2 ⟨below, different⟩)
      rw [Finset.sum_const, nsmul_eq_mul, Finset.card_sdiff_of_subset below, ← mul_assoc,
        sub_mul_weight some_other]
    _ = ∑ T ∈ N.powerset, sizeShare N.card T.card * g T - g N := by
      rw [Finset.sum_erase_eq_sub (Finset.mem_powerset_self N), sizeShare_self, one_mul]

/-- The gains of the players add up to what all of them win, less what is won by no one. -/
theorem sum_marginals (g : Finset Nat → Rat) :
    ∑ x ∈ N, ∑ S ∈ (N.erase x).powerset, Score.shapley.weight N.card S.card * (g (insert x S) - g S) =
      g N - g ∅ := by
  simp only [mul_sub, Finset.sum_sub_distrib]
  rw [sum_joined, sum_left]
  ring

/-! ## All worlds -/

/-- The expected Shapley values of the inputs add up to the chance of winning, less what is won by no one. -/
theorem sum_expectedScore (f : Finset Nat → Bool) :
    ∑ x ∈ V, expectedScore .shapley p V f x =
      (∑ N ∈ V.powerset, exactly p V N * if f N then 1 else 0) - if f ∅ then 1 else 0 := by
  have total : ∑ N ∈ V.powerset, exactly p V N = 1 := by
    have always := chance_true (p := p) (V := V)
    rwa [chance_eq_sum, Finset.sum_congr rfl fun N _ => if_pos rfl] at always
  calc ∑ x ∈ V, expectedScore .shapley p V f x
    _ = ∑ N ∈ V.powerset, ∑ x ∈ N, exactly p V N * ∑ S ∈ (N.erase x).powerset,
          Score.shapley.weight N.card S.card * ((if f (insert x S) then 1 else 0) - if f S then 1 else 0) := by
      refine Finset.sum_comm' fun x N => ?_
      rw [Finset.mem_filter, Finset.mem_powerset]
      exact ⟨fun both => ⟨both.2.2, both.2.1⟩, fun both => ⟨both.2 both.1, both.2, both.1⟩⟩
    _ = ∑ N ∈ V.powerset, exactly p V N * ((if f N then 1 else 0) - if f ∅ then 1 else 0) := by
      refine Finset.sum_congr rfl fun N _ => ?_
      rw [← Finset.mul_sum, sum_marginals fun S => if f S then 1 else 0]
    _ = _ := by
      simp only [mul_sub, Finset.sum_sub_distrib]
      rw [← Finset.sum_mul, total, one_mul]

/-! ## The scores of a circuit -/

variable {d : DDnnf Rat}

/-- The Shapley values of the inputs add up to the probability of the root, less its value in the world in
which all inputs are false.  What is remembered of the gates below the root must be what an evaluation
finds that remembers nothing. -/
theorem sum_scores_spec (inStep : d.circuit.InStep) (countable : d.circuit.IsCountable d.root)
    (probs : ∀ input, d.circuit.kind input = .input →
      0 ≤ d.circuit.prob input ∧ d.circuit.prob input ≤ 1)
    (remembered : ∀ gate, d.circuit.Reaches d.root gate → ∀ p, d.memo[gate]? = some p →
      (d.fresh.probabilityOf gate).1 = .ok p) :
    ∃ scores probability idle, d.scores .shapley = .ok scores ∧ d.probability.1 = .ok probability ∧
      d.circuit.evaluate d.root (fun _ => false) = .ok idle ∧
      (scores.map Prod.snd).sum = probability - if idle then 1 else 0 := by
  have formula := countable.formula
  have chance : ∀ {gate}, d.circuit.Reaches d.root gate → Weighs d.circuit d.circuit.chance gate :=
    fun path => weighs_chance inStep (formula.of_reaches path)
      (fun other lower => countable.decomposable other (path.trans lower))
      fun other lower => countable.deterministic other (path.trans lower)
  have fresh : ∀ gate, d.circuit.Reaches d.root gate →
      (d.fresh.probabilityOf gate).1 = .ok (d.circuit.chance gate) := by
    intro gate path
    have formula := formula.of_reaches path
    refine probabilityOf_eq_ok (d := d.fresh) formula.even formula.acyclic formula.inside
      (fun other lower => chance (path.trans lower)) fun other _ p found => ?_
    simp [DDnnf.fresh, ofCircuit] at found
  have probability : d.probability.1 = .ok (d.circuit.chance d.root) := by
    refine probabilityOf_eq_ok formula.even formula.acyclic formula.inside (fun gate => chance)
      fun gate path p found => ?_
    have same := (remembered gate path p found).symm.trans (fresh gate path)
    exact Except.ok.inj same
  have scored : d.scores .shapley = .ok (d.circuit.inputs.toList.map fun input =>
      (input, expectedScore .shapley d.circuit.prob d.circuit.inputs.toFinset
        (winning d.circuit d.root) input)) := by
    refine Outcome.mapM_eq_ok fun input listed => ?_
    rw [score_eq_ok inStep countable probs ((inStep.inputs input).1 listed) .shapley]
    rfl
  have nobody : Circuit.among ∅ = fun _ => false := funext fun input => decide_eq_false (Finset.notMem_empty input)
  refine ⟨_, _, winning d.circuit d.root ∅, scored, probability, ?_, ?_⟩
  · rw [← nobody]
    exact formula.evaluate _
  · have listed : d.circuit.chance d.root = ∑ N ∈ d.circuit.inputs.toFinset.powerset,
        exactly d.circuit.prob d.circuit.inputs.toFinset N *
          if winning d.circuit d.root N then 1 else 0 := by
      rw [Circuit.chance, chance_eq_sum]
      refine Finset.sum_congr rfl fun N _ => ?_
      rw [mul_ite, mul_one, mul_zero]
      rfl
    rw [List.map_map, listed, ← sum_expectedScore]
    rfl

/-- The negation of an input. -/
def negatedInput : Circuit Rat := ((Circuit.empty.addInput (1 / 3)).2.addNode .not [0]).2

theorem inStep_negatedInput : negatedInput.InStep :=
  Circuit.InStep.addNode _ _ _ (Circuit.inStep_empty.addInput _)

theorem isCountable_negatedInput : negatedInput.IsCountable 1 := by
  have plain : ∀ gate, negatedInput.kind gate ≠ .and ∧ negatedInput.kind gate ≠ .or := by
    intro gate
    rcases Nat.lt_or_ge gate 2 with small | outside
    · revert gate
      decide
    · rw [Circuit.kind_of_le outside]
      decide
  have wires : ∀ gate < 2, ∀ child ∈ negatedInput.children gate, child < gate := by decide
  have sound : negatedInput.Sound :=
    { inStep := inStep_negatedInput
      layered := fun gate child wire => wires gate (Network.lt_of_wire wire) child wire
      evaluable := by
        intro gate small
        have small : gate < 2 := small
        obtain rfl | rfl : gate = 0 ∨ gate = 1 := by omega
        · exact trivial
        · exact ⟨0, rfl⟩
      disjoint := fun gate is_and => absurd is_and (plain gate).1
      exclusive := fun gate is_or => absurd is_or (plain gate).2 }
  exact
    { formula := sound.isFormula (by decide)
      childless := by
        intro gate _ kind
        have small : gate < 2 := Circuit.lt_of_input kind
        obtain rfl | rfl : gate = 0 ∨ gate = 1 := by omega
        · rfl
        · exact absurd kind (by decide)
      decomposable := sound.decomposable 1
      deterministic := sound.deterministic 1
      smooth := fun gate _ is_or => absurd is_or (plain gate).2 }

/-- The negation of an input is true where no input is, so its score is negative; here with the probabilities
remembered that an earlier evaluation found. -/
theorem sum_scores_negatedInput :
    (ofCircuit negatedInput 1).probability.2.memo.toList = [(0, 1 / 3), (1, 2 / 3)] ∧
    ∃ scores probability idle, (ofCircuit negatedInput 1).probability.2.scores .shapley = .ok scores ∧
      (ofCircuit negatedInput 1).probability.2.probability.1 = .ok probability ∧
      negatedInput.evaluate 1 (fun _ => false) = .ok idle ∧
      (scores.map Prod.snd).sum = probability - if idle then 1 else 0 := by
  have known : (ofCircuit negatedInput 1).probability.2.memo.toList = [(0, 1 / 3), (1, 2 / 3)] := by
    decide +kernel
  refine ⟨known, sum_scores_spec (d := (ofCircuit negatedInput 1).probability.2) inStep_negatedInput
    isCountable_negatedInput (fun input kind => ?_) fun gate path p found => ?_⟩
  · have small : input < 2 := Circuit.lt_of_input kind
    obtain rfl | rfl : input = 0 ∨ input = 1 := by omega
    all_goals decide +kernel
  · have listed := Std.TreeMap.mem_toList_iff_getElem?_eq_some.2 found
    rw [known] at listed
    rcases List.mem_pair.1 listed with same | same
    · obtain ⟨rfl, rfl⟩ := Prod.mk.inj same
      decide +kernel
    · obtain ⟨rfl, rfl⟩ := Prod.mk.inj same
      decide +kernel

end DDnnf

end Provenance
