import Provenance.Circuit.Worlds
import Provenance.Proofs.Circuit.Chance
import Provenance.Proofs.Outcome

/-!
# Enumerating worlds

The binary digits of the counter tell the worlds apart, each world having one number (`sum_digits`), and
the table of a number is the world of its digits.  So the enumeration finds the chance of the root
(`possibleWorlds_eq_chance`), for which the numbers below the power of two stand for all worlds.
-/

namespace Provenance.Circuit

variable {c : Circuit Rat} {root : Nat}

/-! ## Numbers of worlds -/

/-- The inputs whose binary digit in `number` is one, the lowest digit being that of the first. -/
def digits : List Nat → Nat → Finset Nat
  | [], _ => ∅
  | input :: rest, number =>
    if number % 2 = 1 then insert input (digits rest (number / 2)) else digits rest (number / 2)

theorem digits_subset (inputs : List Nat) (number : Nat) :
    digits inputs number ⊆ inputs.toFinset := by
  induction inputs generalizing number with
  | nil => exact Finset.Subset.refl _
  | cons input rest ih =>
    have below := ih (number / 2)
    rw [digits, List.toFinset_cons]
    split
    · exact Finset.insert_subset_insert _ below
    · exact below.trans (Finset.subset_insert _ _)

theorem digits_double (input : Nat) (rest : List Nat) (number : Nat) :
    digits (input :: rest) (2 * number) = digits rest number := by
  rw [digits, if_neg (by omega), show 2 * number / 2 = number by omega]

theorem digits_double_succ (input : Nat) (rest : List Nat) (number : Nat) :
    digits (input :: rest) (2 * number + 1) = insert input (digits rest number) := by
  rw [digits, if_pos (by omega), show (2 * number + 1) / 2 = number by omega]

theorem sum_range_double (f : Nat → Rat) (n : Nat) :
    ∑ k ∈ Finset.range (2 * n), f k = ∑ k ∈ Finset.range n, (f (2 * k) + f (2 * k + 1)) := by
  induction n with
  | zero => rfl
  | succ n ih =>
    rw [Nat.mul_succ, Finset.sum_range_succ, Finset.sum_range_succ, ih, Finset.sum_range_succ,
      add_assoc]

/-- The numbers below the power of two are those of all worlds, each once. -/
theorem sum_digits (f : Finset Nat → Rat) {inputs : List Nat} (nodup : inputs.Nodup) :
    ∑ number ∈ Finset.range (2 ^ inputs.length), f (digits inputs number) =
      ∑ N ∈ inputs.toFinset.powerset, f N := by
  induction inputs generalizing f with
  | nil => rfl
  | cons input rest ih =>
    obtain ⟨new, nodup⟩ := List.nodup_cons.1 nodup
    have outside : input ∉ rest.toFinset := fun member => new (List.mem_toFinset.1 member)
    rw [List.length_cons, Nat.pow_succ', sum_range_double, Finset.sum_add_distrib,
      List.toFinset_cons, Finset.sum_powerset_insert outside, ← ih f nodup,
      ← ih (fun N => f (insert input N)) nodup]
    simp only [digits_double, digits_double_succ]

/-! ## One world -/

theorem getD_mark {inputs : List Nat} {table : Array Bool}
    (inside : ∀ input ∈ inputs, input < table.size) (number gate : Nat) :
    (worldTable.mark inputs number table).getD gate false =
      (decide (gate ∈ digits inputs number) || table.getD gate false) := by
  induction inputs generalizing number table with
  | nil => simp [worldTable.mark, digits]
  | cons input rest ih =>
    have here : input < table.size := inside input List.mem_cons_self
    have inside' := fun other listed => inside other (List.mem_cons_of_mem input listed)
    rw [worldTable.mark, digits]
    split
    · rw [ih (by simpa using inside'), Table.getD_set here]
      by_cases same : gate = input
      · simp [same]
      · simp [same]
    · rw [ih inside']

/-- The table of a number is the world of its digits. -/
theorem getD_worldTable {size : Nat} {inputs : List Nat} (inside : ∀ input ∈ inputs, input < size)
    (number : Nat) : (fun gate => (worldTable size number inputs).getD gate false) =
      among (digits inputs number) := by
  funext gate
  have blank : (Array.replicate size false).getD gate false = false := by
    rw [Array.getD_eq_getD_getElem?, Array.getElem?_replicate]
    split <;> rfl
  rw [worldTable, getD_mark (by simpa using inside), blank, Bool.or_false]
  rfl

theorem extend_eq {inputs : List Nat} (nodup : inputs.Nodup) (number : Nat) (p : Rat) :
    worldProbability.extend c inputs number p =
      p * exactly c.prob inputs.toFinset (digits inputs number) := by
  induction inputs generalizing number p with
  | nil => simp [worldProbability.extend, digits, exactly]
  | cons input rest ih =>
    obtain ⟨new, nodup⟩ := List.nodup_cons.1 nodup
    have outside : input ∉ rest.toFinset := fun member => new (List.mem_toFinset.1 member)
    have below := digits_subset rest (number / 2)
    rw [worldProbability.extend, digits, List.toFinset_cons]
    split
    · rw [ih nodup, exactly_insert_insert outside below, mul_assoc]
    · rw [ih nodup, exactly_insert_of_notMem outside below, mul_assoc]
      rfl

/-- The probability of a number is that of the world of its digits. -/
theorem worldProbability_eq {inputs : List Nat} (nodup : inputs.Nodup) (number : Nat) :
    c.worldProbability number inputs =
      exactly c.prob inputs.toFinset (digits inputs number) :=
  (extend_eq nodup number 1).trans (one_mul _)

/-! ## All worlds -/

section Enumeration

variable {inputs : List Nat} (formula : c.IsFormula root) (nodup : inputs.Nodup)
  (inside : ∀ input ∈ inputs, input < c.size)

include formula nodup inside

theorem addWorlds_eq (remaining number : Nat) (total : Rat) :
    c.addWorlds (c.postOrder root) inputs remaining number total =
      .ok (total + ∑ k ∈ Finset.range remaining,
        let N := digits inputs (number + k)
        if c.value (among N) root = true then exactly c.prob inputs.toFinset N else 0) := by
  induction remaining generalizing number total with
  | zero => simp [addWorlds]
  | succ remaining ih =>
    have evaluated : c.evaluateInOrder (c.postOrder root)
        (fun gate => (worldTable c.size number inputs).getD gate false) =
          .ok (c.value (among (digits inputs number)) root) := by
      rw [getD_worldTable inside]
      exact formula.evaluate _
    rw [addWorlds]
    simp only [evaluated]
    show c.addWorlds _ _ _ _ _ = _
    rw [ih, Finset.sum_range_succ', worldProbability_eq nodup]
    simp only [Nat.add_zero, Nat.add_assoc, Nat.add_comm 1]
    refine congrArg Except.ok ?_
    split
    · ring
    · ring

end Enumeration

/-- The enumeration, when it is made, finds the chance of the root. -/
theorem possibleWorlds_eq_chance (inStep : c.InStep) (formula : c.IsFormula root) {budget : Budget}
    {p : Rat} (found : c.possibleWorlds root budget = .ok p) : p = c.chance root := by
  have inside : ∀ input ∈ c.inputs.toList, input < c.size := fun input listed =>
    lt_of_input ((inStep.inputs input).1 listed)
  have nodup := c.inputs.nodup_toList
  have same : c.inputs.toList.toFinset = c.inputs.toFinset := by
    ext input
    rw [List.mem_toFinset]
    rfl
  simp only [possibleWorlds, Outcome.bind_eq_ok] at found
  obtain ⟨_, _, _, _, _, _, _, _, found⟩ := found
  have all := addWorlds_eq formula nodup inside (Nat.pow 2 c.inputs.toList.length) 0 Scalar.zero
  have sum := sum_digits (fun N => if c.value (among N) root = true then
    exactly c.prob c.inputs.toList.toFinset N else 0) nodup
  rw [found] at all
  simp only [Nat.zero_add, Scalar.zero_rat] at all
  rw [Except.ok.inj all, chance, chance_eq_sum, ← same, ← sum, zero_add]
  rfl

end Provenance.Circuit
