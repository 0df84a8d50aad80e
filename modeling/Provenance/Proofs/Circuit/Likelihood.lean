import Provenance.Proofs.Circuit.InStep
import Provenance.Proofs.Circuit.Selection

/-!
# The likelihood of a gate

The probability that a gate is true when the inputs are independent and each key selects at most one of its
alternatives (`Circuit.likelihood`).  Without alternatives it is the chance of the gate
(`likelihood_eq_chance`).
-/

namespace Provenance.Circuit

open Provenance.Network

section Groups

variable {α : Type} {c : Circuit α} {gate key : Nat}

/-- The alternatives of a key. -/
def alternativesOf (c : Circuit α) (key : Nat) : Finset Nat :=
  {gate ∈ c.alternatives.toFinset | c.key? gate = some key}

/-- The keys of the alternatives. -/
def keySet (c : Circuit α) : Finset Nat := (c.alternatives.toList.filterMap c.key?).toFinset

theorem apart_alternativesOf (c : Circuit α) : Apart c.alternativesOf := by
  intro key other different
  refine Finset.disjoint_left.2 fun gate left right => different ?_
  exact Option.some.inj ((Finset.mem_filter.1 left).2.symm.trans (Finset.mem_filter.1 right).2)

variable (inStep : c.InStep)

include inStep

theorem mem_alternativesOf :
    gate ∈ c.alternativesOf key ↔ c.kind gate = .alternative ∧ c.key? gate = some key := by
  rw [alternativesOf, Finset.mem_filter, GateSet.mem_toFinset, inStep.alternatives]

theorem kind_of_mem_alternativesOf (member : gate ∈ c.alternativesOf key) : c.kind gate = .alternative :=
  ((mem_alternativesOf inStep).1 member).1

theorem mem_keySet : key ∈ c.keySet ↔ ∃ gate, gate ∈ c.alternativesOf key := by
  rw [keySet, List.mem_toFinset, List.mem_filterMap]
  refine exists_congr fun gate => ?_
  rw [mem_alternativesOf inStep, ← inStep.alternatives]
  exact Iff.rfl

/-- Alternatives are no inputs. -/
theorem notMem_inputs_of_mem_alternativesOf (member : gate ∈ c.alternativesOf key) :
    gate ∉ c.inputs.toFinset := by
  intro listed
  have kind := (inStep.inputs gate).1 (GateSet.mem_toFinset.1 listed)
  rw [kind_of_mem_alternativesOf inStep member] at kind
  exact absurd kind (by decide)

theorem mem_inputs_toFinset : gate ∈ c.inputs.toFinset ↔ c.kind gate = .input := by
  rw [GateSet.mem_toFinset, inStep.inputs]

end Groups

variable {c : Circuit Rat} {gate : Nat}

/-- The probability that a gate is true, the keys selecting their alternatives. -/
noncomputable def likelihood (c : Circuit Rat) (gate : Nat) : Rat :=
  Provenance.likelihood c.prob c.inputs.toFinset c.alternativesOf c.keySet fun world => c.truth world gate

theorem keySet_eq_empty (inStep : c.InStep) (boolean : ∀ gate, c.kind gate ≠ .alternative) :
    c.keySet = ∅ := by
  refine Finset.eq_empty_of_forall_notMem fun key listed => ?_
  obtain ⟨gate, member⟩ := (mem_keySet inStep).1 listed
  exact boolean gate (kind_of_mem_alternativesOf inStep member)

/-- Without alternatives only the inputs count. -/
theorem likelihood_of_boolean (inStep : c.InStep) (boolean : ∀ gate, c.kind gate ≠ .alternative) :
    c.likelihood gate =
      Provenance.chance c.prob c.inputs.toFinset fun world => c.truth world gate := by
  rw [likelihood, keySet_eq_empty inStep boolean, likelihood_empty]

theorem likelihood_eq_chance (inStep : c.InStep) (boolean : ∀ gate, c.kind gate ≠ .alternative)
    (formula : c.IsFormula gate) : c.likelihood gate = c.chance gate := by
  rw [likelihood_of_boolean inStep boolean, chance]
  exact chance_congr fun N _ => formula.truth_eq_value (among N)

/-- Two alternatives of one key under a disjunction. -/
def choicePair : Circuit Rat :=
  ((((((empty.addGate .alternative).2.addGate .alternative).2.addNode .or [0, 1]).2.setProb 0
    (1 / 10)).setProb 1 (3 / 10)).setKey 0 7).setKey 1 7

theorem wellFormed_choicePair : choicePair.WellFormed := by
  have gates := (inStep_empty (α := Rat)).addGate .alternative |>.addGate .alternative
  have inStep : choicePair.InStep :=
    (((((InStep.addNode _ _ _ gates).setProb _).setProb _).setKey _).setKey _)
  exact inStep.wellFormed (by decide)

end Provenance.Circuit
