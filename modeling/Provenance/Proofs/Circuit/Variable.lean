import Provenance.Proofs.Circuit.Classes

/-!
# Copies of inputs

A circuit that is made from another one gets inputs with the names and the probabilities of inputs there
(`addVariable`).  A copy leaves all other gates as they are (`extends_addVariable`), as long as none of them
has its name.
-/

namespace Provenance.Circuit

variable {α : Type} [Scalar α]

/-- The target with a copy of an input of the circuit. -/
def addVariable (c target : Circuit α) (input : Nat) : Circuit α :=
  let added := (target.addInput (c.prob input)).2
  match c.name? input with
  | some name => added.setName target.size name
  | none => added

section AddVariable

variable (c target : Circuit α) (input : Nat)

@[simp] theorem size_addVariable : (addVariable c target input).size = target.size + 1 := by
  unfold addVariable
  cases c.name? input <;> simp [addInput]

theorem kind_addVariable (other : Nat) : (addVariable c target input).kind other =
    if other = target.size then .input else target.kind other := by
  rw [← kind_addGate]
  unfold addVariable
  cases c.name? input <;> simp [addInput]

@[simp] theorem children_addVariable : (addVariable c target input).children = target.children := by
  unfold addVariable
  cases c.name? input <;> simp [addInput]

variable {c target} (inStep : target.InStep)

include inStep

theorem prob_addVariable (other : Nat) : (addVariable c target input).prob other =
    if other = target.size then c.prob input else target.prob other := by
  have added := prob_addInput (c.prob input) inStep other
  unfold addVariable
  cases c.name? input <;> exact added

/-- Other gates keep their names when none has the name of the new one. -/
theorem name?_addVariable (other : Nat) (free : ∀ name, target.name? other = some name →
      c.name? input ≠ some name) (anonymous : target.name? target.size = none) :
    (addVariable c target input).name? other =
      if other = target.size then c.name? input else target.name? other := by
  unfold addVariable
  cases named : c.name? input with
  | none =>
    show target.name? other = _
    split
    · rename_i same
      rw [same, anonymous]
    · rfl
  | some name =>
    show (target.naming.assign target.size name).name? other = _
    rw [Naming.name?_assign inStep.naming]
    split
    · rfl
    · refine if_neg fun taken => ?_
      exact free name taken named

/-- A copy of an input leaves the gates as they are when its name is free. -/
theorem extends_addVariable (free : ∀ other name, target.name? other = some name →
      c.name? input ≠ some name) (anonymous : target.name? target.size = none) :
    target.Extends (addVariable c target input) where
  size_le := by
    rw [size_addVariable]
    exact Nat.le_succ _
  kind gate inside := by rw [kind_addVariable, if_neg (Nat.ne_of_lt inside)]
  children gate _ := by rw [children_addVariable]
  name? gate inside := by
    rw [name?_addVariable input inStep gate (free gate) anonymous, if_neg (Nat.ne_of_lt inside)]
  prob gate inside := by rw [prob_addVariable input inStep, if_neg (Nat.ne_of_lt inside)]

theorem InStep.addVariable : (addVariable c target input).InStep := by
  have added : (target.addInput (c.prob input)).2.InStep := inStep.addInput (c.prob input)
  unfold Circuit.addVariable
  cases c.name? input with
  | none => exact added
  | some name => exact added.setName name

omit inStep in
theorem sound_addVariable (sound : target.Sound) : (addVariable c target input).Sound := by
  have added : (target.addNode .input []).2.Sound :=
    sound.addNode .input (fun _ listed => absurd listed List.not_mem_nil) trivial
      (fun is_and => absurd is_and (by decide)) (fun is_or => absurd is_or (by decide))
  refine added.of_same (InStep.addVariable input sound.inStep) (by simp) ?_ ?_
  · funext other
    rw [kind_addVariable, kind_addNode]
  · funext other
    rw [children_addVariable, children_addNode _ _ _ sound.inStep]
    split
    · rename_i same
      rw [same]
      exact Network.children_eq_nil_of_le (Nat.le_of_eq sound.inStep.wires)
    · rfl

end AddVariable

end Provenance.Circuit
