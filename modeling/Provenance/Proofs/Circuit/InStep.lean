import Provenance.Circuit.Basic
import Provenance.Proofs.GateSet
import Provenance.Proofs.Naming
import Provenance.Proofs.Network.PostOrder

/-!
# Circuits in step

A circuit is kept in several tables.  They are in step when they have one entry for each gate, when
the lists of inputs and of alternatives hold the gates of these kinds, and when names and gates are
paired (`InStep`).  Each operation that builds a circuit keeps them in step; what it does to kinds,
children, probabilities and names is said once here, and the operations are not opened again.
-/

namespace Provenance.Circuit

open Provenance.Network

variable {α : Type} {c : Circuit α}

/-- The tables of a circuit agree with each other. -/
structure InStep (c : Circuit α) : Prop where
  even : c.Even
  probs : c.probs.size = c.size
  inputs : ∀ gate, gate ∈ c.inputs ↔ c.kind gate = .input
  alternatives : ∀ gate, gate ∈ c.alternatives ↔ c.kind gate = .alternative
  naming : c.naming.Paired

/-- Gates out of the table are undetermined. -/
theorem kind_of_le {gate : Nat} (outside : c.size ≤ gate) : c.kind gate = .undetermined :=
  kind_eq_default_of_le outside

theorem lt_of_kind {gate : Nat} (defined : c.kind gate ≠ .undetermined) : gate < c.size :=
  Nat.lt_of_not_le fun outside => defined (kind_of_le outside)

theorem lt_of_input {gate : Nat} (kind : c.kind gate = .input) : gate < c.size :=
  lt_of_kind (by rw [kind]; decide)

theorem lt_of_alternative {gate : Nat} (kind : c.kind gate = .alternative) : gate < c.size :=
  lt_of_kind (by rw [kind]; decide)

/-- The first alternative is reported, if there is one. -/
theorem InStep.requireBoolean_eq_ok_iff (inStep : c.InStep) :
    c.requireBoolean = .ok () ↔ ∀ gate, c.kind gate ≠ .alternative := by
  have listed : ∀ gate, gate ∈ c.alternatives.toList ↔ c.kind gate = .alternative := inStep.alternatives
  unfold requireBoolean GateSet.first?
  cases members : c.alternatives.toList with
  | nil =>
    refine iff_of_true rfl fun gate kind => ?_
    have member := (listed gate).2 kind
    rw [members] at member
    exact absurd member List.not_mem_nil
  | cons first rest =>
    refine iff_of_false (by simp [Outcome.fail]) fun boolean => ?_
    exact boolean first ((listed first).1 (by rw [members]; exact List.mem_cons_self))

/-- A circuit as it is meant to be: in step, without cycles, and with wires between its gates only. -/
structure WellFormed (c : Circuit α) : Prop where
  inStep : c.InStep
  acyclic : c.Acyclic
  within : ∀ gate, ∀ child ∈ c.children gate, child < c.size

/-- Where children stand before their parents there is no cycle. -/
theorem InStep.wellFormed (inStep : c.InStep)
    (before : ∀ gate < c.size, ∀ child ∈ c.children gate, child < gate) : c.WellFormed where
  inStep := inStep
  acyclic := acyclic_of_lt fun gate child wire => before gate (inStep.even.lt_of_wire wire) child wire
  within gate child wire :=
    have inside := inStep.even.lt_of_wire wire
    (before gate inside child wire).trans inside

/-- Wires do not lead out of the table. -/
theorem WellFormed.inside (wellFormed : c.WellFormed) {root : Nat} (inside : root < c.size) :
    c.Inside root := by
  intro gate path
  induction path with
  | refl => exact inside
  | tail _ wire _ => exact wellFormed.within _ _ wire

theorem notMem_children_empty (gate child : Nat) : child ∉ (empty : Circuit α).children gate := fun wire =>
  Nat.not_lt_zero gate (lt_of_wire wire)

theorem inStep_empty : (empty : Circuit α).InStep where
  even := rfl
  probs := rfl
  inputs gate := by
    rw [kind_of_le (Nat.zero_le gate)]
    simp [empty]
  alternatives gate := by
    rw [kind_of_le (Nat.zero_le gate)]
    simp [empty]
  naming := Naming.paired_empty

/-! ## Changes of one gate -/

section Changes

variable (c) (gate : Nat)

@[simp] theorem size_setKind (kind : Kind) : (c.setKind gate kind).size = c.size :=
  Network.size_setKind ..

@[simp] theorem size_setChildren (children : List Nat) :
    (c.setChildren gate children).size = c.size := rfl

@[simp] theorem size_addWire (child : Nat) : (c.addWire gate child).size = c.size := rfl

@[simp] theorem size_setName (name : String) : (c.setName gate name).size = c.size := rfl

@[simp] theorem size_dropName : (c.dropName gate).size = c.size := rfl

@[simp] theorem size_setProb (p : α) : (c.setProb gate p).size = c.size := rfl

@[simp] theorem kind_setChildren (children : List Nat) :
    (c.setChildren gate children).kind = c.kind := rfl

@[simp] theorem kind_addWire (child : Nat) : (c.addWire gate child).kind = c.kind := rfl

@[simp] theorem kind_setName (name : String) : (c.setName gate name).kind = c.kind := rfl

@[simp] theorem kind_dropName : (c.dropName gate).kind = c.kind := rfl

@[simp] theorem kind_setProb (p : α) : (c.setProb gate p).kind = c.kind := rfl

@[simp] theorem children_setKind (kind : Kind) : (c.setKind gate kind).children = c.children := rfl

@[simp] theorem children_setName (name : String) : (c.setName gate name).children = c.children := rfl

@[simp] theorem children_dropName : (c.dropName gate).children = c.children := rfl

@[simp] theorem children_setProb (p : α) : (c.setProb gate p).children = c.children := rfl

/-- A change of a kind shows at its gate alone. -/
theorem kind_setKind (kind : Kind) (other : Nat) (exists_gate : gate < c.size) :
    (c.setKind gate kind).kind other = if other = gate then kind else c.kind other :=
  Network.kind_setKind _ gate other kind exists_gate

/-- New children show at their parent alone. -/
theorem children_setChildren (children : List Nat) (other : Nat)
    (exists_gate : gate < c.wires.size) :
    (c.setChildren gate children).children other =
      if other = gate then children else c.children other :=
  Table.getD_set exists_gate children [] other

/-- Giving a gate the children that it has changes nothing. -/
theorem setChildren_self : c.setChildren gate (c.children gate) = c :=
  congrArg (fun wires => ({ c with toNetwork := { c.toNetwork with wires := wires } } : Circuit α))
    (Table.set_getD c.wires [] gate)

/-- A new child comes behind those that a gate has. -/
theorem addWire_eq_setChildren (child : Nat) :
    c.addWire gate child = c.setChildren gate (c.children gate ++ [child]) :=
  congrArg (fun wires => ({ c with toNetwork := { c.toNetwork with wires := wires } } : Circuit α))
    (Table.modify_eq_set c.wires (· ++ [child]) [] gate)

theorem children_addWire (child other : Nat) (exists_gate : gate < c.wires.size) :
    (c.addWire gate child).children other =
      if other = gate then c.children gate ++ [child] else c.children other :=
  Network.children_addWire _ gate child other exists_gate

@[simp] theorem inputs_setChildren (children : List Nat) :
    (c.setChildren gate children).inputs = c.inputs := rfl

@[simp] theorem inputs_addWire (child : Nat) : (c.addWire gate child).inputs = c.inputs := rfl

@[simp] theorem inputs_setName (name : String) : (c.setName gate name).inputs = c.inputs := rfl

@[simp] theorem inputs_dropName : (c.dropName gate).inputs = c.inputs := rfl

@[simp] theorem inputs_setProb (p : α) : (c.setProb gate p).inputs = c.inputs := rfl

@[simp] theorem name?_setKind (kind : Kind) : (c.setKind gate kind).name? = c.name? := rfl

@[simp] theorem name?_setChildren (children : List Nat) :
    (c.setChildren gate children).name? = c.name? := rfl

@[simp] theorem name?_addWire (child : Nat) : (c.addWire gate child).name? = c.name? := rfl

@[simp] theorem name?_setProb (p : α) : (c.setProb gate p).name? = c.name? := rfl

end Changes

namespace InStep

variable {gate : Nat}

theorem wires (inStep : c.InStep) : c.wires.size = c.size := inStep.even

theorem setKind (inStep : c.InStep) (kind : Kind) (exists_gate : gate < c.size) :
    (c.setKind gate kind).InStep where
  even := by
    show c.wires.size = (c.kinds.setIfInBounds gate kind).size
    rw [Array.size_setIfInBounds]
    exact inStep.even
  probs := by
    rw [size_setKind]
    exact inStep.probs
  inputs other := by
    rw [kind_setKind c gate kind other exists_gate]
    have := inStep.inputs other
    by_cases same : other = gate <;> by_cases input : kind = .input <;>
      simp [Circuit.setKind, same, input, this]
  alternatives other := by
    rw [kind_setKind c gate kind other exists_gate]
    have := inStep.alternatives other
    by_cases same : other = gate <;> by_cases alternative : kind = .alternative <;>
      simp [Circuit.setKind, same, alternative, this]
  naming := inStep.naming

theorem setChildren (inStep : c.InStep) (children : List Nat) :
    (c.setChildren gate children).InStep :=
  { inStep with
    even := by
      show (c.wires.setIfInBounds gate children).size = c.kinds.size
      rw [Array.size_setIfInBounds]
      exact inStep.even }

theorem addWire (inStep : c.InStep) (child : Nat) : (c.addWire gate child).InStep :=
  { inStep with
    even := by
      show (c.wires.modify gate (· ++ [child])).size = c.kinds.size
      rw [Array.size_modify]
      exact inStep.even }

theorem setName (inStep : c.InStep) (name : String) : (c.setName gate name).InStep :=
  { inStep with naming := inStep.naming.assign gate name }

theorem dropName (inStep : c.InStep) : (c.dropName gate).InStep :=
  { inStep with naming := inStep.naming.release gate }

theorem setProb (inStep : c.InStep) (p : α) : (c.setProb gate p).InStep :=
  { inStep with
    probs := by
      show (c.probs.setIfInBounds gate p).size = c.size
      rw [Array.size_setIfInBounds]
      exact inStep.probs }

theorem setKey (inStep : c.InStep) (key : Nat) : (c.setKey gate key).InStep :=
  ⟨inStep.even, inStep.probs, inStep.inputs, inStep.alternatives, inStep.naming⟩

theorem dropKey (inStep : c.InStep) : (c.dropKey gate).InStep :=
  ⟨inStep.even, inStep.probs, inStep.inputs, inStep.alternatives, inStep.naming⟩

end InStep

/-! ## Several children -/

theorem InStep.addWires (inStep : c.InStep) (gate : Nat) (children : List Nat) :
    (c.addWires gate children).InStep :=
  List.foldlRecOn children _ inStep fun _ inStep child _ => inStep.addWire child

section AddWires

variable (c) (gate : Nat) (children : List Nat)

/-- Several new children change the wires alone. -/
theorem addWires_eq : c.addWires gate children =
    { c with toNetwork := { c.toNetwork with wires := (c.addWires gate children).wires } } := by
  unfold Circuit.addWires
  induction children generalizing c with
  | nil => rfl
  | cons child children ih => exact ih (c.addWire gate child)

@[simp] theorem kind_addWires : (c.addWires gate children).kind = c.kind := by
  rw [addWires_eq]
  rfl

@[simp] theorem size_addWires : (c.addWires gate children).size = c.size := by
  rw [addWires_eq]
  rfl

@[simp] theorem probs_addWires : (c.addWires gate children).probs = c.probs := by
  rw [addWires_eq]

@[simp] theorem keys_addWires : (c.addWires gate children).keys = c.keys := by
  rw [addWires_eq]

@[simp] theorem naming_addWires : (c.addWires gate children).naming = c.naming := by
  rw [addWires_eq]

@[simp] theorem name?_addWires : (c.addWires gate children).name? = c.name? := by
  rw [addWires_eq]
  rfl

/-- Several new children come in order behind those that a gate has. -/
theorem children_addWires (other : Nat) (exists_gate : gate < c.wires.size) :
    (c.addWires gate children).children other =
      if other = gate then c.children gate ++ children else c.children other := by
  unfold Circuit.addWires
  induction children generalizing c with
  | nil =>
    rw [List.foldl_nil, List.append_nil]
    split
    · rename_i same
      rw [same]
    · rfl
  | cons child children ih =>
    have larger : gate < (c.addWire gate child).wires.size := by
      show gate < (c.wires.modify gate (· ++ [child])).size
      rwa [Array.size_modify]
    rw [List.foldl_cons, ih _ larger]
    simp only [children_addWire c gate child _ exists_gate]
    by_cases same : other = gate <;> simp [same]

end AddWires

/-! ## New gates -/

/-- A new gate is undetermined before its kind is set. -/
theorem kind_push (c : Circuit α) (other : Nat) :
    (c.toNetwork.addGate .undetermined).kind other = c.kind other :=
  Table.getD_push_fallback c.kinds .undetermined other

variable [Scalar α]

/-- The probability of a gate after one was set. -/
theorem prob_setProb (c : Circuit α) (gate other : Nat) (p : α) (exists_gate : gate < c.probs.size) :
    (c.setProb gate p).prob other = if other = gate then p else c.prob other :=
  Table.getD_set exists_gate p Scalar.one other

section AddGate

variable (c) (kind : Kind)

@[simp] theorem addGate_fst : (c.addGate kind).1 = c.size := rfl

@[simp] theorem size_addGate : (c.addGate kind).2.size = c.size + 1 := by
  simp [addGate]

/-- A new gate is the last one and the others keep their kinds. -/
theorem kind_addGate (other : Nat) :
    (c.addGate kind).2.kind other = if other = c.size then kind else c.kind other := by
  rw [addGate, kind_setKind _ _ _ _ (by simp)]
  split
  · rfl
  · exact kind_push c other

/-- A new gate has no children. -/
@[simp] theorem children_addGate : (c.addGate kind).2.children = c.children :=
  funext (Table.getD_push_fallback c.wires [])

/-- A new gate has probability one. -/
@[simp] theorem prob_addGate : (c.addGate kind).2.prob = c.prob :=
  funext (Table.getD_push_fallback c.probs Scalar.one)

@[simp] theorem name?_addGate : (c.addGate kind).2.name? = c.name? := rfl

end AddGate

theorem InStep.addGate (inStep : c.InStep) (kind : Kind) : (c.addGate kind).2.InStep := by
  refine InStep.setKind ?_ kind (by simp)
  refine
    { even := ?_
      probs := ?_
      inputs := ?_
      alternatives := ?_
      naming := inStep.naming }
  · show (c.wires.push []).size = (c.kinds.push Kind.undetermined).size
    rw [Array.size_push, Array.size_push, inStep.even]
  · show (c.probs.push Scalar.one).size = (c.kinds.push Kind.undetermined).size
    rw [Array.size_push, Array.size_push, inStep.probs]
    rfl
  · intro gate
    exact (inStep.inputs gate).trans (by rw [kind_push])
  · intro gate
    exact (inStep.alternatives gate).trans (by rw [kind_push])

/-! ## New inputs -/

section AddInput

variable (p : α)

@[simp] theorem size_addInput (c : Circuit α) : (c.addInput p).2.size = c.size + 1 :=
  size_addGate c .input

theorem kind_addInput (c : Circuit α) (other : Nat) :
    (c.addInput p).2.kind other = if other = c.size then .input else c.kind other :=
  kind_addGate c .input other

@[simp] theorem children_addInput (c : Circuit α) : (c.addInput p).2.children = c.children :=
  children_addGate c .input

@[simp] theorem name?_addInput (c : Circuit α) : (c.addInput p).2.name? = c.name? := rfl

theorem InStep.addInput (inStep : c.InStep) : (c.addInput p).2.InStep :=
  (inStep.addGate .input).setProb p

/-- The new input has the given probability. -/
theorem prob_addInput (inStep : c.InStep) (other : Nat) :
    (c.addInput p).2.prob other = if other = c.size then p else c.prob other := by
  have last : c.size < (c.addGate .input).2.probs.size := by
    rw [(inStep.addGate .input).probs, size_addGate]
    exact Nat.lt_succ_self _
  have set := prob_setProb (c.addGate .input).2 c.size other p last
  rwa [prob_addGate] at set

end AddInput

/-! ## New gates with children -/

section AddNode

variable (c) (kind : Kind) (children : List Nat)

@[simp] theorem addNode_fst : (c.addNode kind children).1 = c.size := rfl

@[simp] theorem size_addNode : (c.addNode kind children).2.size = c.size + 1 := by
  simp [addNode]

theorem kind_addNode (other : Nat) :
    (c.addNode kind children).2.kind other = if other = c.size then kind else c.kind other := by
  rw [← kind_addGate]
  simp [addNode]

@[simp] theorem prob_addNode : (c.addNode kind children).2.prob = c.prob := by
  rw [← prob_addGate c kind]
  funext other
  simp [addNode, prob]

@[simp] theorem name?_addNode : (c.addNode kind children).2.name? = c.name? := by
  simp [addNode]

@[simp] theorem naming_addNode : (c.addNode kind children).2.naming = c.naming := by
  rw [addNode, naming_addWires]
  rfl

theorem InStep.addNode (inStep : c.InStep) : (c.addNode kind children).2.InStep :=
  (inStep.addGate kind).addWires c.size children

theorem children_addNode (inStep : c.InStep) (other : Nat) :
    (c.addNode kind children).2.children other =
      if other = c.size then children else c.children other := by
  have exists_gate : c.size < (c.addGate kind).2.wires.size := by
    rw [(inStep.addGate kind).wires]
    simp
  have none : c.children c.size = [] := children_eq_nil_of_le (Nat.le_of_eq inStep.wires)
  show ((c.addGate kind).2.addWires c.size children).children other = _
  rw [children_addWires _ _ _ _ exists_gate]
  simp [none]

end AddNode

/-- The conjunction of two inputs. -/
def conjunction : Circuit Rat :=
  (((empty.addInput (1 / 2)).2.addInput (1 / 3)).2.addNode .and [0, 1]).2

theorem inStep_conjunction : conjunction.InStep :=
  InStep.addNode _ _ _ ((inStep_empty.addInput _).addInput _)

theorem wellFormed_conjunction : conjunction.WellFormed := inStep_conjunction.wellFormed (by decide)

end Provenance.Circuit
