import Provenance.Proofs.Circuit.Plain
import Provenance.Proofs.DDnnf.Session

/-!
# Expansion by an input

A plain circuit with an input made a constant is the circuit in the worlds where the input has this value, and
beside the input nothing changes (`Conditioned`, `conditioned_condition`).  A chance is split by the two values
of an input, so the probability of a d-DNNF comes from those of the two conditioned ones (`chance_condition`).
Both are said of the operation together (`condition_faithful`).
-/

namespace Provenance.DDnnf

open Provenance.Network Provenance.Circuit

section

variable {α : Type} [Scalar α]

/-- A d-DNNF in which an input has become a constant. -/
structure Conditioned (d : DDnnf α) (x : Nat) (value : Bool) (d' : DDnnf α) : Prop where
  root : d'.root = d.root
  size : d'.circuit.size = d.circuit.size
  /-- Each gate has the value that it had in the worlds where the input has this value. -/
  evaluate : ∀ gate < d.circuit.size, ∀ world, ∃ result,
    d'.circuit.evaluate gate world = .ok result ∧
    d.circuit.evaluate gate (Function.update world x value) = .ok result
  constant : d'.circuit.constant? x = some value
  anonymous : d'.circuit.name? x = none
  inputs : ∀ input, input ∈ d'.circuit.inputs ↔ input ∈ d.circuit.inputs ∧ input ≠ x
  kind : ∀ gate ≠ x, d'.circuit.kind gate = d.circuit.kind gate
  children : d'.circuit.children = d.circuit.children
  name : ∀ gate ≠ x, d'.circuit.name? gate = d.circuit.name? gate
  owner : ∀ name gate, d'.circuit.find? name = some gate ↔ d.circuit.find? name = some gate ∧ gate ≠ x
  prob : d'.circuit.prob = d.circuit.prob
  key : d'.circuit.key? = d.circuit.key?
  decomposable : d.circuit.Decomposable d.root → d'.circuit.Decomposable d.root
  deterministic : d.circuit.Deterministic d.root → d'.circuit.Deterministic d.root
  smooth : d.circuit.Smooth d.root → d'.circuit.Smooth d.root

variable {d : DDnnf α} {x : Nat} {value : Bool}

theorem size_condition : (d.condition x value).circuit.size = d.circuit.size :=
  Circuit.size_setKind d.circuit x _

theorem name?_condition (gate : Nat) :
    (d.condition x value).circuit.name? gate = if gate = x then none else d.circuit.name? gate :=
  Naming.name?_release d.circuit.naming x gate

theorem conditioned_condition (plain : d.circuit.Plain) (inside : d.root < d.circuit.size)
    (kind : d.circuit.kind x = .input) : Conditioned d x value (d.condition x value) := by
  have inStep := plain.wellFormed.inStep
  have inStep' : (d.condition x value).circuit.InStep := inStep_condition inStep kind
  have childless : ∀ {gate}, d.circuit.Reaches gate x → d.circuit.children x = [] := fun _ =>
    plain.childless x kind
  have formula : ∀ {gate}, gate < d.circuit.size → d.circuit.IsFormula gate := plain.isFormula
  refine
    { root := rfl
      size := size_condition
      evaluate := fun gate small world => ⟨_, ?evaluate, (formula small).evaluate _⟩
      constant := ?constant
      anonymous := (name?_condition x).trans (if_pos rfl)
      inputs := fun input => ?inputs
      kind := fun gate other => (kind_condition kind gate).trans (if_neg other)
      children := funext fun gate => ?children
      name := fun gate other => (name?_condition gate).trans (if_neg other)
      owner := fun name gate => ?owner
      prob := rfl
      key := rfl
      decomposable := decomposable_condition inStep kind childless
      deterministic := deterministic_condition inStep kind childless (formula inside)
      smooth := smooth_condition inStep kind childless }
  case evaluate =>
    rw [(isFormula_condition inStep kind childless (formula small)).evaluate world,
      value_condition inStep kind childless (formula small)]
  case constant =>
    unfold Circuit.constant?
    rw [kind_condition kind, if_pos rfl, children_condition inStep kind, if_pos rfl]
    cases value <;> rfl
  case inputs =>
    rw [inStep'.inputs, kind_condition_eq_input kind, inStep.inputs]
  case children =>
    rw [children_condition inStep kind]
    split
    · rename_i same
      rw [same, plain.childless x kind]
    · rfl
  case owner =>
    have named : (d.condition x value).circuit.find? name = some gate ↔
        (d.condition x value).circuit.name? gate = some name := inStep'.naming name gate
    have named' : d.circuit.find? name = some gate ↔ d.circuit.name? gate = some name := inStep.naming name gate
    rw [named, named', name?_condition]
    split <;> simp [*]

end

/-! ## Probabilities -/

variable {d : DDnnf Rat} {x : Nat}

/-- The chance of a gate comes from its chances with an input made true and made false. -/
theorem chance_condition {gate : Nat} (plain : d.circuit.Plain) (inside : gate < d.circuit.size)
    (kind : d.circuit.kind x = .input) : d.circuit.chance gate =
      d.circuit.prob x * (d.condition x true).circuit.chance gate +
        (1 - d.circuit.prob x) * (d.condition x false).circuit.chance gate := by
  have inStep := plain.wellFormed.inStep
  have inputs : ∀ value, (d.condition x value).circuit.inputs.toFinset = d.circuit.inputs.toFinset.erase x := by
    intro value
    ext input
    rw [GateSet.mem_toFinset, (inStep_condition inStep kind).inputs, kind_condition_eq_input kind,
      Finset.mem_erase, GateSet.mem_toFinset, inStep.inputs, and_comm]
  have conditional : ∀ value, (d.condition x value).circuit.chance gate =
      chance d.circuit.prob (d.circuit.inputs.toFinset.erase x) fun world =>
        d.circuit.value (Function.update world x value) gate := by
    intro value
    rw [Circuit.chance, inputs]
    refine chance_congr fun N _ => ?_
    exact value_condition inStep kind (fun _ => plain.childless x kind) (plain.isFormula inside) (among N)
  rw [conditional, conditional]
  exact chance_expand (GateSet.mem_toFinset.2 ((inStep.inputs x).2 kind))

/-- The evaluation of a d-DNNF in any session finds the chance of its root. -/
theorem Sound.probability_eq (sound : d.Sound) (formula : d.circuit.IsFormula d.root)
    (decomposable : d.circuit.Decomposable d.root) (deterministic : d.circuit.Deterministic d.root) :
    d.probability.1 = .ok (d.circuit.chance d.root) := by
  obtain ⟨outcome, settles⟩ := exists_settles (α := Rat) sound.wellFormed.acyclic
  exact (sound.probabilityOf_eq settles sound.inside).trans
    (settles.eq_chance sound.wellFormed.inStep formula decomposable deterministic)

/-- Conditioning makes an input a constant in a copy: each gate has in each world the value that it had with the
input made this constant, nothing else changes, and the classes are kept.  The original is as it was.  The
probability of a deterministic decomposable formula of any session is the mean of those of the two conditioned
ones, weighted by the probability of the input. -/
theorem condition_faithful :
    (∀ {α : Type} [Scalar α] (d : DDnnf α) (x : Nat) (value : Bool), d.circuit.Plain →
      d.root < d.circuit.size → d.circuit.kind x = .input →
      Conditioned d x value (Use.step d (.condition x value true)) ∧
      Use.step d (.condition x value false) = d) ∧
    ∀ (d : DDnnf Rat) (x : Nat), d.Sound → d.circuit.Plain → d.circuit.kind x = .input →
      d.circuit.Decomposable d.root → d.circuit.Deterministic d.root →
      ∃ p yes no : Rat, d.probability.1 = .ok p ∧ (d.condition x true).probability.1 = .ok yes ∧
        (d.condition x false).probability.1 = .ok no ∧
        p = d.circuit.prob x * yes + (1 - d.circuit.prob x) * no := by
  refine ⟨fun d x value plain inside kind => ⟨conditioned_condition plain inside kind, rfl⟩, ?_⟩
  intro d x sound plain kind decomposable deterministic
  have conditional : ∀ value, (d.condition x value).probability.1 =
      .ok ((d.condition x value).circuit.chance d.root) := by
    intro value
    have conditioned : Conditioned d x value (d.condition x value) :=
      conditioned_condition plain sound.inside kind
    have formula : (d.condition x value).circuit.IsFormula d.root :=
      isFormula_condition plain.wellFormed.inStep kind (fun _ => plain.childless x kind)
        (plain.isFormula sound.inside)
    exact (sound.condition (lt_of_input kind) value).probability_eq formula
      (conditioned.decomposable decomposable) (conditioned.deterministic deterministic)
  exact ⟨_, _, _, sound.probability_eq (plain.isFormula sound.inside) decomposable deterministic,
    conditional true, conditional false, chance_condition plain sound.inside kind⟩

/-- An input or else another one: with the first one true it is certain, with the first one false as likely as
the second one. -/
theorem condition_faithful_fallback :
    fallback.Plain ∧ fallback.kind 0 = .input ∧ fallback.Decomposable 4 ∧ fallback.Deterministic 4 ∧
    Conditioned (ofCircuit fallback 4) 0 true ((ofCircuit fallback 4).condition 0 true) ∧
    (ofCircuit fallback 4).probability.1 = .ok (2 / 3) ∧
    ((ofCircuit fallback 4).condition 0 true).probability.1 = .ok 1 ∧
    ((ofCircuit fallback 4).condition 0 false).probability.1 = .ok (1 / 3) ∧
    (2 / 3 : Rat) = fallback.prob 0 * 1 + (1 - fallback.prob 0) * (1 / 3) := by
  have inside : 4 < fallback.size := by decide
  have sound : (ofCircuit fallback 4).Sound := sound_ofCircuit plain_fallback.wellFormed inside
  have all : (ofCircuit fallback 4).probability.1 = .ok (2 / 3) := by decide +kernel
  have yes : ((ofCircuit fallback 4).condition 0 true).probability.1 = .ok 1 := by decide +kernel
  have no : ((ofCircuit fallback 4).condition 0 false).probability.1 = .ok (1 / 3) := by decide +kernel
  obtain ⟨conditioned, -⟩ := condition_faithful.1 (ofCircuit fallback 4) 0 true plain_fallback inside rfl
  obtain ⟨p, yes', no', all', found, found', split⟩ := condition_faithful.2 (ofCircuit fallback 4) 0 sound
    plain_fallback rfl decomposable_fallback deterministic_fallback
  obtain rfl := Except.ok.inj (all.symm.trans all')
  obtain rfl := Except.ok.inj (yes.symm.trans found)
  obtain rfl := Except.ok.inj (no.symm.trans found')
  exact ⟨plain_fallback, rfl, decomposable_fallback, deterministic_fallback, conditioned, all, yes, no, split⟩

end Provenance.DDnnf
