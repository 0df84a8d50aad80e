import Provenance.Proofs.Circuit.Worlds

/-!
# What an enumeration reads

The enumeration of worlds succeeds for each root that has a value in every world, in a circuit without
alternatives and with few enough inputs (`possibleWorlds_eq_ok`).  The chance that it finds depends on what the
root reaches alone (`AgreesBelow.chance_eq`).  So inputs that the root does not read can be added, changed into
gates of other kinds or given other probabilities, and the enumeration finds the same (`possibleWorlds_spec`),
although it goes through other worlds.
-/

namespace Provenance.Circuit

open Provenance.Network

variable {α : Type} {c c' : Circuit α} {root : Nat}

/-! ## Roots for which the worlds are enumerated -/

/-- A circuit without alternatives and with few inputs, and a root with a value in every world. -/
structure Enumerable (c : Circuit α) (root : Nat) : Prop where
  inStep : c.InStep
  acyclic : c.Acyclic
  boolean : ∀ gate, c.kind gate ≠ .alternative
  few : c.inputs.size < enumerationLimit
  defined : ∀ gate, c.Reaches root gate → c.kind gate ≠ .undetermined
  negations : ∀ gate, c.Reaches root gate → c.kind gate = .not → ∃ child, c.children gate = [child]

theorem Enumerable.isFormula (enumerable : c.Enumerable root) : c.IsFormula root where
  even := enumerable.inStep.even
  acyclic := enumerable.acyclic
  evaluable gate path := by
    unfold Evaluable
    cases kind : c.kind gate with
    | input | and | or => trivial
    | not => exact enumerable.negations gate path kind
    | alternative => exact enumerable.boolean gate kind
    | undetermined => exact enumerable.defined gate path kind

/-- The enumeration does not fail, and finds the chance of the root. -/
theorem Enumerable.possibleWorlds_eq_ok {c : Circuit Rat} (enumerable : c.Enumerable root) :
    c.possibleWorlds root .unlimited = .ok (c.chance root) := by
  have formula := enumerable.isFormula
  have inside : ∀ input ∈ c.inputs.toList, input < c.size := fun input listed =>
    lt_of_input ((enumerable.inStep.inputs input).1 listed)
  have boolean := enumerable.inStep.requireBoolean_eq_ok_iff.2 enumerable.boolean
  have few : c.inputs.toList.length < enumerationLimit := enumerable.few
  have values : c.requireValues (c.postOrder root) = .ok () := by
    have evaluated : c.evaluateInOrder (c.postOrder root) (fun _ => false) = _ := formula.evaluate _
    rw [requireValues, evaluated]
    rfl
  obtain ⟨p, found⟩ : ∃ p, c.possibleWorlds root .unlimited = .ok p := by
    simp only [possibleWorlds, Outcome.bind_eq_ok, Outcome.require_eq_ok, decide_eq_true_eq]
    exact ⟨_, (), boolean, (), few, (), values, (), Budget.afford_unlimited _ _ _,
      addWorlds_eq formula c.inputs.nodup_toList inside _ 0 Scalar.zero⟩
  rw [found, possibleWorlds_eq_chance enumerable.inStep formula found]

/-! ## Circuits that agree below a root -/

section Agreement

variable [Scalar α]

/-- What the root reaches is the same in both circuits, and the inputs among it have the same probabilities. -/
structure AgreesBelow (c c' : Circuit α) (root : Nat) : Prop where
  kind : ∀ gate, c.Reaches root gate → c'.kind gate = c.kind gate
  children : ∀ gate, c.Reaches root gate → c'.children gate = c.children gate
  prob : ∀ input, c.Reads root input → c'.prob input = c.prob input

namespace AgreesBelow

variable (agrees : c.AgreesBelow c' root)

include agrees

theorem reads_iff {input : Nat} : c'.Reads root input ↔ c.Reads root input :=
  reads_of_agree agrees.children agrees.kind

/-- What the enumeration asks of the gates below the root it asks of the same gates in both circuits. -/
theorem enumerable (enumerable : c.Enumerable root) (inStep : c'.InStep) (acyclic : c'.Acyclic)
    (boolean : ∀ gate, c'.kind gate ≠ .alternative) (few : c'.inputs.size < enumerationLimit) :
    c'.Enumerable root where
  inStep := inStep
  acyclic := acyclic
  boolean := boolean
  few := few
  defined gate path := by
    have path := (reaches_of_agree agrees.children).1 path
    rw [agrees.kind gate path]
    exact enumerable.defined gate path
  negations gate path := by
    have path := (reaches_of_agree agrees.children).1 path
    rw [agrees.kind gate path, agrees.children gate path]
    exact enumerable.negations gate path

end AgreesBelow

end Agreement

section Chance

variable {c c' : Circuit Rat}

/-- Only the inputs that the root reads count. -/
theorem IsFormula.chance_eq (formula : c.IsFormula root) (inStep : c.InStep) {V : Finset Nat}
    (read : ∀ input, input ∈ V ↔ c.Reads root input) :
    c.chance root = Provenance.chance c.prob V fun world => c.value world root := by
  refine chance_of_subset (fun input member => ?_) formula.dependsOn fun input _ out reads => ?_
  · exact (inStep.inputs input).2 ((read input).1 member).2
  · exact out ((read input).2 reads)

/-- The chance of a root depends on what it reaches alone. -/
theorem AgreesBelow.chance_eq (agrees : c.AgreesBelow c' root) (inStep : c.InStep) (inStep' : c'.InStep)
    (formula : c.IsFormula root) (formula' : c'.IsFormula root) : c'.chance root = c.chance root := by
  classical
  obtain ⟨V, read⟩ : ∃ V : Finset Nat, ∀ input, input ∈ V ↔ c.Reads root input := by
    refine ⟨c.inputs.toFinset.filter (c.Reads root), fun input => ?_⟩
    rw [Finset.mem_filter, and_iff_right_iff_imp]
    exact fun reads => (inStep.inputs input).2 reads.2
  calc c'.chance root
    _ = Provenance.chance c'.prob V fun world => c'.value world root :=
      formula'.chance_eq inStep' fun input => (read input).trans agrees.reads_iff.symm
    _ = Provenance.chance c'.prob V fun world => c.value world root :=
      chance_congr fun N _ => value_of_agree formula formula' agrees.children agrees.kind
    _ = Provenance.chance c.prob V fun world => c.value world root :=
      chance_congr_probs fun input member => agrees.prob input ((read input).1 member)
    _ = c.chance root := (formula.chance_eq inStep read).symm

theorem AgreesBelow.possibleWorlds_eq (agrees : c.AgreesBelow c' root) (enumerable : c.Enumerable root)
    (enumerable' : c'.Enumerable root) :
    c'.possibleWorlds root .unlimited = c.possibleWorlds root .unlimited := by
  rw [enumerable.possibleWorlds_eq_ok, enumerable'.possibleWorlds_eq_ok,
    agrees.chance_eq enumerable.inStep enumerable'.inStep enumerable.isFormula enumerable'.isFormula]

end Chance

/-! ## Changes of inputs that are not read -/

section Changes

variable [Scalar α] {input : Nat}

theorem agreesBelow_setKind (is_input : c.kind input = .input) (unread : ¬ c.Reaches root input) (kind : Kind) :
    c.AgreesBelow (c.setKind input kind) root where
  kind gate path := by
    have other : gate ≠ input := fun same => unread (same ▸ path)
    rw [kind_setKind c input kind gate (lt_of_input is_input), if_neg other]
  children _ _ := rfl
  prob _ _ := rfl

variable (enumerable : c.Enumerable root)

include enumerable

theorem Enumerable.agreesBelow_addInput (p : α) : c.AgreesBelow (c.addInput p).2 root := by
  have old : ∀ gate, c.Reaches root gate → gate ≠ c.size := fun gate path =>
    Nat.ne_of_lt (enumerable.isFormula.inside gate path)
  exact {
    kind := fun gate path => by rw [kind_addInput, if_neg (old gate path)]
    children := fun gate _ => by rw [children_addInput]
    prob := fun gate reads => by rw [prob_addInput p enumerable.inStep, if_neg (old gate reads.1)] }

/-- A new input is one more, and no wire leads to it. -/
theorem Enumerable.addInput (p : α) (few : c.inputs.size + 1 < enumerationLimit) :
    (c.addInput p).2.Enumerable root := by
  have inStep := enumerable.inStep.addInput p
  refine (enumerable.agreesBelow_addInput p).enumerable enumerable inStep ?_ (fun gate => ?_) ?_
  · unfold Acyclic Wire
    rw [children_addInput]
    exact enumerable.acyclic
  · rw [kind_addInput]
    split
    · decide
    · exact enumerable.boolean gate
  · have subset : (c.addInput p).2.inputs.toFinset ⊆ insert c.size c.inputs.toFinset := by
      intro gate member
      have kind := (inStep.inputs gate).1 member
      rw [kind_addInput] at kind
      split at kind
      · exact Finset.mem_insert.2 (.inl ‹_›)
      · exact Finset.mem_insert.2 (.inr ((enumerable.inStep.inputs gate).2 kind))
    calc (c.addInput p).2.inputs.size
      _ ≤ (insert c.size c.inputs.toFinset).card := Finset.card_le_card subset
      _ ≤ c.inputs.size + 1 := Finset.card_insert_le _ _
      _ < enumerationLimit := few

variable (is_input : c.kind input = .input) (unread : ¬ c.Reaches root input)

include is_input unread

theorem Enumerable.agreesBelow_setProb (p : α) : c.AgreesBelow (c.setProb input p) root where
  kind _ _ := rfl
  children _ _ := rfl
  prob gate reads := by
    have small : input < c.probs.size := by
      rw [enumerable.inStep.probs]
      exact lt_of_input is_input
    have other : gate ≠ input := fun same => unread (same ▸ reads.1)
    rw [prob_setProb c input gate p small, if_neg other]

theorem Enumerable.setProb (p : α) : (c.setProb input p).Enumerable root :=
  (enumerable.agreesBelow_setProb is_input unread p).enumerable enumerable (enumerable.inStep.setProb p)
    enumerable.acyclic enumerable.boolean enumerable.few

/-- An input that becomes another gate is one input less. -/
theorem Enumerable.setKind {kind : Kind} (boolean : kind ≠ .alternative) :
    (c.setKind input kind).Enumerable root := by
  have small := lt_of_input is_input
  have inStep := enumerable.inStep.setKind kind small
  refine (agreesBelow_setKind is_input unread kind).enumerable enumerable inStep
    enumerable.acyclic (fun gate => ?_) (Nat.lt_of_le_of_lt (GateSet.size_le_size fun gate member => ?_)
      enumerable.few)
  · rw [kind_setKind c input kind gate small]
    split
    · exact boolean
    · exact enumerable.boolean gate
  · have kept := (inStep.inputs gate).1 member
    rw [kind_setKind c input kind gate small] at kept
    split at kept
    · exact (enumerable.inStep.inputs gate).2 (‹gate = input› ▸ is_input)
    · exact (enumerable.inStep.inputs gate).2 kept

end Changes

/-- The enumeration finds the sum, over the sets of inputs with which the root is true, of the probability that
exactly these are true, and nothing but what the root reaches counts: any circuit that agrees with this one
below the root gives the same result, in particular after one more input was added, and after an input that the
root does not reach got another probability or became another gate. -/
theorem possibleWorlds_spec {c : Circuit Rat} (enumerable : c.Enumerable root) :
    c.possibleWorlds root .unlimited =
        .ok (∑ W ∈ c.inputs.toFinset.powerset with c.evaluate root (among W) = .ok true,
          (∏ i ∈ W, c.prob i) * ∏ i ∈ c.inputs.toFinset \ W, (1 - c.prob i)) ∧
      (∀ c' : Circuit Rat, c.AgreesBelow c' root → c'.Enumerable root →
        c'.possibleWorlds root .unlimited = c.possibleWorlds root .unlimited) ∧
      (c.inputs.size + 1 < enumerationLimit → ∀ p,
        (c.addInput p).2.possibleWorlds root .unlimited = c.possibleWorlds root .unlimited) ∧
      ∀ input, c.kind input = .input → ¬ c.Reaches root input →
        (∀ p, (c.setProb input p).possibleWorlds root .unlimited = c.possibleWorlds root .unlimited) ∧
        ∀ kind, kind ≠ .alternative →
          (c.setKind input kind).possibleWorlds root .unlimited = c.possibleWorlds root .unlimited := by
  refine ⟨?_, fun c' agrees => agrees.possibleWorlds_eq enumerable, fun few p => ?_,
    fun input is_input unread => ⟨fun p => ?_, fun kind boolean => ?_⟩⟩
  · have evaluated : ∀ W : Finset Nat,
        c.evaluate root (among W) = .ok true ↔ c.value (among W) root = true := fun W => by
      rw [enumerable.isFormula.evaluate, Except.ok.injEq]
    rw [enumerable.possibleWorlds_eq_ok, chance, Provenance.chance]
    simp only [evaluated]
    rfl
  · exact (enumerable.agreesBelow_addInput p).possibleWorlds_eq enumerable (enumerable.addInput p few)
  · exact (enumerable.agreesBelow_setProb is_input unread p).possibleWorlds_eq enumerable
      (enumerable.setProb is_input unread p)
  · exact (agreesBelow_setKind is_input unread kind).possibleWorlds_eq enumerable
      (enumerable.setKind is_input unread boolean)

/-- The conjunction of two inputs beside a third one. -/
def conjunctionBeside : Circuit Rat := (conjunction.addInput (1 / 5)).2

theorem enumerable_conjunctionBeside : conjunctionBeside.Enumerable 2 := by
  have inStep : conjunctionBeside.InStep := inStep_conjunction.addInput _
  have wellFormed := inStep.wellFormed (by decide)
  have inside : conjunctionBeside.Inside 2 := wellFormed.inside (by decide)
  refine ⟨inStep, wellFormed.acyclic, inStep.requireBoolean_eq_ok_iff.1 rfl, by decide, fun gate path => ?_,
    fun gate path kind => ?_⟩
  · exact (by decide : ∀ gate < conjunctionBeside.size, conjunctionBeside.kind gate ≠ .undetermined) gate
      (inside gate path)
  · exact absurd kind ((by decide : ∀ gate < conjunctionBeside.size, conjunctionBeside.kind gate ≠ .not) gate
      (inside gate path))

/-- The third input is neither needed nor looked at. -/
theorem possibleWorlds_conjunctionBeside : conjunctionBeside.Enumerable 2 ∧
    conjunctionBeside.possibleWorlds 2 .unlimited = .ok (1 / 6) ∧
      (conjunctionBeside.setProb 3 (4 / 5)).possibleWorlds 2 .unlimited = .ok (1 / 6) ∧
      (conjunctionBeside.setKind 3 .or).possibleWorlds 2 .unlimited = .ok (1 / 6) := by
  have spec := possibleWorlds_spec enumerable_conjunctionBeside
  have found : conjunctionBeside.possibleWorlds 2 .unlimited = .ok (1 / 6) := by
    rw [spec.1]
    decide +kernel
  have unread : ¬ conjunctionBeside.Reaches 2 3 := fun path => by
    have formula := enumerable_conjunctionBeside.isFormula
    have listed := (mem_postOrder formula.even formula.inside).2 path
    exact absurd listed (by decide)
  obtain ⟨weighted, changed⟩ := spec.2.2.2 3 rfl unread
  exact ⟨enumerable_conjunctionBeside, found, (weighted _).trans found, (changed .or (by decide)).trans found⟩

end Provenance.Circuit
