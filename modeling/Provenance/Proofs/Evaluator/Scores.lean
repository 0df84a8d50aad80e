import Provenance.Proofs.DDnnf.Binary
import Provenance.Proofs.DDnnf.Score
import Provenance.Proofs.DDnnf.Smooth
import Provenance.Proofs.Evaluator

/-!
# Scores along a decomposition

What is compiled along a decomposition is made smooth, and binary for Shapley values; both refine it, so the
tables of scores can count what comes out (`Refines.isCountable`, `exists_prepared`).  Its inputs are those of
the circuit under other numbers and with the same names.  So the scores that an evaluator finds by name are the
expected scores of the inputs for the gate in the circuit itself (`scores_treeDecomposition_spec`).
-/

namespace Provenance

open Provenance.Circuit

namespace Circuit

variable {α : Type} {c c' : Circuit α} {root : Nat}

/-! ## Inputs by name -/

/-- The named inputs of a circuit with their names, by increasing gate. -/
def namedInputs (c : Circuit α) : List (Nat × String) :=
  c.inputs.toList.filterMap fun gate => (c.name? gate).map fun name => (gate, name)

theorem mem_namedInputs (inStep : c.InStep) {gate : Nat} {name : String} :
    (gate, name) ∈ c.namedInputs ↔ c.kind gate = .input ∧ c.name? gate = some name := by
  rw [namedInputs, List.mem_filterMap]
  constructor
  · rintro ⟨other, listed, made⟩
    obtain ⟨_, named, same⟩ := Option.map_eq_some_iff.1 made
    obtain ⟨rfl, rfl⟩ := Prod.mk.inj same
    exact ⟨(inStep.inputs other).1 listed, named⟩
  · rintro ⟨kind, named⟩
    exact ⟨gate, (inStep.inputs gate).2 kind, by rw [named]; rfl⟩

theorem pairwise_namedInputs : (c.namedInputs.map Prod.fst).Pairwise (· < ·) := by
  rw [List.pairwise_map]
  refine c.inputs.sorted.filterMap _ fun gate other less entry made entry' made' => ?_
  obtain ⟨_, _, rfl⟩ := Option.map_eq_some_iff.1 made
  obtain ⟨_, _, rfl⟩ := Option.map_eq_some_iff.1 made'
  exact less

/-- The names that an evaluator goes through are those of the named inputs. -/
theorem map_snd_namedInputs : c.inputs.toList.filterMap c.name? = c.namedInputs.map Prod.snd := by
  rw [namedInputs, List.map_filterMap]
  refine List.filterMap_congr fun gate _ => ?_
  rw [Option.map_map]
  exact Option.map_id'.symm

/-! ## Circuits that the tables count -/

variable [Scalar α]

/-- A circuit that refines one for the tables is one for them itself, once it is smooth. -/
theorem Refines.isCountable (refines : c.Refines c') (inside : root < c.size) (formula : c.IsFormula root)
    (childless : ∀ input, c.Reads root input → c.children input = []) (decomposable : c.Decomposable root)
    (deterministic : c.Deterministic root) (smooth : c'.Smooth root) : c'.IsCountable root where
  formula := (refines.isFormula_iff root inside).2 formula
  childless gate path is_input := by
    have reads := (refines.reads_iff root inside gate).1 ⟨path, is_input⟩
    rw [refines.children gate reads.2, childless gate reads]
  decomposable := refines.decomposable root inside decomposable
  deterministic := refines.deterministic root inside deterministic
  smooth := smooth

end Circuit

/-- A circuit that refines one with the same inputs as a third has the same inputs as that too. -/
theorem Compilation.SameInputs.of_refines {α : Type} [Scalar α] {c target target' : Circuit α}
    {number : Nat → Nat} (same : SameInputs c target number) (refines : target.Refines target') :
    SameInputs c target' number where
  kind input is_input := (refines.input_iff _).2 (same.kind input is_input)
  injective := same.injective
  onto gate is_input := same.onto gate ((refines.input_iff gate).1 is_input)
  name? input is_input := by
    rw [← same.name? input is_input]
    show target'.naming.name? _ = target.naming.name? _
    rw [refines.naming]
  prob input is_input := by rw [refines.prob, same.prob input is_input]

namespace Evaluator

/-! ## Scores by name -/

variable {m : Type → Type} [Monad m] [LawfulMonad m] {σ : Type} (e : Evaluator m σ Rat) {c : Circuit Rat}
  {root : Nat} {tree : Decomposition}

/-- The d-DNNF of a gate that is ready for a score: the tables count it, its inputs are those of the circuit
under other numbers, and its root has the value of the gate. -/
structure Prepared (c : Circuit Rat) (root : Nat) (d : DDnnf Rat) (number : Nat → Nat) : Prop where
  inStep : d.circuit.InStep
  countable : d.circuit.IsCountable d.root
  same : Compilation.SameInputs c d.circuit number
  value : ∀ world, d.circuit.value world d.root = c.value (fun input => world (number input)) root

/-- The compilation along a decomposition gives such a d-DNNF. -/
theorem exists_prepared (wellFormed : c.WellFormed) (evaluable : ∀ gate < c.size, c.Evaluable gate)
    (inside : root < c.size) (made : c.decompose widthLimit = .ok tree) (score : DDnnf.Score) :
    ∃ (d : DDnnf Rat) (number : Nat → Nat),
      e.scoringDDnnf c root .treeDecomposition score = pureOutcome (.ok d) ∧ Prepared c root d number := by
  have compilable := compilable_decompose wellFormed evaluable inside made
  obtain ⟨target, top, number, compiled, sound, small, same, childless, value⟩ := compilable.exists_compiled
  have found : e.ddnnf c root .treeDecomposition = pureOutcome (.ok (DDnnf.ofCircuit target top)) := by
    rw [ddnnf, withoutAlternatives_of_evaluable wellFormed.inStep evaluable, DDnnf.ofTree, made]
    exact congrArg pureOutcome compiled
  have leaves : ∀ input, target.Reads top input → target.children input = [] := fun input reads =>
    childless input reads.2
  obtain ⟨smoothed, smoothed_eq, refines, smooth⟩ :=
    DDnnf.smooth_spec (d := DDnnf.ofCircuit target top) sound.wellFormed small leaves
  -- what is done to the smooth circuit refines it once more
  have prepared : ∀ last, smoothed.Refines last → Prepared c root (DDnnf.ofCircuit last top) number := by
    intro last later
    have all := refines.trans later
    exact
      { inStep := all.wellFormed.inStep
        countable := all.isCountable small (sound.isFormula small) leaves (sound.decomposable top)
          (sound.deterministic top) (later.smooth top (small.trans_le refines.size_le) smooth)
        same := same.of_refines all
        value := fun world => (all.value_eq top small world).trans (value world) }
  rw [scoringDDnnf, found, pureOutcome_ok_bind, smoothed_eq]
  cases score with
  | banzhaf => exact ⟨_, number, rfl, prepared smoothed (.refl refines.wellFormed)⟩
  | shapley =>
    obtain ⟨last, binary_eq, later⟩ := DDnnf.refines_binary (d := DDnnf.ofCircuit smoothed top) (Or.inl rfl)
      refines.wellFormed
    exact ⟨_, number, congrArg pureOutcome binary_eq, prepared last later⟩

namespace Prepared

variable {d : DDnnf Rat} {number : Nat → Nat} (prepared : Prepared c root d number) (inStep : c.InStep)
  (formula : c.IsFormula root)
  (probs : ∀ input, c.kind input = .input → 0 ≤ c.prob input ∧ c.prob input ≤ 1)

include prepared inStep formula probs

/-- The score of a named input is its expected score in the circuit. -/
theorem namedScore_eq_ok (score : DDnnf.Score) {name : String} {gate : Nat} (kind : c.kind gate = .input)
    (named : c.name? gate = some name) : namedScore d score name =
      .ok (DDnnf.expectedScore score c.prob c.inputs.toFinset (fun S => c.value (among S) root) gate) := by
  have same := prepared.same
  have found : d.circuit.find? name = some (number gate) :=
    (prepared.inStep.naming name (number gate)).2 ((same.name? gate kind).trans named)
  have probs' : ∀ input, d.circuit.kind input = .input →
      0 ≤ d.circuit.prob input ∧ d.circuit.prob input ≤ 1 := by
    intro other is_input
    obtain ⟨input, from_input, rfl⟩ := same.onto other is_input
    rw [same.prob input from_input]
    exact probs input from_input
  rw [namedScore, found]
  refine (DDnnf.score_eq_ok prepared.inStep prepared.countable probs' (same.kind gate kind) score).trans ?_
  rw [inputs_eq_image inStep same prepared.inStep]
  refine congrArg Except.ok (DDnnf.expectedScore_image score (injOn_of_sameInputs inStep same)
    (prob_of_sameInputs inStep same) (fun S below => ?_) ((inStep.inputs gate).2 kind))
  exact value_among_image inStep same formula prepared.value below

end Prepared

omit [LawfulMonad m] in
/-- What is no input has the score zero, and no d-DNNF is made for it. -/
theorem score_of_no_input {method : Method Rat} {score : DDnnf.Score} {name : String}
    (foreign : ∀ gate, c.find? name = some gate → c.kind gate ≠ .input) :
    e.score c root method score name = pure 0 := by
  refine if_neg fun is_input => ?_
  obtain ⟨gate, found, kind⟩ := (Option.any_eq_true _ _).1 is_input
  exact foreign gate found (eq_of_beq kind)

/-- The score of a name along a decomposition is the expected score of the input of that name for the gate in
the circuit, and zero when no input has the name.  All scores are those of the named inputs, by increasing
gate. -/
theorem scores_treeDecomposition_spec (wellFormed : c.WellFormed)
    (evaluable : ∀ gate < c.size, c.Evaluable gate)
    (probs : ∀ input, c.kind input = .input → 0 ≤ c.prob input ∧ c.prob input ≤ 1)
    (inside : root < c.size) (made : c.decompose widthLimit = .ok tree) (score : DDnnf.Score) :
    ∃ f : Finset Nat → Bool, (∀ S, c.evaluate root (among S) = .ok (f S)) ∧
      (∀ name gate, c.find? name = some gate → c.kind gate = .input →
        (e.score c root .treeDecomposition score name).run =
          pure (.ok (DDnnf.expectedScore score c.prob c.inputs.toFinset f gate))) ∧
      (∀ name, (∀ gate, c.find? name = some gate → c.kind gate ≠ .input) →
        (e.score c root .treeDecomposition score name).run = pure (.ok 0)) ∧
      ∃ named : List (Nat × String), (named.map Prod.fst).Pairwise (· < ·) ∧
        (∀ gate name, (gate, name) ∈ named ↔ c.kind gate = .input ∧ c.name? gate = some name) ∧
        (e.scores c root .treeDecomposition score).run = pure (.ok (named.map fun (gate, name) =>
          (name, DDnnf.expectedScore score c.prob c.inputs.toFinset f gate))) := by
  have inStep := wellFormed.inStep
  have formula := wellFormed.isFormula evaluable inside
  obtain ⟨d, number, ready, prepared⟩ := e.exists_prepared wellFormed evaluable inside made score
  have scored : ∀ {name gate}, c.kind gate = .input → c.name? gate = some name → namedScore d score name =
      .ok (DDnnf.expectedScore score c.prob c.inputs.toFinset (fun S => c.value (among S) root) gate) :=
    prepared.namedScore_eq_ok inStep formula probs score
  refine ⟨fun S => c.value (among S) root, fun S => formula.evaluate _, fun name gate found kind => ?_,
    fun name foreign => congrArg ExceptT.run (e.score_of_no_input foreign),
    c.namedInputs, pairwise_namedInputs, fun gate name => mem_namedInputs inStep, ?_⟩
  · have is_input : (c.find? name).any (c.kind · == .input) = true := by
      rw [found]
      exact beq_iff_eq.2 kind
    rw [Evaluator.score, if_pos is_input, ready, pureOutcome_ok_bind,
      scored kind ((inStep.naming name gate).1 found)]
    rfl
  · have listed : (c.namedInputs.map Prod.snd).mapM (fun name => do
        let value ← namedScore d score name
        .ok (name, value)) = .ok (c.namedInputs.map fun (gate, name) =>
          (name, DDnnf.expectedScore score c.prob c.inputs.toFinset (fun S => c.value (among S) root) gate)) := by
      rw [Outcome.mapM_eq_ok_iff, List.forall₂_map_left_iff, List.forall₂_map_right_iff, List.forall₂_same]
      rintro ⟨gate, name⟩ member
      obtain ⟨kind, named⟩ := (mem_namedInputs inStep).1 member
      rw [scored kind named]
      rfl
    rw [scores, ready, pureOutcome_ok_bind, map_snd_namedInputs, listed]
    rfl

/-- The conjunction of two inputs, the first of them with a name. -/
def namedConjunction : Circuit Rat := conjunction.setName 0 "x"

/-- Along a decomposition the score of the named input of a conjunction is the expected one. -/
theorem scores_treeDecomposition_namedConjunction :
    namedConjunction.WellFormed ∧ (∀ gate < namedConjunction.size, namedConjunction.Evaluable gate) ∧
    (∀ input, namedConjunction.kind input = .input →
      0 ≤ namedConjunction.prob input ∧ namedConjunction.prob input ≤ 1) ∧
    2 < namedConjunction.size ∧ (∃ tree, namedConjunction.decompose widthLimit = .ok tree) ∧
    ∃ f : Finset Nat → Bool, (∀ S, namedConjunction.evaluate 2 (among S) = .ok (f S)) ∧
      ((withCompiler none).score namedConjunction 2 .treeDecomposition .shapley "x").run =
        .ok (DDnnf.expectedScore .shapley namedConjunction.prob namedConjunction.inputs.toFinset f 0) := by
  have wellFormed : namedConjunction.WellFormed := (inStep_conjunction.setName "x").wellFormed (by decide)
  have inside : 2 < namedConjunction.size := by decide
  have evaluable : ∀ gate < namedConjunction.size, namedConjunction.Evaluable gate := by
    intro gate small
    have small : gate < 3 := small
    obtain rfl | rfl | rfl : gate = 0 ∨ gate = 1 ∨ gate = 2 := by omega
    all_goals exact trivial
  have probs : ∀ input, namedConjunction.kind input = .input →
      0 ≤ namedConjunction.prob input ∧ namedConjunction.prob input ≤ 1 := by
    intro input kind
    have small : input < 3 := lt_of_input kind
    obtain rfl | rfl | rfl : input = 0 ∨ input = 1 ∨ input = 2 := by omega
    all_goals decide +kernel
  obtain ⟨tree, made⟩ : ∃ tree, namedConjunction.decompose widthLimit = .ok tree := ⟨_, rfl⟩
  obtain ⟨f, value, scored, _⟩ := scores_treeDecomposition_spec (withCompiler none) wellFormed evaluable probs
    inside made .shapley
  exact ⟨wellFormed, evaluable, probs, inside, ⟨tree, made⟩, f, value, scored "x" 0 (by decide +kernel) rfl⟩

/-- Both inputs are true with probability one sixth, which they share. -/
example : ((withCompiler none).score namedConjunction 2 .treeDecomposition .shapley "x").run.run = .ok (1 / 12) := by
  decide +kernel

end Evaluator

end Provenance
