import Provenance.Proofs.Cnf.Tseytin
import Provenance.Proofs.Decomposition.OfTree
import Provenance.Proofs.Circuit.Likelihood

/-!
# What the exact routes refuse

The encoding as a formula and the compilation along a decomposition both refuse a circuit with an
alternative or an undetermined gate.  Where each negation has exactly one child the compilation fails when
the encoding does, or when the circuit is too wide, and in no other case (`ofTree_refuses`).

The compilation does not look at the number of children of a negation: it takes a negation without child for
a gate that is false (`ofTree_loneNegation`).
-/

namespace Provenance

open Circuit Network

variable {α : Type} {c : Circuit α} {root : Nat}

/-! ## What is checked before the compilation -/

/-- A circuit is taken when the root exists and no gate is an alternative or undetermined. -/
theorem Compilation.checkSource_eq_ok_iff (inStep : c.InStep) :
    Compilation.checkSource c root = .ok () ↔ root < c.size ∧ (∀ gate, c.kind gate ≠ .alternative) ∧
      ∀ gate < c.size, c.kind gate ≠ .undetermined := by
  simp only [checkSource, Outcome.bind_eq_ok, Outcome.require_eq_ok, decide_eq_true_eq]
  cases found : c.gates.find? (c.kind · == .undetermined) with
  | none =>
    have defined : ∀ gate < c.size, c.kind gate ≠ .undetermined := fun gate small kind =>
      List.find?_eq_none.1 found gate (List.mem_range.2 small) (beq_iff_eq.2 kind)
    rw [← inStep.requireBoolean_eq_ok_iff]
    constructor
    · rintro ⟨_, inside, _, boolean, _⟩
      exact ⟨inside, boolean, defined⟩
    · rintro ⟨inside, boolean, _⟩
      exact ⟨(), inside, (), boolean, rfl⟩
  | some gate =>
    have kind := List.find?_some found
    have small := List.mem_range.1 (List.mem_of_find?_eq_some found)
    refine iff_of_false ?_ fun checked => checked.2.2 gate small (beq_iff_eq.1 kind)
    rintro ⟨_, _, _, _, failed⟩
    simp at failed

/-! ## Both routes -/

variable [Scalar α]

/-- What the compilation accepts has passed the check. -/
theorem DDnnf.checkSource_of_ofTree {d : DDnnf α} (made : ofTree c root = .ok d) :
    Compilation.checkSource c root = .ok () := by
  simp only [ofTree, alongTree, Compilation.start, Outcome.bind_eq_ok] at made
  obtain ⟨_, _, _, ⟨_, checked, _⟩, _⟩ := made
  exact checked

/-- Along a decomposition every circuit is compiled in which all gates have values. -/
theorem DDnnf.exists_ofTree (wellFormed : c.WellFormed) (evaluable : ∀ gate < c.size, c.Evaluable gate)
    (inside : root < c.size) {tree : Decomposition} (made : c.decompose Circuit.widthLimit = .ok tree) :
    ∃ d : DDnnf α, ofTree c root = .ok d := by
  obtain ⟨target, top, _, compiled, _⟩ :=
    (compilable_decompose wellFormed evaluable inside made).exists_compiled
  exact ⟨ofCircuit target top, by rw [ofTree, made]; exact compiled⟩

theorem exists_error_iff {β : Type} {x : Outcome β} :
    (∃ failure, x = .error failure) ↔ ¬ ∃ y, x = .ok y := by
  cases x with
  | error failure => simp
  | ok y => simp

/-- The compilation refuses alternatives and undetermined gates.  Where each negation has exactly one child
it refuses just what the encoding refuses, and what is too wide. -/
theorem ofTree_refuses (wellFormed : c.WellFormed) (inside : root < c.size) :
    ((∃ gate < c.size, c.kind gate = .alternative ∨ c.kind gate = .undetermined) →
      ∃ failure, DDnnf.ofTree c root = .error failure) ∧
    ((∀ gate, c.kind gate = .not → ∃ child, c.children gate = [child]) →
      ((∃ failure, DDnnf.ofTree c root = .error failure) ↔
        (∃ failure, c.tseytin root = .error failure) ∨
        ∃ failure, c.decompose Circuit.widthLimit = .error failure)) := by
  have refused : (∃ gate < c.size, c.kind gate = .alternative ∨ c.kind gate = .undetermined) →
      ∃ failure, DDnnf.ofTree c root = .error failure := by
    rintro ⟨gate, small, kind⟩
    refine exists_error_iff.2 fun ⟨d, made⟩ => ?_
    obtain ⟨_, boolean, defined⟩ :=
      (Compilation.checkSource_eq_ok_iff wellFormed.inStep).1 (DDnnf.checkSource_of_ofTree made)
    rcases kind with kind | kind
    · exact boolean gate kind
    · exact defined gate small kind
  refine ⟨refused, fun arity => ?_⟩
  constructor
  · intro failed
    by_contra neither
    obtain ⟨encoded, decomposed⟩ := not_or.1 neither
    have evaluable := exists_tseytin_iff.1 (not_not.1 (mt exists_error_iff.2 encoded))
    obtain ⟨tree, made⟩ := not_not.1 (mt exists_error_iff.2 decomposed)
    exact exists_error_iff.1 failed (DDnnf.exists_ofTree wellFormed evaluable inside made)
  · rintro (unencoded | ⟨failure, wide⟩)
    · obtain ⟨gate, small, not_evaluable⟩ := tseytin_eq_error_iff.1 unencoded
      refine refused ⟨gate, small, ?_⟩
      cases kind : c.kind gate with
      | alternative => exact Or.inl rfl
      | undetermined => exact Or.inr rfl
      | not =>
        refine absurd ?_ not_evaluable
        simpa [Evaluable, kind] using arity gate kind
      | input => simp [Evaluable, kind] at not_evaluable
      | and => simp [Evaluable, kind] at not_evaluable
      | or => simp [Evaluable, kind] at not_evaluable
    · exact ⟨failure, by rw [DDnnf.ofTree, wide]; rfl⟩

/-- Both routes refuse two alternatives. -/
theorem ofTree_refuses_choicePair : choicePair.WellFormed ∧ 2 < choicePair.size ∧
    (∀ gate, choicePair.kind gate = .not → ∃ child, choicePair.children gate = [child]) ∧
    (∃ failure, choicePair.tseytin 2 = .error failure) ∧
    ∃ failure, DDnnf.ofTree choicePair 2 = .error failure := by
  have small : 2 < choicePair.size := by decide
  have kinds : ∀ gate < 3, choicePair.kind gate ≠ .not := by decide
  have arity : ∀ gate, choicePair.kind gate = .not → ∃ child, choicePair.children gate = [child] :=
    fun gate kind => absurd kind (kinds gate (lt_of_kind (by rw [kind]; decide)))
  have unencoded : ∃ failure, choicePair.tseytin 2 = .error failure := ⟨_, rfl⟩
  exact ⟨wellFormed_choicePair, small, arity, unencoded,
    ((ofTree_refuses wellFormed_choicePair small).2 arity).2 (Or.inl unencoded)⟩

/-- A negation without child. -/
def loneNegation : Circuit Rat := (Circuit.empty.addNode .not []).2

theorem wellFormed_loneNegation : loneNegation.WellFormed :=
  (InStep.addNode _ _ _ inStep_empty).wellFormed (by decide)

/-- A negation without child has no encoding, but it is compiled, and its probability is zero. -/
theorem ofTree_loneNegation : loneNegation.WellFormed ∧
    loneNegation.tseytin 0 = .error (.of (.unsupported 0 .negationArity)) ∧
    ∃ d, DDnnf.ofTree loneNegation 0 = .ok d ∧ d.probability.1 = .ok 0 := by
  refine ⟨wellFormed_loneNegation, rfl, ?_⟩
  have computed : ((DDnnf.ofTree loneNegation 0).toOption.map fun d => d.probability.1.toOption) =
      some (some 0) := by decide +kernel
  cases made : DDnnf.ofTree loneNegation 0 with
  | error failure => simp [made, Except.toOption] at computed
  | ok d =>
    refine ⟨d, rfl, ?_⟩
    simp only [made, Except.toOption, Option.map_some, Option.some.injEq] at computed
    cases found : d.probability.1 with
    | error failure => simp [found] at computed
    | ok p =>
      simp only [found, Option.some.injEq] at computed
      rw [computed]

end Provenance
