import Provenance.Proofs.DDnnf.Counts

/-!
# Conditioning

Conditioning makes an input a constant.  The gate has no children before and after, so what a root reaches
stays the same (`reaches_condition`) and only the input is not read any more (`reads_condition`).  Values
are those of the circuit in the world where the input has the value (`value_condition`), and the circuit
stays decomposable, smooth and deterministic (`forall_children_condition`), so its tables count it too
(`isCountable_condition`).
-/

namespace Provenance.DDnnf

open Provenance.Network

variable {α : Type} [Scalar α] {d : DDnnf α} {x gate : Nat} {value : Bool}

section Tables

variable (inStep : d.circuit.InStep) (kind : d.circuit.kind x = .input)

include kind

theorem kind_condition (other : Nat) : (d.condition x value).circuit.kind other =
    if other = x then if value then .and else .or else d.circuit.kind other :=
  Circuit.kind_setKind d.circuit x _ other (Circuit.lt_of_input kind)

/-- A gate that became a constant is no input. -/
theorem kind_condition_eq_input {other : Nat} :
    (d.condition x value).circuit.kind other = .input ↔ d.circuit.kind other = .input ∧ other ≠ x := by
  rw [kind_condition kind]
  by_cases same : other = x
  · rw [if_pos same]
    refine iff_of_false ?_ fun both => both.2 same
    cases value <;> decide
  · rw [if_neg same]
    exact (and_iff_left same).symm

include inStep

theorem children_condition (other : Nat) : (d.condition x value).circuit.children other =
    if other = x then [] else d.circuit.children other := by
  have exists_gate : x < (d.circuit.setKind x (if value then .and else .or)).wires.size := by
    show x < d.circuit.wires.size
    rw [inStep.wires]
    exact Circuit.lt_of_input kind
  exact Circuit.children_setChildren _ x [] other exists_gate

theorem inStep_condition : (d.condition x value).circuit.InStep :=
  ((inStep.setKind _ (Circuit.lt_of_input kind)).setChildren []).dropName

theorem acyclic_condition (acyclic : d.circuit.Acyclic) : (d.condition x value).circuit.Acyclic := by
  intro gate path
  refine acyclic gate (Relation.TransGen.mono (fun parent child wire => ?_) gate gate path)
  have wire : child ∈ (d.condition x value).circuit.children parent := wire
  rw [children_condition inStep kind] at wire
  split at wire
  · exact absurd wire List.not_mem_nil
  · exact wire

end Tables

/-! ## What a gate sees -/

section Reached

variable (inStep : d.circuit.InStep) (kind : d.circuit.kind x = .input)
  (childless : d.circuit.Reaches gate x → d.circuit.children x = [])

include inStep kind childless

theorem children_condition_of_reaches {other : Nat} (path : d.circuit.Reaches gate other) :
    (d.condition x value).circuit.children other = d.circuit.children other := by
  rw [children_condition inStep kind]
  split
  · rename_i same
    rw [same] at path ⊢
    exact (childless path).symm
  · rfl

theorem reaches_condition {other : Nat} :
    (d.condition x value).circuit.Reaches gate other ↔ d.circuit.Reaches gate other :=
  Circuit.reaches_of_agree fun _ path => children_condition_of_reaches inStep kind childless path

theorem reads_condition {input : Nat} :
    (d.condition x value).circuit.Reads gate input ↔ d.circuit.Reads gate input ∧ input ≠ x := by
  rw [Circuit.Reads, reaches_condition inStep kind childless, kind_condition_eq_input kind, Circuit.Reads,
    and_assoc]

/-- What holds of the children of all gates of a kind passes to the conditioned circuit, where the constant has
that kind perhaps, and no children. -/
theorem forall_children_condition {Q R : List Nat → Prop} {k : Kind} (nothing : R [])
    (passes : ∀ other, d.circuit.Reaches gate other → Q (d.circuit.children other) → R (d.circuit.children other))
    (all : ∀ other, d.circuit.Reaches gate other → d.circuit.kind other = k → Q (d.circuit.children other)) :
    ∀ other, (d.condition x value).circuit.Reaches gate other → (d.condition x value).circuit.kind other = k →
      R ((d.condition x value).circuit.children other) := by
  intro other path is_k
  have path := (reaches_condition inStep kind childless).1 path
  rw [kind_condition kind] at is_k
  rw [children_condition_of_reaches inStep kind childless path]
  split at is_k
  · rename_i same
    rw [same] at path ⊢
    rwa [childless path]
  · exact passes other path (all other path is_k)

theorem decomposable_condition (decomposable : d.circuit.Decomposable gate) :
    (d.condition x value).circuit.Decomposable gate := by
  refine forall_children_condition inStep kind childless (Q := d.circuit.Disjoint)
    (R := (d.condition x value).circuit.Disjoint) List.Pairwise.nil (fun other path apart => ?_) decomposable
  refine Circuit.Disjoint.of_reads apart fun child wire input reads => ?_
  exact ((reads_condition inStep kind fun lower => childless ((path.child wire).trans lower)).1 reads).1

theorem smooth_condition (smooth : d.circuit.Smooth gate) : (d.condition x value).circuit.Smooth gate := by
  refine forall_children_condition inStep kind childless (Q := d.circuit.ReadAlike)
    (R := (d.condition x value).circuit.ReadAlike) (fun _ none => absurd none List.not_mem_nil)
    (fun other path alike left wire right wire' input => ?_) smooth
  have below : ∀ child ∈ d.circuit.children other, d.circuit.Reaches child x → d.circuit.children x = [] :=
    fun child wire lower => childless ((path.child wire).trans lower)
  rw [reads_condition inStep kind (below left wire), reads_condition inStep kind (below right wire')]
  exact and_congr_left fun _ => alike left wire right wire' input

variable (formula : d.circuit.IsFormula gate)

include formula

theorem isFormula_condition : (d.condition x value).circuit.IsFormula gate where
  even := (inStep_condition inStep kind).even
  acyclic := acyclic_condition inStep kind formula.acyclic
  evaluable other path := by
    have path := (reaches_condition inStep kind childless).1 path
    have evaluable := formula.evaluable other path
    unfold Circuit.Evaluable at evaluable ⊢
    rw [children_condition_of_reaches inStep kind childless path, kind_condition kind]
    by_cases same : other = x
    · rw [if_pos same]
      cases value <;> exact trivial
    · rwa [if_neg same]

/-- The value in a world is that of the circuit where the input has the constant as its value. -/
theorem value_condition (world : Circuit.World) : (d.condition x value).circuit.value world gate =
    d.circuit.value (Function.update world x value) gate := by
  refine Circuit.value_eq_of_respects (isFormula_condition inStep kind childless formula) fun other path => ?_
  have path := (reaches_condition inStep kind childless).1 path
  have respected := formula.respects_value (Function.update world x value) other path
  rw [← respected]
  unfold Circuit.gateValue Circuit.onlyChild
  rw [children_condition_of_reaches inStep kind childless path, kind_condition kind]
  by_cases same : other = x
  · rw [same] at path ⊢
    rw [if_pos rfl, childless path, kind]
    cases value <;> simp
  · rw [if_neg same]
    cases d.circuit.kind other <;> simp [Function.update_of_ne same]

theorem deterministic_condition (deterministic : d.circuit.Deterministic gate) :
    (d.condition x value).circuit.Deterministic gate := by
  refine forall_children_condition inStep kind childless (Q := d.circuit.Exclusive)
    (R := (d.condition x value).circuit.Exclusive) (fun _ => List.Pairwise.nil)
    (fun other path exclusive world => ?_) deterministic
  refine (exclusive (Function.update world x value)).imp_of_mem fun {left right} wire wire' apart => ?_
  have same : ∀ child ∈ d.circuit.children other, (d.condition x value).circuit.value world child =
      d.circuit.value (Function.update world x value) child := fun child wire =>
    value_condition inStep kind (fun lower => childless ((path.child wire).trans lower))
      (formula.of_reaches (path.child wire)) world
  rwa [same left wire, same right wire']

end Reached

section Countable

variable (inStep : d.circuit.InStep) (kind : d.circuit.kind x = .input)
  (countable : d.circuit.IsCountable gate)

include inStep kind countable

/-- A conditioned circuit can be counted too. -/
theorem isCountable_condition : (d.condition x value).circuit.IsCountable gate := by
  have childless : d.circuit.Reaches gate x → d.circuit.children x = [] := fun path =>
    countable.childless x path kind
  refine
    { formula := isFormula_condition inStep kind childless countable.formula
      childless := fun other path is_input => ?_
      decomposable := decomposable_condition inStep kind childless countable.decomposable
      deterministic := deterministic_condition inStep kind childless countable.formula countable.deterministic
      smooth := smooth_condition inStep kind childless countable.smooth }
  have path := (reaches_condition inStep kind childless).1 path
  rw [children_condition_of_reaches inStep kind childless path]
  exact countable.childless other path ((kind_condition_eq_input kind).1 is_input).1

theorem support_condition :
    (d.condition x value).circuit.support [gate] = (d.circuit.support [gate]).erase x := by
  ext input
  rw [Circuit.mem_support_singleton, reads_condition inStep kind fun path => countable.childless x path kind,
    Finset.mem_erase, Circuit.mem_support_singleton, and_comm]

end Countable

section Rational

variable {d : DDnnf Rat} (inStep : d.circuit.InStep) (kind : d.circuit.kind x = .input)
  (countable : d.circuit.IsCountable gate)

include inStep kind countable

/-- A coalition wins when it wins with the input, or without it, as the constant says. -/
theorem winning_condition {S T : Finset Nat} (at_x : x ∈ T ↔ value = true)
    (elsewhere : ∀ input, input ≠ x → (input ∈ S ↔ input ∈ T)) :
    winning (d.condition x value).circuit gate S = winning d.circuit gate T := by
  rw [winning, winning, value_condition inStep kind (fun path => countable.childless x path kind) countable.formula]
  refine congrArg (d.circuit.value · gate) (funext fun input => ?_)
  by_cases same : input = x
  · simp [Circuit.among, same, at_x]
  · simp [Circuit.among, same, elsewhere input same]

end Rational

end Provenance.DDnnf
