import Provenance.Proofs.Circuit.Classes

/-!
# Plain circuits

A circuit is plain when it has no cycles and consists of inputs without children, conjunctions, disjunctions
and negations of one child.  All its gates have values in all worlds.
-/

namespace Provenance.Circuit

open Provenance.Network

variable {α : Type} {c : Circuit α} {gate : Nat}

/-- A circuit without cycles of inputs without children, conjunctions, disjunctions and negations of one child. -/
structure Plain (c : Circuit α) : Prop where
  wellFormed : c.WellFormed
  evaluable : ∀ gate < c.size, c.Evaluable gate
  childless : ∀ input, c.kind input = .input → c.children input = []

namespace Plain

theorem isFormula (plain : c.Plain) (inside : gate < c.size) : c.IsFormula gate :=
  plain.wellFormed.isFormula plain.evaluable inside

theorem even (plain : c.Plain) : c.Even := plain.wellFormed.inStep.even

theorem acyclic (plain : c.Plain) : c.Acyclic := plain.wellFormed.acyclic

/-- What a gate reaches is listed by its post-order. -/
theorem mem_postOrder (plain : c.Plain) (inside : gate < c.size) {other : Nat} :
    other ∈ c.postOrder gate ↔ c.Reaches gate other :=
  Network.mem_postOrder plain.even (plain.wellFormed.inside inside)

/-- Where the inputs below the children of each conjunction are different, a plain circuit is decomposable. -/
theorem decomposable_of_table (plain : c.Plain) (root : Nat)
    (table : ∀ gate < c.size, c.kind gate = .and →
      ((c.children gate).flatMap fun child => (c.postOrder child).filter (c.kind · = .input)).Nodup) :
    c.Decomposable root := by
  intro gate _ is_and
  have small : gate < c.size := lt_of_kind (by rw [is_and]; decide)
  have read : ∀ child ∈ c.children gate, ∀ {input}, c.Reads child input →
      input ∈ (c.postOrder child).filter (c.kind · = .input) := fun child wire input reads =>
    List.mem_filter.2 ⟨(plain.mem_postOrder (plain.wellFormed.within gate child wire)).2 reads.1,
      decide_eq_true reads.2⟩
  refine (List.nodup_flatMap.1 (table gate small is_and)).2.imp_of_mem fun {left right} wire wire' apart => ?_
  exact fun input both => apart (read left wire both.1) (read right wire' both.2)

end Plain

/-- A circuit is plain when its tables say so. -/
theorem plain_of_table (inStep : c.InStep)
    (table : ∀ gate < c.size, (∀ child ∈ c.children gate, child < gate) ∧
      c.kind gate ≠ .alternative ∧ c.kind gate ≠ .undetermined ∧
      (c.kind gate = .not → (c.children gate).length = 1) ∧ (c.kind gate = .input → c.children gate = [])) :
    c.Plain where
  wellFormed := inStep.wellFormed fun gate small => (table gate small).1
  evaluable gate small := by
    obtain ⟨-, no_alternative, defined, only, -⟩ := table gate small
    unfold Evaluable
    cases kind : c.kind gate with
    | input | and | or => trivial
    | not => exact List.length_eq_one_iff.1 (only kind)
    | alternative => exact no_alternative kind
    | undetermined => exact defined kind
  childless input kind := (table input (lt_of_input kind)).2.2.2.2 kind

/-! ## One input or else another one -/

/-- An input or, where it is false, another one. -/
def fallback : Circuit Rat :=
  (((((empty.addInput (1 / 2)).2.addInput (1 / 3)).2.addNode .not [0]).2.addNode .and [2, 1]).2.addNode .or
    [0, 3]).2

theorem plain_fallback : fallback.Plain := by
  have inStep : fallback.InStep := InStep.addNode _ _ _ (InStep.addNode _ _ _ (InStep.addNode _ _ _
    ((inStep_empty.addInput _).addInput _)))
  exact plain_of_table inStep (by decide)

theorem decomposable_fallback : fallback.Decomposable 4 := plain_fallback.decomposable_of_table 4 (by decide)

theorem deterministic_fallback : fallback.Deterministic 4 := by
  intro gate _ is_or world
  have disjunctions : ∀ gate < 5, fallback.kind gate = .or → gate = 4 := by decide
  obtain rfl := disjunctions gate (lt_of_kind (by rw [is_or]; decide)) is_or
  have formula : ∀ gate < 5, fallback.IsFormula gate := fun gate => plain_fallback.isFormula
  have negation : fallback.value world 2 = !fallback.value world 0 :=
    (formula 2 (by decide)).value_not world rfl rfl
  have second : fallback.value world 3 = [2, 1].all (fallback.value world) :=
    (formula 3 (by decide)).value_and world rfl
  refine List.pairwise_pair.2 ?_
  simp +contextual [second, negation]

end Provenance.Circuit
