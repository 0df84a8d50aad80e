import Provenance.Proofs.Circuit.InStep
import Provenance.Proofs.Circuit.Truth
import Provenance.Proofs.Network.Cycle

/-!
# Evaluation along the post-order

Some gates have no value whatever those of their children are (`failure?`).  An evaluation fails with the
failure of the first of them in the post-order, in all worlds alike (`evaluate_eq_error_iff`).  Without cycles
it finds otherwise what the rules of the kinds say, and the inputs that are read decide
(`evaluate_postOrder_spec`).
-/

namespace Provenance.Circuit

open Provenance.Network Provenance.Order

variable {α : Type} {c : Circuit α} {world world' : World} {gate root : Nat}

/-! ## Gates without value -/

/-- The failure of a gate that has no value, whatever those of its children are. -/
def failure? (c : Circuit α) (gate : Nat) : Option Failure :=
  match c.kind gate with
  | .input | .and | .or => none
  | .not => if (c.children gate).length = 1 then none else some (.of (.unsupported gate .negationArity))
  | .alternative => some (.of (.multivalued gate))
  | .undetermined => some (.of (.undetermined gate))

/-- A gate that has no value: an alternative, an undetermined gate, or a negation of not just one gate. -/
def Valueless (c : Circuit α) (gate : Nat) : Prop :=
  c.kind gate = .alternative ∨ c.kind gate = .undetermined ∨
    c.kind gate = .not ∧ (c.children gate).length ≠ 1

instance (c : Circuit α) (gate : Nat) : Decidable (c.Valueless gate) :=
  inferInstanceAs (Decidable (_ ∨ _ ∨ _ ∧ _))

theorem not_evaluable_iff : ¬ c.Evaluable gate ↔ c.Valueless gate := by
  unfold Evaluable Valueless
  cases kind : c.kind gate with
  | not => simp [List.length_eq_one_iff]
  | input | and | or => simp
  | alternative | undetermined => simp

theorem failure?_eq_none_iff : c.failure? gate = none ↔ c.Evaluable gate := by
  unfold failure? Evaluable
  cases kind : c.kind gate with
  | not => simp [List.length_eq_one_iff]
  | input | and | or => simp
  | alternative | undetermined => simp

/-- Whether a gate has a value depends neither on the world nor on its children. -/
theorem gateValue_eq_error_iff {value : Nat → Bool} {failure : Failure} :
    c.gateValue world value gate = .error failure ↔ c.failure? gate = some failure := by
  unfold gateValue failure?
  cases kind : c.kind gate with
  | not =>
    rcases children : c.children gate with _ | ⟨child, _ | ⟨_, _⟩⟩
    all_goals simp [onlyChild, children, Except.map, Outcome.fail]
  | input | and | or => simp
  | alternative | undetermined => simp [Outcome.fail]

/-- The first gate without value decides how the evaluation of a list fails. -/
theorem values_eq_error_iff {order : List Nat} {table : Array Bool} {failure : Failure} :
    c.values world order table = .error failure ↔ order.findSome? c.failure? = some failure := by
  induction order generalizing table with
  | nil => simp [values]
  | cons gate order ih =>
    rw [values, List.findSome?_cons]
    cases first : c.gateValue world (table.getD · false) gate with
    | error other => simp [gateValue_eq_error_iff.1 first]
    | ok value =>
      have valued : c.failure? gate = none := failure?_eq_none_iff.2 (evaluable_of_gateValue first)
      simp [valued, ih]

/-- An evaluation fails with the first gate of the post-order that has no value. -/
theorem evaluate_eq_error_iff {failure : Failure} : c.evaluate root world = .error failure ↔
    (c.postOrder root).findSome? c.failure? = some failure := by
  have first : c.values world (c.postOrder root) (Array.replicate c.size false) = .error failure ↔
      (c.postOrder root).findSome? c.failure? = some failure := values_eq_error_iff
  rw [← first, evaluate, evaluateInOrder]
  cases c.values world (c.postOrder root) (Array.replicate c.size false) <;> simp

/-! ## Gates with a value -/

section

variable (even : c.Even) (inside : c.Inside root)

include even inside

theorem exists_failure_iff : (∃ failure, c.evaluate root world = .error failure) ↔
    ∃ gate, c.Reaches root gate ∧ c.Valueless gate := by
  have listed : ((c.postOrder root).findSome? c.failure?).isSome ↔
      ∃ gate ∈ c.postOrder root, (c.failure? gate).isSome := List.findSome?_isSome_iff
  simp only [evaluate_eq_error_iff, ← Option.isSome_iff_exists, listed, mem_postOrder even inside]
  simp only [Option.isSome_iff_ne_none, ne_eq, failure?_eq_none_iff, not_evaluable_iff]

variable (acyclic : c.Acyclic)

include acyclic

omit inside in
/-- A gate that reaches gates with values only is that of a formula. -/
theorem isFormula_of_forall (valued : ∀ gate, c.Reaches root gate → ¬ c.Valueless gate) : c.IsFormula root :=
  ⟨even, acyclic, fun gate path => not_not.1 (mt not_evaluable_iff.1 (valued gate path))⟩

/-- Worlds with the same inputs below a gate give it the same value or the same failure. -/
theorem evaluate_congr (same : ∀ input, c.Reads root input → world input = world' input) :
    c.evaluate root world = c.evaluate root world' := by
  cases evaluated : c.evaluate root world with
  | error failure => rw [evaluate_eq_error_iff.2 (evaluate_eq_error_iff.1 evaluated)]
  | ok result =>
    have formula := isFormula_of_evaluate even acyclic inside evaluated
    rw [← evaluated, formula.evaluate, formula.evaluate, value_congr formula same]

end

/-- The walk of a network ends, with cycles or without, and what it lists is what the root reaches: each gate
once, the root last, and without cycles each gate behind its children.  So without cycles the evaluation of a
gate fails just when the gate reaches one without value.  Otherwise it finds the value that the gates define one
from the other, and the inputs that the gate reaches decide. -/
theorem evaluate_postOrder_spec {κ : Type} :
    (∀ (n : Network κ) (root : Nat), n.Even → n.Inside root →
      (∃ steps visited, (Tour.step n.children)^[steps] (.start root) = ⟨[], visited, n.postOrder root⟩) ∧
      (n.postOrder root).Nodup ∧ (∀ gate, gate ∈ n.postOrder root ↔ n.Reaches root gate) ∧
      (n.postOrder root).getLast? = some root ∧
      (n.Acyclic → ∀ before gate after, n.postOrder root = before ++ gate :: after →
        ∀ child ∈ n.children gate, child ∈ before)) ∧
    ∀ (c : Circuit α) (root : Nat), c.Even → c.Inside root → c.Acyclic →
      (∀ world, (∃ failure, c.evaluate root world = .error failure) ↔
        ∃ gate, c.Reaches root gate ∧ c.Valueless gate) ∧
      (∀ world, (∀ gate, c.Reaches root gate → ¬ c.Valueless gate) →
        ∃ result, c.evaluate root world = .ok result ∧ c.Takes world root result) ∧
      ∀ world world',
        (∀ input, c.Reaches root input → c.kind input = .input → world input = world' input) →
        c.evaluate root world = c.evaluate root world' := by
  refine ⟨fun n root even inside => ?_, fun c root even inside acyclic => ⟨?_, fun world valued => ?_, ?_⟩⟩
  · obtain ⟨visited, ended, _⟩ := walking_postOrder even inside
    exact ⟨⟨_, visited, ended⟩, nodup_postOrder even inside, fun _ => mem_postOrder even inside,
      getLast?_postOrder even inside, childrenFirst_postOrder even inside⟩
  · exact fun world => exists_failure_iff even inside
  · have formula := isFormula_of_forall even acyclic valued
    exact ⟨_, formula.evaluate world, formula.takes world⟩
  · exact fun world world' same => evaluate_congr even inside acyclic fun input reads =>
      same input reads.1 reads.2

/-- The conjunction of two inputs beside a negation of both. -/
def doubleNegation : Circuit Rat := (conjunction.addNode .not [0, 1]).2

/-- On a cycle of two gates both are listed.  A negation of two inputs fails in all worlds, and the conjunction
beside it does not. -/
theorem evaluate_postOrder_ring :
    (ring.Even ∧ ring.Inside 1 ∧ ¬ ring.Acyclic ∧ (ring.postOrder 1).Nodup ∧
      (∀ gate, gate ∈ ring.postOrder 1 ↔ ring.Reaches 1 gate) ∧ (ring.postOrder 1).getLast? = some 1) ∧
    doubleNegation.Even ∧ doubleNegation.Acyclic ∧ doubleNegation.Inside 2 ∧ doubleNegation.Inside 3 ∧
      (∀ world, ∃ failure, doubleNegation.evaluate 3 world = .error failure) ∧
      ∀ world, ∃ result, doubleNegation.evaluate 2 world = .ok result ∧
        doubleNegation.Takes world 2 result := by
  have even : ring.Even := rfl
  have inside : ring.Inside 1 := by
    suffices ∀ gate, ring.Reaches 1 gate → gate = 1 ∨ gate = 2 by
      intro gate path
      rcases this gate path with rfl | rfl <;> decide
    intro gate path
    induction path with
    | refl => exact Or.inl rfl
    | tail _ wire earlier =>
      rcases earlier with rfl | rfl
      · exact Or.inr (List.mem_singleton.1 wire)
      · exact Or.inl (by simpa [Wire, ring, Network.children] using wire)
  have cycle : ¬ ring.Acyclic := fun acyclic =>
    acyclic 1 ((Relation.TransGen.single (show 2 ∈ ring.children 1 by decide)).tail
      (show 1 ∈ ring.children 2 by decide))
  have wellFormed : doubleNegation.WellFormed := (inStep_conjunction.addNode _ _ _).wellFormed (by decide)
  have small : 2 < doubleNegation.size ∧ 3 < doubleNegation.size := by decide
  have inside' := wellFormed.inside small.1
  have inside'' := wellFormed.inside small.2
  obtain ⟨_, once, members, last, _⟩ := (evaluate_postOrder_spec (α := Rat)).1 ring 1 even inside
  obtain ⟨fails_iff, _, _⟩ := (evaluate_postOrder_spec (κ := Kind)).2 doubleNegation 3 wellFormed.inStep.even
    inside'' wellFormed.acyclic
  obtain ⟨_, takes, _⟩ := (evaluate_postOrder_spec (κ := Kind)).2 doubleNegation 2 wellFormed.inStep.even
    inside' wellFormed.acyclic
  -- below the conjunction there are inputs only
  have valued : ∀ gate, doubleNegation.Reaches 2 gate → ¬ doubleNegation.Valueless gate := by
    refine forall_reaches_iff.2 ⟨by decide, fun child wire gate path => ?_⟩
    have leaf : child = 0 ∨ child = 1 := List.mem_pair.1 wire
    have childless : doubleNegation.children child = [] := by rcases leaf with rfl | rfl <;> decide
    rw [Reaches.eq_of_children_nil childless path]
    rcases leaf with rfl | rfl <;> decide
  refine ⟨⟨even, inside, cycle, once, members, last⟩, wellFormed.inStep.even, wellFormed.acyclic, inside',
    inside'', fun world => (fails_iff world).2 ?_, fun world => takes world valued⟩
  exact ⟨3, .refl 3, Or.inr (Or.inr (by decide))⟩

end Provenance.Circuit
