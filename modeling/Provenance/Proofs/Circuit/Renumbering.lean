import Mathlib.Data.Set.Function
import Provenance.Proofs.Circuit.Classes
import Provenance.Proofs.Outcome

/-!
# Circuits with other numbers

A circuit is embedded below a root when another one has all that the root reaches under other numbers, with the
same names, kinds, probabilities and keys, and the children in order (`Embeds`).  Then paths lead to paths,
gates read the counterparts of what they read, a gate has the value of its counterpart in worlds that say the
same of the inputs (`Embeds.value`, `Embeds.evaluate_iff`), and the classes are kept (`Embeds.decomposable`,
`Embeds.deterministic`).  Two circuits are the same but for the numbers of their gates when this is so of all
gates (`Renumbers`); then cycles lead to cycles too.
-/

namespace Provenance.Circuit

open Provenance.Network

variable {α : Type} [Scalar α] {c c' : Circuit α} {number : Nat → Nat} {root : Nat}

/-- What `root` reaches in the first circuit is in the second one when `number` is applied to the gates. -/
structure Embeds (c c' : Circuit α) (number : Nat → Nat) (root : Nat) : Prop where
  injOn : Set.InjOn number {gate | c.Reaches root gate}
  name? : ∀ gate, c.Reaches root gate → c'.name? (number gate) = c.name? gate
  kind : ∀ gate, c.Reaches root gate → c'.kind (number gate) = c.kind gate
  children : ∀ gate, c.Reaches root gate → c'.children (number gate) = (c.children gate).map number
  prob : ∀ gate, c.Reaches root gate → c'.prob (number gate) = c.prob gate
  key? : ∀ gate, c.Reaches root gate → c'.key? (number gate) = c.key? gate

namespace Embeds

variable (embeds : c.Embeds c' number root)

include embeds

theorem of_reaches {gate : Nat} (path : c.Reaches root gate) : c.Embeds c' number gate where
  injOn := embeds.injOn.mono fun _ lower => path.trans lower
  name? other lower := embeds.name? other (path.trans lower)
  kind other lower := embeds.kind other (path.trans lower)
  children other lower := embeds.children other (path.trans lower)
  prob other lower := embeds.prob other (path.trans lower)
  key? other lower := embeds.key? other (path.trans lower)

/-- Wires lead to wires. -/
theorem reaches {gate : Nat} (path : c.Reaches root gate) : c'.Reaches (number root) (number gate) := by
  induction path with
  | refl => exact .refl _
  | tail path wire ih =>
    refine ih.child ?_
    rw [embeds.children _ path]
    exact List.mem_map_of_mem wire

/-- What the counterpart of a gate reaches are the counterparts of what the gate reaches. -/
theorem exists_reaches {gate' : Nat} (path : c'.Reaches (number root) gate') :
    ∃ gate, c.Reaches root gate ∧ gate' = number gate := by
  induction path with
  | refl => exact ⟨root, .refl _, rfl⟩
  | @tail gate' child' _ wire ih =>
    obtain ⟨gate, lower, rfl⟩ := ih
    have wire : child' ∈ c'.children (number gate) := wire
    rw [embeds.children gate lower] at wire
    obtain ⟨child, listed, rfl⟩ := List.mem_map.1 wire
    exact ⟨child, lower.child listed, rfl⟩

/-- The counterpart of a gate reads the counterparts of the inputs that the gate reads. -/
theorem reads_iff {input' : Nat} :
    c'.Reads (number root) input' ↔ ∃ input, c.Reads root input ∧ input' = number input := by
  constructor
  · rintro ⟨path, kind⟩
    obtain ⟨input, lower, rfl⟩ := embeds.exists_reaches path
    exact ⟨input, ⟨lower, (embeds.kind input lower).symm.trans kind⟩, rfl⟩
  · rintro ⟨input, reads, rfl⟩
    exact ⟨embeds.reaches reads.1, (embeds.kind input reads.1).trans reads.2⟩

theorem evaluable_iff : c'.Evaluable (number root) ↔ c.Evaluable root := by
  unfold Evaluable
  rw [embeds.kind root (.refl root), embeds.children root (.refl root)]
  cases c.kind root with
  | not => simp [List.map_eq_singleton_iff]
  | input | and | or | alternative | undetermined => rfl

/-- A gate gets its value from those of its children as its counterpart does. -/
theorem gateValue {world world' : World} {value' : Nat → Bool}
    (same : c.kind root = .input → world' (number root) = world root)
    (respected : c'.gateValue world' value' (number root) = .ok (value' (number root))) :
    c.gateValue world (fun gate => value' (number gate)) root = .ok (value' (number root)) := by
  unfold Circuit.gateValue Circuit.onlyChild at respected ⊢
  rw [embeds.kind root (.refl root), embeds.children root (.refl root)] at respected
  cases kind : c.kind root with
  | input => simpa only [kind, same kind] using respected
  | and => simpa only [kind, List.all_map, Function.comp_def] using respected
  | or => simpa only [kind, List.any_map, Function.comp_def] using respected
  | not =>
    simp only [kind] at respected ⊢
    cases children : c.children root with
    | nil => simp [children] at respected
    | cons child rest =>
      cases rest with
      | nil => simpa [children] using respected
      | cons second rest => simp [children] at respected
  | alternative => simp [kind] at respected
  | undetermined => simp [kind] at respected

/-- A gate has the value of its counterpart, in worlds that say the same of the inputs. -/
theorem value {world world' : World} (formula : c.IsFormula root) (formula' : c'.IsFormula (number root))
    (same : ∀ input, c.Reads root input → world' (number input) = world input) :
    c'.value world' (number root) = c.value world root := by
  have respects : c.Respects world (fun gate => c'.value world' (number gate)) root := fun gate path =>
    (embeds.of_reaches path).gateValue (fun kind => same gate ⟨path, kind⟩)
      (formula'.respects_value world' _ (embeds.reaches path))
  exact (value_eq_of_respects formula respects).symm

theorem decomposable (decomposable : c.Decomposable root) : c'.Decomposable (number root) := by
  intro gate' path is_and
  obtain ⟨gate, lower, rfl⟩ := embeds.exists_reaches path
  rw [embeds.kind gate lower] at is_and
  rw [embeds.children gate lower, Disjoint, List.pairwise_map]
  refine (decomposable gate lower is_and).imp_of_mem fun {left right} wire wire' apart input' both => ?_
  obtain ⟨input, reads, rfl⟩ := (embeds.of_reaches (lower.child wire)).reads_iff.1 both.1
  obtain ⟨other, reads', same⟩ := (embeds.of_reaches (lower.child wire')).reads_iff.1 both.2
  obtain rfl := embeds.injOn ((lower.child wire).trans reads.1) ((lower.child wire').trans reads'.1) same
  exact apart input ⟨reads, reads'⟩

theorem deterministic (formula : c.IsFormula root) (formula' : c'.IsFormula (number root))
    (deterministic : c.Deterministic root) : c'.Deterministic (number root) := by
  intro gate' path is_or world'
  obtain ⟨gate, lower, rfl⟩ := embeds.exists_reaches path
  rw [embeds.kind gate lower] at is_or
  rw [embeds.children gate lower, List.pairwise_map]
  -- the world that says of an input what the other one says of its counterpart
  have value : ∀ child ∈ c.children gate,
      c'.value world' (number child) = c.value (fun input => world' (number input)) child := fun child wire =>
    (embeds.of_reaches (lower.child wire)).value (formula.of_reaches (lower.child wire))
      (formula'.of_reaches (embeds.reaches (lower.child wire))) fun _ _ => rfl
  refine (deterministic gate lower is_or fun input => world' (number input)).imp_of_mem ?_
  intro left right wire wire'
  rw [value left wire, value right wire']
  exact id

variable (even : c.Even) (acyclic : c.Acyclic) (even' : c'.Even) (acyclic' : c'.Acyclic)

include even acyclic even' acyclic'

theorem isFormula_iff : c'.IsFormula (number root) ↔ c.IsFormula root := by
  constructor
  · refine fun formula => ⟨even, acyclic, fun gate path => ?_⟩
    exact (embeds.of_reaches path).evaluable_iff.1 (formula.evaluable (number gate) (embeds.reaches path))
  · refine fun formula => ⟨even', acyclic', fun gate' path => ?_⟩
    obtain ⟨gate, lower, rfl⟩ := embeds.exists_reaches path
    exact (embeds.of_reaches lower).evaluable_iff.2 (formula.evaluable gate lower)

/-- A gate has a value when its counterpart has it, in worlds that say the same of the inputs. -/
theorem evaluate_iff (inside : c.Inside root) (inside' : c'.Inside (number root)) {world world' : World}
    (same : ∀ input, c.Reads root input → world' (number input) = world input) (result : Bool) :
    c.evaluate root world = .ok result ↔ c'.evaluate (number root) world' = .ok result := by
  have formula_iff := embeds.isFormula_iff even acyclic even' acyclic'
  constructor
  · intro evaluated
    have formula := isFormula_of_evaluate even acyclic inside evaluated
    rw [(formula_iff.2 formula).evaluate, embeds.value formula (formula_iff.2 formula) same,
      ← formula.evaluate, evaluated]
  · intro evaluated
    have formula' := isFormula_of_evaluate even' acyclic' inside' evaluated
    rw [(formula_iff.1 formula').evaluate, ← embeds.value (formula_iff.1 formula') formula' same,
      ← formula'.evaluate, evaluated]

end Embeds

/-! ## All gates -/

/-- The circuits are the same when `number` is applied to the gates of the first one. -/
structure Renumbers (c c' : Circuit α) (number : Nat → Nat) : Prop where
  bijOn : Set.BijOn number {gate | gate < c.size} {gate | gate < c'.size}
  name? : ∀ gate < c.size, c'.name? (number gate) = c.name? gate
  kind : ∀ gate < c.size, c'.kind (number gate) = c.kind gate
  children : ∀ gate < c.size, c'.children (number gate) = (c.children gate).map number
  prob : ∀ gate < c.size, c'.prob (number gate) = c.prob gate
  key? : ∀ gate < c.size, c'.key? (number gate) = c.key? gate

namespace Renumbers

variable (renumbers : c.Renumbers c' number)

include renumbers

theorem acyclic (inStep : c.InStep) (acyclic : c'.Acyclic) : c.Acyclic := by
  intro gate cycle
  refine acyclic (number gate) (Relation.TransGen.lift number (fun parent child wire => ?_) gate gate cycle)
  show number child ∈ c'.children (number parent)
  rw [renumbers.children parent (inStep.even.lt_of_wire wire)]
  exact List.mem_map_of_mem wire

/-- A circuit is embedded below each of its gates. -/
theorem embeds (inside : c.Inside root) : c.Embeds c' number root where
  injOn := renumbers.bijOn.injOn.mono inside
  name? gate path := renumbers.name? gate (inside gate path)
  kind gate path := renumbers.kind gate (inside gate path)
  children gate path := renumbers.children gate (inside gate path)
  prob gate path := renumbers.prob gate (inside gate path)
  key? gate path := renumbers.key? gate (inside gate path)

/-- A gate has a value when its counterpart has it, in worlds that say the same of the inputs. -/
theorem evaluate_iff (wellFormed : c.WellFormed) (wellFormed' : c'.WellFormed) {world world' : World}
    (same : ∀ input, c.kind input = .input → world' (number input) = world input) (small : root < c.size)
    (result : Bool) : c.evaluate root world = .ok result ↔ c'.evaluate (number root) world' = .ok result :=
  (renumbers.embeds (wellFormed.inside small)).evaluate_iff wellFormed.inStep.even wellFormed.acyclic
    wellFormed'.inStep.even wellFormed'.acyclic (wellFormed.inside small)
    (wellFormed'.inside (renumbers.bijOn.mapsTo small)) (fun input reads => same input reads.2) result

end Renumbers

end Provenance.Circuit
