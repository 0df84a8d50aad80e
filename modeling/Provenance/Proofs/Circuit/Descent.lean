import Mathlib.Data.Finset.Card
import Provenance.Proofs.Circuit.InStep

/-!
# Circuits whose wires descend

The number of gates that a gate reaches, its scope, is greater than that of its children
(`Acyclic.scope_lt`).  The other way round, there is no cycle where all wires lead to lower ranks.  So a
change keeps a circuit free of cycles when it keeps to some ranks, which one checks at the wires that it
touches (`Descending`), wherever else these wires lead.
-/

namespace Provenance

namespace Network

variable {κ : Type} {n : Network κ}

open Classical in
/-- The number of gates that a gate reaches. -/
noncomputable def scope (n : Network κ) (gate : Nat) : Nat :=
  ((Finset.range n.size).filter (n.Reaches gate)).card

theorem scope_le_size (n : Network κ) (gate : Nat) : n.scope gate ≤ n.size := by
  classical
  exact (Finset.card_filter_le _ _).trans (Finset.card_range n.size).le

/-- What is reached has no greater scope. -/
theorem Reaches.scope_le {gate other : Nat} (path : n.Reaches gate other) : n.scope other ≤ n.scope gate := by
  classical
  refine Finset.card_le_card fun lower member => ?_
  rw [Finset.mem_filter] at member ⊢
  exact ⟨member.1, path.trans member.2⟩

/-- A child has a smaller scope than its parent, which it does not reach. -/
theorem Acyclic.scope_lt (acyclic : n.Acyclic) (even : n.Even) {gate child : Nat}
    (wire : child ∈ n.children gate) : n.scope child < n.scope gate := by
  classical
  refine Finset.card_lt_card ((Finset.ssubset_iff_of_subset ?subset).2 ⟨gate, ?member, ?missing⟩)
  case subset =>
    intro lower member
    rw [Finset.mem_filter] at member ⊢
    exact ⟨member.1, .of_child wire member.2⟩
  case member => exact Finset.mem_filter.2 ⟨Finset.mem_range.2 (even.lt_of_wire wire), .refl gate⟩
  case missing =>
    intro member
    exact acyclic gate (Relation.TransGen.head' wire (Finset.mem_filter.1 member).2)

/-- What is reached and is another gate has a smaller scope. -/
theorem Acyclic.scope_lt_of_reaches (acyclic : n.Acyclic) (even : n.Even) {gate other : Nat}
    (path : n.Reaches gate other) (different : other ≠ gate) : n.scope other < n.scope gate := by
  rcases Reaches.cases_iff.1 path with same | ⟨child, wire, lower⟩
  · exact absurd same different
  · exact lower.scope_le.trans_lt (acyclic.scope_lt even wire)

/-- Where all wires lead to lower ranks there is no cycle. -/
theorem acyclic_of_descends (rank : Nat → Nat)
    (descends : ∀ gate, ∀ child ∈ n.children gate, rank child < rank gate) : n.Acyclic := by
  intro gate path
  have lower : ∀ other, Relation.TransGen n.Wire gate other → rank other < rank gate := by
    intro other path
    induction path with
    | single wire => exact descends _ _ wire
    | tail _ wire ih => exact (descends _ _ wire).trans ih
  exact Nat.lt_irrefl _ (lower gate path)

end Network

namespace Circuit

open Network

variable {α : Type} {c : Circuit α} {rank : Nat → Nat} {gate : Nat}

/-- A circuit in step whose wires lead to gates of the table, and to lower ranks. -/
structure Descending (rank : Nat → Nat) (c : Circuit α) : Prop where
  inStep : c.InStep
  within : ∀ gate, ∀ child ∈ c.children gate, child < c.size
  descends : ∀ gate, ∀ child ∈ c.children gate, rank child < rank gate

/-- The wires of a circuit without cycles lead to smaller scopes. -/
theorem WellFormed.descending (wellFormed : c.WellFormed) : c.Descending c.scope where
  inStep := wellFormed.inStep
  within := wellFormed.within
  descends _ _ := wellFormed.acyclic.scope_lt wellFormed.inStep.even

namespace Descending

theorem wellFormed (descending : c.Descending rank) : c.WellFormed where
  inStep := descending.inStep
  acyclic := acyclic_of_descends rank descending.descends
  within := descending.within

theorem setKind (descending : c.Descending rank) (kind : Kind) (inside : gate < c.size) :
    (c.setKind gate kind).Descending rank where
  inStep := descending.inStep.setKind kind inside
  within parent child wire := by
    rw [size_setKind]
    exact descending.within parent child wire
  descends := descending.descends

theorem setChildren {children : List Nat} (descending : c.Descending rank) (inside : gate < c.size)
    (within : ∀ child ∈ children, child < c.size) (lower : ∀ child ∈ children, rank child < rank gate) :
    (c.setChildren gate children).Descending rank := by
  have wires := fun other => children_setChildren c gate children other (descending.inStep.wires ▸ inside)
  refine ⟨descending.inStep.setChildren children, fun other child wire => ?_, fun other child wire => ?_⟩
  · rw [wires] at wire
    split at wire
    · exact within child wire
    · exact descending.within other child wire
  · rw [wires] at wire
    split at wire
    · rename_i same
      rw [same]
      exact lower child wire
    · exact descending.descends other child wire

theorem addWire {child : Nat} (descending : c.Descending rank) (inside : gate < c.size)
    (within : child < c.size) (lower : rank child < rank gate) : (c.addWire gate child).Descending rank := by
  rw [addWire_eq_setChildren]
  exact descending.setChildren inside
    (List.forall_mem_append.2 ⟨descending.within gate, List.forall_mem_singleton.2 within⟩)
    (List.forall_mem_append.2 ⟨descending.descends gate, List.forall_mem_singleton.2 lower⟩)

variable [Scalar α]

/-- A new gate above its children may have any rank that is greater than theirs. -/
theorem addNode {children : List Nat} {level : Nat} (descending : c.Descending rank) (kind : Kind)
    (within : ∀ child ∈ children, child < c.size) (lower : ∀ child ∈ children, rank child < level) :
    (c.addNode kind children).2.Descending (Function.update rank c.size level) := by
  have wires := children_addNode c kind children descending.inStep
  refine ⟨descending.inStep.addNode c kind children, fun other child wire => ?_, fun other child wire => ?_⟩
  · rw [size_addNode]
    rw [wires] at wire
    split at wire
    · exact (within child wire).trans (Nat.lt_succ_self _)
    · exact (descending.within other child wire).trans (Nat.lt_succ_self _)
  · rw [wires] at wire
    split at wire
    · rename_i new
      rw [new, Function.update_self, Function.update_of_ne (Nat.ne_of_lt (within child wire))]
      exact lower child wire
    · rename_i old
      rw [Function.update_of_ne old,
        Function.update_of_ne (Nat.ne_of_lt (descending.within other child wire))]
      exact descending.descends other child wire

end Descending

end Circuit

end Provenance
