import Mathlib.Algebra.Order.BigOperators.Group.List
import Provenance.Proofs.Outcome
import Provenance.Proofs.Network.TopologicalOrder

/-!
# The check for cycles

A network passes the check when no gate is its own descendant, and only then (`checkAcyclic_eq_ok_iff`): its
gates have a topological order, in which every gate comes behind its parents.  Otherwise the check names a gate
on a cycle (`exists_cycle_of_checkAcyclic`).  Wires to gates that are not there do no harm, for these have no
children.
-/

namespace Provenance.Network

open Provenance.Order

variable {κ : Type} {n : Network κ}

/-! ## Parents -/

/-- Adding a parent to the entries of its children. -/
theorem mem_getD_foldl_insert {gate other child : Nat} (children : List Nat)
    (table : Std.TreeMap Nat (List Nat)) :
    other ∈ (children.foldl (fun table child => table.insert child (gate :: table.getD child [])) table).getD
        child [] ↔ (other = gate ∧ child ∈ children) ∨ other ∈ table.getD child [] := by
  induction children generalizing table with
  | nil => simp
  | cons first rest ih =>
    rw [List.foldl_cons, ih, Std.TreeMap.getD_insert]
    by_cases same : first = child
    · subst same
      simp only [Std.compare_self, if_true, List.mem_cons, true_or, and_true]
      tauto
    · rw [if_neg fun equal => same (compare_eq_iff_eq.1 equal)]
      simp [Ne.symm same]

/-- The parents of a gate are the gates of which it is a child. -/
theorem mem_parents (even : n.Even) {gate child : Nat} :
    gate ∈ n.parents.getD child [] ↔ child ∈ n.children gate := by
  have folded : ∀ gates : List Nat, gate ∈ (gates.foldr
      (fun gate table => (n.children gate).eraseDups.foldl
        (fun table child => table.insert child (gate :: table.getD child [])) table)
      (∅ : Std.TreeMap Nat (List Nat))).getD child [] ↔ gate ∈ gates ∧ child ∈ n.children gate := by
    intro gates
    induction gates with
    | nil => simp
    | cons first rest ih =>
      rw [List.foldr_cons, mem_getD_foldl_insert, ih, List.mem_eraseDups, List.mem_cons]
      constructor
      · rintro (⟨rfl, wire⟩ | ⟨listed, wire⟩)
        · exact ⟨Or.inl rfl, wire⟩
        · exact ⟨Or.inr listed, wire⟩
      · rintro ⟨rfl | listed, wire⟩
        · exact Or.inl ⟨rfl, wire⟩
        · exact Or.inr ⟨listed, wire⟩
  refine (folded n.gates).trans (and_iff_right_of_imp fun wire => ?_)
  exact List.mem_range.2 (even.lt_of_wire wire)

/-! ## The check -/

theorem length_eraseDups_le (vertices : List Nat) : vertices.eraseDups.length ≤ vertices.length := by
  obtain ⟨length, equal⟩ : ∃ length, vertices.length = length := ⟨_, rfl⟩
  induction length using Nat.strong_induction_on generalizing vertices with
  | _ length ih =>
    cases vertices with
    | nil => exact Nat.le_refl _
    | cons first rest =>
      have few := List.length_filter_le (fun other => !other == first) rest
      rw [List.length_cons] at equal
      have shorter := ih _ (by omega) (rest.filter fun other => !other == first) rfl
      rw [List.eraseDups_cons, List.length_cons, List.length_cons]
      exact Nat.succ_le_succ (shorter.trans few)

section Check

variable (even : n.Even)

include even

/-- The check has steps for all gates that are mentioned and all wires. -/
theorem checkAcyclic_enough :
    ∑ gate ∈ n.mentioned.toFinset, ((n.children gate).eraseDups.length + 1) ≤
      2 * (n.size + 2 * n.wireCount) + 1 := by
  have edges : ∑ gate ∈ n.mentioned.toFinset, (n.children gate).eraseDups.length ≤ n.wireCount := by
    rw [wireCount_eq_sum even]
    refine (Finset.sum_le_sum fun gate _ => length_eraseDups_le (n.children gate)).trans ?_
    refine Finset.sum_le_sum_of_ne_zero fun gate _ some_child => Finset.mem_range.2 ?_
    obtain ⟨child, wire⟩ := List.exists_mem_of_length_pos (Nat.pos_of_ne_zero some_child)
    exact even.lt_of_wire wire
  have vertices : n.mentioned.toFinset.card ≤ n.size + n.wireCount := by
    calc n.mentioned.toFinset.card
        ≤ n.mentioned.length := List.toFinset_card_le _
      _ = ∑ gate ∈ Finset.range n.size, ((n.children gate).length + 1) := List.length_flatMap
      _ = n.size + n.wireCount := by
        rw [Finset.sum_add_distrib, ← wireCount_eq_sum even, ← Finset.card_eq_sum_ones, Finset.card_range,
          Nat.add_comm]
  rw [Finset.sum_add_distrib, ← Finset.card_eq_sum_ones]
  omega

theorem mem_mentioned_of_wire {gate child : Nat} (wire : child ∈ n.children gate) :
    gate ∈ n.mentioned ∧ child ∈ n.mentioned := by
  have small := List.mem_range.2 (even.lt_of_wire wire)
  exact ⟨List.mem_flatMap.2 ⟨gate, small, List.mem_cons_self⟩,
    List.mem_flatMap.2 ⟨gate, small, List.mem_cons_of_mem gate wire⟩⟩

/-- The order of the gates that are mentioned is there when the network is acyclic, and only then; otherwise a
gate on a cycle is reported. -/
theorem topologicalOrder_mentioned :
    ((∃ order, topologicalOrder (fun gate => (n.children gate).eraseDups)
        (fun gate => n.parents.getD gate []) (n.size + 2 * n.wireCount) n.mentioned = .ok order) ↔ n.Acyclic) ∧
      ∀ gate, topologicalOrder (fun gate => (n.children gate).eraseDups)
        (fun gate => n.parents.getD gate []) (n.size + 2 * n.wireCount) n.mentioned = .error gate →
          Relation.TransGen n.Wire gate gate := by
  have edges : Edge (fun gate => (n.children gate).eraseDups) = n.Wire := by
    funext gate child
    exact propext List.mem_eraseDups
  have inside : ∀ gate ∈ n.mentioned, gate ∈ n.mentioned.toFinset := fun gate => List.mem_toFinset.2
  have known : ∀ gate, ∀ child ∈ (n.children gate).eraseDups, gate ∈ n.mentioned ∧ child ∈ n.mentioned :=
    fun gate child wire => mem_mentioned_of_wire even (List.mem_eraseDups.1 wire)
  have closed : ∀ gate ∈ n.mentioned.toFinset, ∀ child ∈ (n.children gate).eraseDups,
      child ∈ n.mentioned.toFinset := fun gate _ child wire => inside child (known gate child wire).2
  have turned : ∀ child gate, gate ∈ n.parents.getD child [] ↔ child ∈ (n.children gate).eraseDups :=
    fun child gate => (mem_parents even).trans List.mem_eraseDups.symm
  have enough := checkAcyclic_enough even
  rw [Acyclic, ← edges]
  exact ⟨exists_topologicalOrder_iff closed inside enough turned known,
    fun gate => cycle_of_topologicalOrder closed inside enough turned known⟩

/-- A network passes the check when it is acyclic, and only then. -/
theorem checkAcyclic_eq_ok_iff : n.checkAcyclic = .ok () ↔ n.Acyclic := by
  rw [← (topologicalOrder_mentioned even).1, checkAcyclic]
  cases topologicalOrder (fun gate => (n.children gate).eraseDups)
    (fun gate => n.parents.getD gate []) (n.size + 2 * n.wireCount) n.mentioned <;> simp

/-- A network that does not pass the check fails with a gate on a cycle. -/
theorem exists_cycle_of_checkAcyclic {failure : Failure} (failed : n.checkAcyclic = .error failure) :
    ∃ gate, failure = .of (.cyclic gate) ∧ Relation.TransGen n.Wire gate gate := by
  have cycle := (topologicalOrder_mentioned even).2
  rw [checkAcyclic] at failed
  cases ordered : topologicalOrder (fun gate => (n.children gate).eraseDups)
    (fun gate => n.parents.getD gate []) (n.size + 2 * n.wireCount) n.mentioned with
  | ok order => simp [ordered] at failed
  | error gate =>
    simp only [ordered, Outcome.fail, Except.error.injEq] at failed
    exact ⟨gate, failed.symm, cycle gate ordered⟩

/-- A network passes the check when no gate is its own descendant, and only then; otherwise the check names a
gate on a cycle of wires. -/
theorem checkAcyclic_spec : (n.checkAcyclic = .ok () ↔ ∀ gate, ¬ Relation.TransGen n.Wire gate gate) ∧
    ∀ failure, n.checkAcyclic = .error failure →
      ∃ gate, failure = .of (.cyclic gate) ∧ Relation.TransGen n.Wire gate gate :=
  ⟨checkAcyclic_eq_ok_iff even, fun _ => exists_cycle_of_checkAcyclic even⟩

end Check

/-- A gate above a cycle of two, with one more wire to a gate that is not there. -/
def ring : Network Kind := ⟨#[.and, .not, .or], #[[1, 7], [2], [1, 1]], .empty⟩

/-- The check names a gate of the cycle. -/
theorem checkAcyclic_ring : ring.Even ∧ ring.checkAcyclic = .error (.of (.cyclic 2)) ∧
    Relation.TransGen ring.Wire 2 2 := by
  have even : ring.Even := rfl
  have failed : ring.checkAcyclic = .error (.of (.cyclic 2)) := by decide +kernel
  obtain ⟨gate, named, cycle⟩ := (checkAcyclic_spec even).2 _ failed
  cases named
  exact ⟨even, failed, cycle⟩

end Provenance.Network
