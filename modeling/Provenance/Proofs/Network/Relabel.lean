import Provenance.Proofs.Network.PostOrder

/-!
# Post-orders with other numbers

A walk only compares vertices, so it goes the same way when they have other numbers (`walk_map`), and once it
has ended more steps change nothing (`walk_eq_postOrder`).  The post-order of the counterpart of a gate therefore
lists the counterparts of what the gate reaches, in the same order (`postOrder_map`).
-/

namespace Provenance.Order

variable {targets : Nat → List Nat}

/-- Counterparts of the vertices are walked as the vertices are. -/
theorem walk_map {targets' : Nat → List Nat} {number : Nat → Nat} {met : Set Nat}
    (injective : Set.InjOn number met) (closed : ∀ vertex ∈ met, ∀ target ∈ targets vertex, target ∈ met)
    (same : ∀ vertex ∈ met, targets' (number vertex) = (targets vertex).map number) {fuel : Nat}
    {stack : List (Nat × List Nat)} {visited visited' : Marks} {finished : List Nat}
    (inside : ∀ entry ∈ stack, ∀ target ∈ entry.2, target ∈ met)
    (marks : ∀ vertex ∈ met, number vertex ∈ visited' ↔ vertex ∈ visited) :
    walk targets' fuel (stack.map fun entry => (number entry.1, entry.2.map number)) visited'
      (finished.map number) = (walk targets fuel stack visited finished).map number := by
  fun_induction walk targets fuel stack visited finished generalizing visited' with
  | case1 stack visited finished => rw [walk, List.map_reverse]
  | case2 visited fuel finished => rw [List.map_nil, walk, List.map_reverse]
  | case3 fuel vertex stack visited finished ih =>
    rw [List.map_cons, List.map_nil, walk]
    exact ih (fun entry listed => inside entry (List.mem_cons_of_mem _ listed)) marks
  | case4 fuel vertex target rest stack visited finished old ih =>
    obtain ⟨first, others⟩ := List.forall_mem_cons.1 inside
    obtain ⟨here, later⟩ := List.forall_mem_cons.1 first
    have old' : visited'.contains (number target) = true := (marks target here).2 old
    rw [List.map_cons, List.map_cons, walk, if_pos old']
    exact ih (List.forall_mem_cons.2 ⟨later, others⟩) marks
  | case5 fuel vertex target rest stack visited finished new ih =>
    obtain ⟨first, others⟩ := List.forall_mem_cons.1 inside
    obtain ⟨here, later⟩ := List.forall_mem_cons.1 first
    have new' : ¬ visited'.contains (number target) = true := mt (marks target here).1 new
    rw [List.map_cons, List.map_cons, walk, if_neg new', same target here]
    refine ih (List.forall_mem_cons.2 ⟨closed target here, List.forall_mem_cons.2 ⟨later, others⟩⟩) ?_
    intro other member
    rw [mem_insert_marks, mem_insert_marks, marks other member, injective.eq_iff member here]

end Provenance.Order

namespace Provenance.Network

open Provenance.Order

variable {κ κ' : Type} {n : Network κ} {n' : Network κ'} {number : Nat → Nat} {root : Nat}

/-- The post-order is found with any larger number of steps. -/
theorem walk_eq_postOrder {more : Nat} (even : n.Even) (inside : n.Inside root)
    (le : n.size + n.wireCount + 1 ≤ more) :
    walk n.children more [(root, n.children root)] ((∅ : Marks).insert root) [] = n.postOrder root := by
  obtain ⟨extra, rfl⟩ := Nat.exists_eq_add_of_le' le
  obtain ⟨visited, ended, _⟩ := walking_postOrder even inside
  refine (Tour.walk_waiting _ (.start root)).trans ?_
  rw [Function.iterate_add_apply, ended, Function.iterate_fixed (Tour.step_of_nil rfl)]

/-- Where a gate and all that it reaches have counterparts, those are listed in the same order. -/
theorem postOrder_map (even : n.Even) (inside : n.Inside root) (even' : n'.Even)
    (inside' : n'.Inside (number root)) (injective : Set.InjOn number {gate | n.Reaches root gate})
    (children : ∀ gate, n.Reaches root gate → n'.children (number gate) = (n.children gate).map number) :
    n'.postOrder (number root) = (n.postOrder root).map number := by
  obtain ⟨more, left, right⟩ : ∃ more, n.size + n.wireCount + 1 ≤ more ∧ n'.size + n'.wireCount + 1 ≤ more :=
    ⟨_, Nat.le_max_left _ _, Nat.le_max_right _ _⟩
  rw [← walk_eq_postOrder even' inside' right, ← walk_eq_postOrder even inside left, children root (.refl root)]
  show walk _ _ ([(root, n.children root)].map fun entry => (number entry.1, entry.2.map number)) _
    (List.map number []) = _
  refine walk_map injective (fun gate path child wire => Reaches.child path wire) children ?_ ?_
  · intro entry listed child wire
    obtain rfl := List.mem_singleton.1 listed
    exact Reaches.of_child wire (.refl child)
  · intro gate path
    rw [mem_insert_marks, mem_insert_marks, injective.eq_iff path (Reaches.refl root)]
    simp

end Provenance.Network
