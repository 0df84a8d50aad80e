import Provenance.Proofs.Network.PostOrder
import Provenance.Proofs.Outcome

/-!
# Checks along a post-order

A check of vertices is recursive when that of a vertex begins with those of its targets, from the left, and
ends with one of its own.  The checks along a post-order then fail as the check of its root does
(`forM_postOrder`): what is left of the recursion is read off the stack of the walk (`pending`), and neither
opening nor finishing a vertex changes it.
-/

namespace Provenance.Order

variable {targets : Nat → List Nat} {check : Nat → Outcome Unit} {root : Nat}

/-- The check of a vertex begins with those of its targets. -/
def Recursive (targets : Nat → List Nat) (check : Nat → Outcome Unit) : Prop :=
  ∀ vertex, ∃ own : Outcome Unit, check vertex = forM (targets vertex) check >>= fun _ => own

/-- What is left to check when a walk has come to a stack. -/
def pending (check : Nat → Outcome Unit) : List (Nat × List Nat) → Outcome Unit
  | [] => .ok ()
  | (vertex, rest) :: stack => do
    forM rest check
    check vertex
    pending check stack

/-- What comes behind vertices that pass decides. -/
theorem forM_append_of_ok {before : List Nat} (after : List Nat)
    (passed : ∀ vertex ∈ before, check vertex = .ok ()) :
    forM (before ++ after) check = forM after check := by
  induction before with
  | nil => rfl
  | cons vertex before ih =>
    obtain ⟨first, others⟩ := List.forall_mem_cons.1 passed
    rw [List.cons_append, List.forM_cons, first]
    exact ih others

/-- A list of vertices that pass does. -/
theorem forM_eq_ok {vertices : List Nat} (passed : ∀ vertex ∈ vertices, check vertex = .ok ()) :
    forM vertices check = .ok () := by
  have whole := forM_append_of_ok [] passed
  rwa [List.append_nil] at whole

/-- A walk goes on from the vertices that are finished. -/
theorem walk_extends (targets : Nat → List Nat) (fuel : Nat) (stack : List (Nat × List Nat)) (visited : Marks)
    (finished : List Nat) : finished.reverse <+: walk targets fuel stack visited finished := by
  fun_induction walk targets fuel stack visited finished with
  | case1 | case2 => exact List.prefix_rfl
  | case3 fuel vertex stack visited finished ih =>
    rw [List.reverse_cons] at ih
    exact (List.prefix_append ..).trans ih
  | case4 _ _ _ _ _ _ _ _ ih => exact ih
  | case5 _ _ _ _ _ _ _ _ ih => exact ih

/-- A vertex is checked once its targets are. -/
theorem Recursive.open_check (recursive : Recursive targets check) (vertex : Nat) :
    (forM (targets vertex) check >>= fun _ => check vertex) = check vertex := by
  obtain ⟨own, check_eq⟩ := recursive vertex
  rw [check_eq]
  cases forM (targets vertex) check <;> rfl

/-- The checks along a walk fail as what is left of the recursion does. -/
theorem forM_walk {all : Finset Nat} {fuel : Nat} {stack : List (Nat × List Nat)} {visited : Marks}
    {finished : List Nat} (acyclic : ∀ vertex, ¬ Relation.TransGen (Edge targets) vertex vertex)
    (recursive : Recursive targets check) (walking : Walking targets root stack visited finished)
    (inside : ∀ vertex, Relation.ReflTransGen (Edge targets) root vertex → vertex ∈ all)
    (enough : steps targets all stack visited ≤ fuel) (passed : ∀ vertex ∈ finished, check vertex = .ok ()) :
    forM (walk targets fuel stack visited finished) check = pending check stack := by
  fun_induction walk targets fuel stack visited finished with
  | case1 stack visited finished =>
    cases stack with
    | nil => exact forM_eq_ok fun vertex listed => passed vertex (List.mem_reverse.1 listed)
    | cons entry stack => simp [steps] at enough
  | case2 visited fuel finished =>
    exact forM_eq_ok fun vertex listed => passed vertex (List.mem_reverse.1 listed)
  | case3 fuel vertex stack visited finished ih =>
    have fewer := Nat.le_of_lt_succ ((Advances.pop.steps_lt walking inside).trans_le enough)
    cases here : check vertex with
    | ok _ =>
      rw [ih walking.pop fewer (List.forall_mem_cons.2 ⟨here, passed⟩), pending, here]
      rfl
    | error failure =>
      obtain ⟨rest, whole⟩ := walk_extends targets fuel stack visited (vertex :: finished)
      rw [← whole, List.reverse_cons, List.append_assoc,
        forM_append_of_ok _ fun other listed => passed other (List.mem_reverse.1 listed), pending, here]
      show forM (vertex :: rest) check = _
      rw [List.forM_cons, here]
      rfl
  | case4 fuel vertex target rest stack visited finished met ih =>
    have fewer := Nat.le_of_lt_succ (((Advances.skip met).steps_lt walking inside).trans_le enough)
    rw [ih (walking.skip met) fewer passed, pending, pending, List.forM_cons]
    -- a target that is still open would close a cycle
    have edge : target ∈ targets vertex := walking.own (vertex, target :: rest) (by simp) target (by simp)
    have reach := transGen_of_isChain (by simpa using walking.chain)
    have line_mem := (walking.mem_visited target).1 met
    simp only [line, List.map_cons, List.mem_append, List.mem_cons, List.mem_reverse] at line_mem
    rcases line_mem with finished | rfl | open_
    · rw [passed target finished]
      rfl
    · exact absurd (Relation.TransGen.single edge) (acyclic _)
    · exact absurd ((reach target open_).tail edge) (acyclic _)
  | case5 fuel vertex target rest stack visited finished new ih =>
    have new : target ∉ visited := new
    have fewer := Nat.le_of_lt_succ (((Advances.push new).steps_lt walking inside).trans_le enough)
    rw [ih (walking.push new) fewer passed, pending, pending, pending, List.forM_cons, ← bind_assoc,
      recursive.open_check target, bind_assoc]

end Provenance.Order

namespace Provenance.Network

open Provenance.Order

variable {κ : Type} {n : Network κ} {check : Nat → Outcome Unit} {root : Nat}

/-- The checks along the post-order of a gate fail as that of the gate does. -/
theorem forM_postOrder (even : n.Even) (inside : n.Inside root) (acyclic : n.Acyclic)
    (recursive : Recursive n.children check) : forM (n.postOrder root) check = check root := by
  have walked := forM_walk acyclic recursive Walking.start
    (fun gate path => Finset.mem_range.2 (inside gate path)) (steps_postOrder even inside) (by simp)
  rw [Network.postOrder, Order.postOrder, walked, pending, ← bind_assoc, recursive.open_check]
  cases check root <;> rfl

end Provenance.Network
