import Provenance.DDnnf.Smooth
import Provenance.Proofs.Circuit.Regroup

/-!
# Binary gates mean the same

Putting neighbours in pairs under new gates regroups the children of a gate (`pairUp_regroups`), and so does
doing it again until two are left.  So the d-DNNF with binary gates refines the one before (`refines_binary`).
-/

namespace Provenance.DDnnf

open Provenance.Circuit

variable {α : Type} [Scalar α] {c : Circuit α} {kind : Kind} {gate : Nat}

/-- Two gates and others, the two under a new gate. -/
theorem regroups_pair (connective : kind = .and ∨ kind = .or) {left right : Nat} {rest : List Nat}
    {result : List Nat × Circuit α} (inStep : c.InStep) (added : c.Enlarges (c.addNode kind [left, right]).2)
    (small : gate < c.size) (regroups : (c.addNode kind [left, right]).2.Regroups kind gate rest result) :
    c.Regroups kind gate (left :: right :: rest) (c.size :: result.1, result.2) := by
  have last : c.size < (c.addNode kind [left, right]).2.size := by
    rw [size_addNode]
    exact Nat.lt_succ_self _
  have kind_last : (c.addNode kind [left, right]).2.kind c.size = kind := by rw [kind_addNode, if_pos rfl]
  have children_last : (c.addNode kind [left, right]).2.children c.size = [left, right] := by
    rw [children_addNode _ _ _ inStep, if_pos rfl]
  refine
    { enlarges := added.trans regroups.enlarges
      replaces := fun c' larger => ?_
      reaches := fun child listed path => ?_ }
  · have all := regroups.enlarges.trans larger
    have kind' : c'.kind c.size = kind := (all.kind _ last).trans kind_last
    have children' : c'.children c.size = [left, right] := (all.children _ last).trans children_last
    have first := replaces_children all.wellFormed (kind'.symm ▸ connective)
      (children'.symm ▸ List.cons_ne_nil left [right])
    rw [kind', children'] at first
    exact first.append (regroups.replaces c' larger)
  · rcases List.mem_cons.1 listed with rfl | listed
    · rcases Network.Reaches.cases_iff.1 path with same | ⟨lower, wire, path⟩
      · exact absurd same (Nat.ne_of_lt small)
      · have wire : lower ∈ result.2.children c.size := wire
        rw [regroups.enlarges.children _ last, children_last] at wire
        exact ⟨lower, List.mem_append_left rest wire, path⟩
    · obtain ⟨lower, there, path⟩ := regroups.reaches child listed path
      exact ⟨lower, List.mem_append_right [left, right] there, path⟩

/-- In a well-formed circuit what holds of gates that are left as they are, and of two gates under a new one when
it holds of those behind them, holds of all gates that are put in pairs. -/
theorem pairUp_induction (other : kind ≠ .input) {motive : List Nat → Circuit α → List Nat × Circuit α → Prop}
    (few : ∀ (children : List Nat) (c : Circuit α), c.WellFormed → (∀ child ∈ children, child < c.size) →
      motive children c (children, c))
    (pair : ∀ (left right : Nat) (rest : List Nat) (c : Circuit α) (result : List Nat × Circuit α),
      c.InStep → c.Enlarges (c.addNode kind [left, right]).2 →
      motive rest (c.addNode kind [left, right]).2 result →
      motive (left :: right :: rest) c (c.size :: result.1, result.2))
    {children : List Nat} (wellFormed : c.WellFormed) (inside : ∀ child ∈ children, child < c.size) :
    motive children c (pairUp kind children c) := by
  fun_induction pairUp kind children c with
  | case1 left right rest c new c' added others c'' paired ih =>
    have new_eq : c.size = new := congrArg Prod.fst added
    have circuit_eq : (c.addNode kind [left, right]).2 = c' := congrArg Prod.snd added
    have both : ∀ child ∈ [left, right], child < c.size := fun child listed =>
      inside child (List.mem_append_left rest listed)
    have enlarges := Enlarges.addNode wellFormed other both
    have below : ∀ child ∈ rest, child < (c.addNode kind [left, right]).2.size := fun child listed =>
      (inside child (List.mem_append_right [left, right] listed)).trans_le enlarges.size_le
    rw [← circuit_eq] at ih paired
    have behind := ih enlarges.wellFormed below
    rw [paired] at behind
    exact new_eq ▸ pair left right rest c (others, c'') wellFormed.inStep enlarges behind
  | case2 children c _ => exact few children c wellFormed inside

theorem pairUp_regroups (connective : kind = .and ∨ kind = .or) {children : List Nat}
    (wellFormed : c.WellFormed) (inside : ∀ child ∈ children, child < c.size) (small : gate < c.size) :
    c.Regroups kind gate children (pairUp kind children c) := by
  have other : kind ≠ .input := by rcases connective with rfl | rfl <;> decide
  refine pairUp_induction other
    (motive := fun children c result => gate < c.size → c.Regroups kind gate children result)
    (fun _ _ wellFormed inside _ => .refl wellFormed inside) ?_ wellFormed inside small
  intro left right rest c result inStep enlarges behind small
  exact regroups_pair connective inStep enlarges small (behind (small.trans_le enlarges.size_le))

theorem pairDown_regroups (connective : kind = .and ∨ kind = .or) (rounds : Nat) {children : List Nat}
    (wellFormed : c.WellFormed) (inside : ∀ child ∈ children, child < c.size) (small : gate < c.size) :
    c.Regroups kind gate children (pairDown kind rounds children c) := by
  induction rounds generalizing children c with
  | zero => exact .refl wellFormed inside
  | succ rounds ih =>
    rw [pairDown]
    split
    · exact .refl wellFormed inside
    · have first := pairUp_regroups connective wellFormed inside small
      exact first.trans (ih first.enlarges.wellFormed first.within (small.trans_le first.enlarges.size_le)) inside

/-- A gate made binary means the same. -/
theorem refines_binaryGate (connective : kind = .and ∨ kind = .or) (wellFormed : c.WellFormed) (gate : Nat) :
    c.Refines (binaryGate kind c gate) := by
  unfold binaryGate
  split
  · rename_i same
    subst same
    have inside := (evaluable_of_connective connective).lt
    have regroups := pairDown_regroups connective (c.children gate).length wellFormed
      (wellFormed.within gate) inside
    exact (regroups.enlarges.refines wellFormed).trans (regroups.refines connective)
  · exact .refl wellFormed

theorem refines_foldl_binaryGate (connective : kind = .and ∨ kind = .or) (wellFormed : c.WellFormed)
    (gates : List Nat) : c.Refines (gates.foldl (binaryGate kind) c) := by
  induction gates generalizing c with
  | nil => exact .refl wellFormed
  | cons gate gates ih =>
    have first := refines_binaryGate connective wellFormed gate
    exact first.trans (ih first.wellFormed)

/-- Conjunctions or disjunctions are made binary, and the circuit that comes out refines the one before. -/
theorem refines_binary {d : DDnnf α} (connective : kind = .and ∨ kind = .or) (wellFormed : d.circuit.WellFormed) :
    ∃ c, d.binary kind = .ok (ofCircuit c d.root) ∧ d.circuit.Refines c :=
  ⟨_, if_pos connective, refines_foldl_binaryGate connective wellFormed _⟩

end Provenance.DDnnf
