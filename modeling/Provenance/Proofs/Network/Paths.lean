import Mathlib.Data.Fintype.Pigeonhole
import Mathlib.Logic.Relation
import Mathlib.Order.WellFounded
import Provenance.Network

/-!
# Paths of wires

A wire leads from a gate to each of its children.  What a gate reaches is itself and whatever its
wires lead to, and a network is acyclic when no gate is its own descendant.  Only gates of the table
have children, so an acyclic network has no infinite path, and a property of all gates follows when
it passes from the children of a gate to the gate (`Acyclic.induction`).
-/

namespace Provenance.Network

variable {κ : Type} {n : Network κ}

/-- A wire leads from `gate` to `child`. -/
def Wire (n : Network κ) (gate child : Nat) : Prop := child ∈ n.children gate

/-- `gate` is `root` or one of its descendants. -/
def Reaches (n : Network κ) (root gate : Nat) : Prop := Relation.ReflTransGen n.Wire root gate

/-- No gate is its own descendant. -/
def Acyclic (n : Network κ) : Prop := ∀ gate, ¬ Relation.TransGen n.Wire gate gate

namespace Reaches

@[refl] theorem refl (root : Nat) : n.Reaches root root := Relation.ReflTransGen.refl

/-- What a child reaches its parent reaches too. -/
theorem of_child {gate child other : Nat} (wire : child ∈ n.children gate)
    (path : n.Reaches child other) : n.Reaches gate other :=
  Relation.ReflTransGen.head wire path

theorem child {root gate child : Nat} (path : n.Reaches root gate)
    (wire : child ∈ n.children gate) : n.Reaches root child :=
  Relation.ReflTransGen.tail path wire

theorem trans {root gate other : Nat} (upper : n.Reaches root gate)
    (lower : n.Reaches gate other) : n.Reaches root other :=
  Relation.ReflTransGen.trans upper lower

/-- A gate reaches itself and what its children reach. -/
theorem cases_iff {gate other : Nat} :
    n.Reaches gate other ↔ other = gate ∨ ∃ child ∈ n.children gate, n.Reaches child other := by
  constructor
  · intro path
    rcases Relation.ReflTransGen.cases_head path with same | ⟨child, wire, rest⟩
    · exact Or.inl same.symm
    · exact Or.inr ⟨child, wire, rest⟩
  · rintro (rfl | ⟨child, wire, rest⟩)
    · exact refl _
    · exact of_child wire rest

/-- A gate without children reaches itself only. -/
theorem eq_of_children_nil {gate other : Nat} (childless : n.children gate = [])
    (path : n.Reaches gate other) : other = gate := by
  rcases cases_iff.1 path with same | ⟨child, wire, _⟩
  · exact same
  · simp [childless] at wire

end Reaches

/-- What holds of all gates below a gate holds of it and of all gates below its children. -/
theorem forall_reaches_iff {P : Nat → Prop} {gate : Nat} :
    (∀ other, n.Reaches gate other → P other) ↔
      P gate ∧ ∀ child ∈ n.children gate, ∀ other, n.Reaches child other → P other := by
  constructor
  · exact fun all => ⟨all gate (.refl gate), fun child wire other path =>
      all other (Reaches.of_child wire path)⟩
  · rintro ⟨here, below⟩ other path
    rcases Reaches.cases_iff.1 path with rfl | ⟨child, wire, lower⟩
    · exact here
    · exact below child wire other lower

/-- Gates out of the table have no children. -/
theorem children_eq_nil_of_le {gate : Nat} (outside : n.wires.size ≤ gate) :
    n.children gate = [] := by
  simp [children, Array.getD_eq_getD_getElem?, outside]

/-- Gates out of the table have the default kind. -/
theorem kind_eq_default_of_le [Inhabited κ] {gate : Nat} (outside : n.size ≤ gate) :
    n.kind gate = default := by
  have outside : n.kinds.size ≤ gate := outside
  simp [kind, Array.getD_eq_getD_getElem?, outside]

theorem lt_of_wire {gate child : Nat} (wire : child ∈ n.children gate) : gate < n.wires.size := by
  by_contra outside
  rw [children_eq_nil_of_le (Nat.le_of_not_lt outside)] at wire
  exact List.not_mem_nil wire

namespace Acyclic

theorem not_mem_children (acyclic : n.Acyclic) (gate : Nat) : gate ∉ n.children gate :=
  fun wire => acyclic gate (Relation.TransGen.single wire)

/-- An infinite path would visit a gate of the table twice. -/
theorem wellFounded (acyclic : n.Acyclic) :
    WellFounded fun child gate => child ∈ n.children gate := by
  refine wellFounded_iff_isEmpty_descending_chain.2 ⟨fun ⟨visit, wires⟩ => ?_⟩
  obtain ⟨i, j, different, same⟩ := Finite.exists_ne_map_eq_of_infinite
    fun i => (⟨visit i, lt_of_wire (wires i)⟩ : Fin n.wires.size)
  have same : visit i = visit j := congrArg Fin.val same
  have along : ∀ first length,
      Relation.TransGen n.Wire (visit first) (visit (first + length + 1)) := by
    intro first length
    induction length with
    | zero => exact Relation.TransGen.single (wires first)
    | succ length ih => exact ih.tail (wires (first + length + 1))
  rcases Nat.lt_or_gt_of_ne different with before | after
  · refine acyclic (visit i) ?_
    have round := along i (j - i - 1)
    rwa [show i + (j - i - 1) + 1 = j by omega, ← same] at round
  · refine acyclic (visit j) ?_
    have round := along j (i - j - 1)
    rwa [show j + (i - j - 1) + 1 = i by omega, same] at round

/-- What passes from the children of a gate to the gate holds of all gates. -/
theorem induction (acyclic : n.Acyclic) {motive : Nat → Prop}
    (step : ∀ gate, (∀ child ∈ n.children gate, motive child) → motive gate) (gate : Nat) :
    motive gate :=
  acyclic.wellFounded.induction gate step

end Acyclic

/-- Where every path ends there is no cycle. -/
theorem acyclic_of_wellFounded (ends : WellFounded fun child gate => child ∈ n.children gate) :
    n.Acyclic := by
  intro gate path
  have back : Relation.TransGen (fun child gate => child ∈ n.children gate) gate gate :=
    Relation.transGen_swap.1 path
  exact ends.transGen.irrefl.irrefl gate back

/-- A network whose wires lead to lower gates is acyclic. -/
theorem acyclic_of_lt (below : ∀ gate, ∀ child ∈ n.children gate, child < gate) : n.Acyclic := by
  intro gate path
  have descends : ∀ other, Relation.TransGen n.Wire gate other → other < gate := by
    intro other path
    induction path with
    | single wire => exact below _ _ wire
    | tail _ wire ih => exact Nat.lt_trans (below _ _ wire) ih
  exact Nat.lt_irrefl gate (descends gate path)

end Provenance.Network
