import Mathlib.Data.Finset.Card
import Mathlib.Logic.Relation
import Provenance.Decomposition.Basic
import Provenance.Proofs.GateSet

/-!
# Trees of bags

The bags of a decomposition make a tree when the parents lead from every bag to the root, which alone
is its own parent, and the lists of children say the same as the parents (`IsTree`).  A bag is below
another when the parents lead from it there.  What is below a bag is the bag itself and what is below
its children, and the subtrees of two children have no bag in common, so a property of all bags
follows when it passes from children to parents (`IsTree.induction`).

The bags of a gate are connected when any two of them are joined by links through bags of the gate.
Such a path enters and leaves the subtree of a bag through the bag and its parent only
(`Connected.crossing`).
-/

namespace Provenance.Decomposition

variable {d : Decomposition}

/-! ## Ancestors -/

/-- The parents lead from `b` to `a`; a bag is below itself. -/
def Below (d : Decomposition) (b a : Nat) : Prop := ∃ steps, d.ancestor b steps = a

theorem ancestor_add (b first second : Nat) :
    d.ancestor b (first + second) = d.ancestor (d.ancestor b first) second := by
  induction first generalizing b with
  | zero => rw [Nat.zero_add]; rfl
  | succ first ih =>
    rw [Nat.succ_add]
    exact ih (d.parent b)

theorem ancestor_succ (b steps : Nat) :
    d.ancestor b (steps + 1) = d.parent (d.ancestor b steps) := ancestor_add b steps 1

theorem ancestor_of_fixed {b : Nat} (fixed : d.parent b = b) (steps : Nat) :
    d.ancestor b steps = b := by
  induction steps with
  | zero => rfl
  | succ steps ih => rw [ancestor_succ, ih, fixed]

namespace Below

variable {a b x : Nat}

@[refl] theorem refl (b : Nat) : d.Below b b := ⟨0, rfl⟩

theorem trans (lower : d.Below x b) (upper : d.Below b a) : d.Below x a := by
  obtain ⟨first, rfl⟩ := lower
  obtain ⟨second, rfl⟩ := upper
  exact ⟨first + second, ancestor_add x first second⟩

theorem parent (d : Decomposition) (b : Nat) : d.Below b (d.parent b) := ⟨1, rfl⟩

/-- A bag below another is that one, or its parent is below it. -/
theorem eq_or_parent (below : d.Below x a) : x = a ∨ d.Below (d.parent x) a := by
  obtain ⟨steps, rfl⟩ := below
  cases steps with
  | zero => exact Or.inl rfl
  | succ steps => exact Or.inr ⟨steps, rfl⟩

/-- The bags above one bag are below each other. -/
theorem total (left : d.Below x a) (right : d.Below x b) : d.Below a b ∨ d.Below b a := by
  obtain ⟨first, rfl⟩ := left
  obtain ⟨second, rfl⟩ := right
  rcases Nat.le_total first second with le | le
  · exact Or.inl ⟨second - first, by rw [← ancestor_add, Nat.add_sub_cancel' le]⟩
  · exact Or.inr ⟨first - second, by rw [← ancestor_add, Nat.add_sub_cancel' le]⟩

theorem of_parent (above : d.Below (d.parent x) a) : d.Below x a := (parent d x).trans above

/-- What passes from parents to their children holds of all that is below. -/
@[elab_as_elim]
theorem induction {motive : (x : Nat) → d.Below x a → Prop} (top : motive a (.refl a))
    (step : ∀ x (above : d.Below (d.parent x) a), motive (d.parent x) above →
      motive x above.of_parent) (below : d.Below x a) : motive x below := by
  obtain ⟨steps, reaches⟩ := below
  induction steps generalizing x with
  | zero =>
    obtain rfl : x = a := reaches
    exact top
  | succ steps ih => exact step x ⟨steps, reaches⟩ (ih reaches)

end Below

/-! ## Trees -/

/-- The bags make a tree: every table has one entry for each bag, exactly the root is its own
parent, the children of a bag are the other bags whose parent it is, each once, and the parents lead
from every bag to the root. -/
structure IsTree (d : Decomposition) : Prop where
  parents : d.parents.size = d.size
  links : d.links.size = d.size
  root_lt : d.root < d.size
  parent_lt : ∀ b < d.size, d.parent b < d.size
  parent_eq_self_iff : ∀ b < d.size, d.parent b = b ↔ b = d.root
  mem_children_iff : ∀ b child, child ∈ d.children b ↔
    child < d.size ∧ child ≠ b ∧ d.parent child = b
  nodup_children : ∀ b, (d.children b).Nodup
  below_root : ∀ b < d.size, d.Below b d.root

/-- When all parents lead to the root no other bag is its own parent. -/
theorem IsTree.of_below_root (parents : d.parents.size = d.size) (links : d.links.size = d.size)
    (root_lt : d.root < d.size) (parent_root : d.parent d.root = d.root)
    (parent_lt : ∀ b < d.size, d.parent b < d.size)
    (mem_children_iff : ∀ b child, child ∈ d.children b ↔
      child < d.size ∧ child ≠ b ∧ d.parent child = b)
    (nodup_children : ∀ b, (d.children b).Nodup)
    (below_root : ∀ b < d.size, d.Below b d.root) : d.IsTree where
  parents := parents
  links := links
  root_lt := root_lt
  parent_lt := parent_lt
  mem_children_iff := mem_children_iff
  nodup_children := nodup_children
  below_root := below_root
  parent_eq_self_iff b inside := by
    constructor
    · intro fixed
      obtain ⟨steps, reaches⟩ := below_root b inside
      rw [← reaches, ancestor_of_fixed fixed]
    · rintro rfl
      exact parent_root

namespace IsTree

variable {a b child x : Nat}

theorem parent_root (tree : d.IsTree) : d.parent d.root = d.root :=
  (tree.parent_eq_self_iff d.root tree.root_lt).2 rfl

theorem child_lt (tree : d.IsTree) (member : child ∈ d.children b) : child < d.size :=
  ((tree.mem_children_iff b child).1 member).1

theorem child_ne (tree : d.IsTree) (member : child ∈ d.children b) : child ≠ b :=
  ((tree.mem_children_iff b child).1 member).2.1

theorem parent_child (tree : d.IsTree) (member : child ∈ d.children b) : d.parent child = b :=
  ((tree.mem_children_iff b child).1 member).2.2

theorem lt_of_child (tree : d.IsTree) (member : child ∈ d.children b) : b < d.size := by
  rw [← tree.parent_child member]
  exact tree.parent_lt child (tree.child_lt member)

/-- What is not a bag has no children. -/
theorem children_of_le (tree : d.IsTree) (outside : d.size ≤ b) : d.children b = [] :=
  List.eq_nil_iff_forall_not_mem.2 fun _ member =>
    absurd (tree.lt_of_child member) (Nat.not_lt.2 outside)

theorem below_child (tree : d.IsTree) (member : child ∈ d.children b) : d.Below child b := by
  have below := Below.parent d child
  rwa [tree.parent_child member] at below

/-- Every bag but the root is a child of its parent. -/
theorem mem_children_parent (tree : d.IsTree) (inside : b < d.size) (other : b ≠ d.root) :
    b ∈ d.children (d.parent b) := by
  refine (tree.mem_children_iff _ b).2 ⟨inside, fun fixed => ?_, rfl⟩
  exact other ((tree.parent_eq_self_iff b inside).1 fixed.symm)

/-- The lists of children lead from the root to every bag. -/
theorem reachable (tree : d.IsTree) (inside : b < d.size) :
    Relation.ReflTransGen (fun bag child => child ∈ d.children bag) d.root b := by
  have below := tree.below_root b inside
  induction below using Below.induction with
  | top => exact .refl
  | step b _ ih =>
    by_cases root : b = d.root
    · rw [root]
    · exact (ih (tree.parent_lt b inside)).tail (tree.mem_children_parent inside root)

theorem lt_of_below (tree : d.IsTree) (inside : x < d.size) (below : d.Below x b) :
    b < d.size := by
  obtain ⟨steps, rfl⟩ := below
  induction steps with
  | zero => exact inside
  | succ steps ih =>
    rw [ancestor_succ]
    exact tree.parent_lt _ ih

/-- Only bags are below a bag. -/
theorem lt_of_below_lt (tree : d.IsTree) (inside : b < d.size) (below : d.Below x b) :
    x < d.size := by
  by_contra outside
  have fixed : d.parent x = x := by
    simp [parent, Array.getD_eq_getD_getElem?, tree.parents, Nat.le_of_not_lt outside]
  obtain ⟨steps, rfl⟩ := below
  rw [ancestor_of_fixed fixed] at inside
  exact outside inside

/-- Two bags below each other are the same: a way round would never come to the root. -/
theorem below_antisymm (tree : d.IsTree) (inside : a < d.size) (up : d.Below a b)
    (down : d.Below b a) : a = b := by
  obtain ⟨first, rfl⟩ := up
  obtain ⟨second, back⟩ := down
  have round : ∀ times, d.ancestor a (times * (first + second)) = a := by
    intro times
    induction times with
    | zero => rw [Nat.zero_mul]; rfl
    | succ times ih => rw [Nat.succ_mul, ancestor_add, ih, ancestor_add, back]
  cases first with
  | zero => rfl
  | succ first =>
    obtain ⟨steps, reaches⟩ := tree.below_root a inside
    have enough : steps ≤ steps * (first + 1 + second) := Nat.le_mul_of_pos_right _ (by omega)
    have root : a = d.root := by
      rw [← round steps, ← Nat.add_sub_cancel' enough, ancestor_add, reaches,
        ancestor_of_fixed tree.parent_root]
    rw [root, ancestor_of_fixed tree.parent_root]

/-- Below a bag are the bag itself and what is below its children. -/
theorem below_iff (tree : d.IsTree) (inside : x < d.size) :
    d.Below x b ↔ x = b ∨ ∃ child ∈ d.children b, d.Below x child := by
  constructor
  · intro below
    induction below using Below.induction with
    | top => exact Or.inl rfl
    | step x above ih =>
      by_cases same : x = b
      · exact Or.inl same
      · rcases ih (tree.parent_lt x inside) with here | ⟨child, member, lower⟩
        · exact Or.inr ⟨x, (tree.mem_children_iff b x).2 ⟨inside, same, here⟩, .refl x⟩
        · exact Or.inr ⟨child, member, (Below.parent d x).trans lower⟩
  · rintro (rfl | ⟨child, member, lower⟩)
    · exact .refl x
    · exact lower.trans (tree.below_child member)

/-- No bag is below one of its children. -/
theorem not_below_child (tree : d.IsTree) (member : child ∈ d.children b) : ¬ d.Below b child :=
  fun below =>
    tree.child_ne member (tree.below_antisymm (tree.child_lt member) (tree.below_child member) below)

/-- The subtrees of two children have no bag in common. -/
theorem eq_of_below_children (tree : d.IsTree) {left right : Nat} (memberLeft : left ∈ d.children b)
    (memberRight : right ∈ d.children b) (belowLeft : d.Below x left)
    (belowRight : d.Below x right) : left = right := by
  have apart : ∀ {left right}, left ∈ d.children b → right ∈ d.children b → d.Below left right →
      left = right := by
    intro left right memberLeft memberRight below
    rcases below.eq_or_parent with same | above
    · exact same
    · rw [tree.parent_child memberLeft] at above
      exact absurd above (tree.not_below_child memberRight)
  rcases belowLeft.total belowRight with below | below
  · exact apart memberLeft memberRight below
  · exact (apart memberRight memberLeft below).symm

end IsTree

/-! ## Sizes of subtrees -/

open Classical in
/-- The number of bags below a bag. -/
noncomputable def weight (d : Decomposition) (b : Nat) : Nat :=
  ((Finset.range d.size).filter (d.Below · b)).card

namespace IsTree

variable {b child : Nat}

theorem weight_le (d : Decomposition) (b : Nat) : d.weight b ≤ d.size := by
  classical
  exact (Finset.card_filter_le _ _).trans (Finset.card_range _).le

theorem weight_pos (inside : b < d.size) : 0 < d.weight b := by
  classical
  exact Finset.card_pos.2 ⟨b, Finset.mem_filter.2 ⟨Finset.mem_range.2 inside, .refl b⟩⟩

/-- A child has fewer bags below it. -/
theorem weight_child_lt (tree : d.IsTree) (member : child ∈ d.children b) :
    d.weight child < d.weight b := by
  classical
  refine Finset.card_lt_card (Finset.ssubset_iff_of_subset ?_ |>.2 ⟨b, ?_, ?_⟩)
  · intro x lower
    rw [Finset.mem_filter] at lower ⊢
    exact ⟨lower.1, lower.2.trans (tree.below_child member)⟩
  · exact Finset.mem_filter.2 ⟨Finset.mem_range.2 (tree.lt_of_child member), .refl b⟩
  · exact fun lower => tree.not_below_child member (Finset.mem_filter.1 lower).2

/-- What passes from the children of a bag to the bag holds of all bags. -/
theorem induction (tree : d.IsTree) {motive : Nat → Prop}
    (step : ∀ b < d.size, (∀ child ∈ d.children b, motive child) → motive b) :
    ∀ b < d.size, motive b := by
  suffices ∀ weight b, d.weight b ≤ weight → b < d.size → motive b from
    fun b inside => this _ b (Nat.le_refl _) inside
  intro weight
  induction weight with
  | zero =>
    intro b light inside
    have := weight_pos inside
    omega
  | succ weight ih =>
    intro b light inside
    refine step b inside fun child member => ih child ?_ (tree.child_lt member)
    have := tree.weight_child_lt member
    omega

/-- As many steps as there are bags lead to the root. -/
theorem isBelowRoot (tree : d.IsTree) (inside : b < d.size) : d.isBelowRoot b = true := by
  have climbs : ∀ steps, d.ancestor b steps < d.size ∧
      (d.ancestor b steps = d.root ∨ steps < d.weight (d.ancestor b steps)) := by
    intro steps
    induction steps with
    | zero => exact ⟨inside, Or.inr (weight_pos inside)⟩
    | succ steps ih =>
      obtain ⟨here, rest⟩ := ih
      rw [ancestor_succ]
      refine ⟨tree.parent_lt _ here, ?_⟩
      by_cases root : d.ancestor b steps = d.root
      · exact Or.inl (by rw [root, tree.parent_root])
      · have := tree.weight_child_lt (tree.mem_children_parent here root)
        have := rest.resolve_left root
        exact Or.inr (by omega)
  rcases (climbs d.size).2 with root | heavy
  · simpa [Decomposition.isBelowRoot] using root
  · have := weight_le d (d.ancestor b d.size)
    omega

end IsTree

/-! ## Bags of one gate -/

/-- A link between two bags that both hold a gate. -/
def Linked (d : Decomposition) (gate a b : Nat) : Prop :=
  gate ∈ d.bag a ∧ gate ∈ d.bag b ∧ (d.parent a = b ∨ d.parent b = a)

/-- The bags of a gate are connected: any two are joined by links between bags of the gate. -/
def Connected (d : Decomposition) (gate : Nat) : Prop :=
  ∀ a b, gate ∈ d.bag a → gate ∈ d.bag b → Relation.ReflTransGen (d.Linked gate) a b

theorem lt_of_mem_bag {gate b : Nat} (member : gate ∈ d.bag b) : b < d.size := by
  by_contra outside
  have outside : d.bags.size ≤ b := Nat.le_of_not_lt outside
  simp [bag, Array.getD_eq_getD_getElem?, outside] at member

theorem Linked.symm {gate a b : Nat} (linked : d.Linked gate a b) : d.Linked gate b a :=
  ⟨linked.2.1, linked.1, linked.2.2.symm⟩

theorem reflTransGen_linked_symm {gate a b : Nat}
    (path : Relation.ReflTransGen (d.Linked gate) a b) :
    Relation.ReflTransGen (d.Linked gate) b a := by
  induction path with
  | refl => exact Relation.ReflTransGen.refl
  | tail _ link ih => exact Relation.ReflTransGen.head link.symm ih

/-- The bags of a gate are connected when each is joined to one of them. -/
theorem connected_of_hub {gate : Nat} (hub : Nat)
    (joined : ∀ b, gate ∈ d.bag b → Relation.ReflTransGen (d.Linked gate) b hub) :
    d.Connected gate :=
  fun a b left right => (joined a left).trans (reflTransGen_linked_symm (joined b right))

/-- The bags of a gate stay connected in a changed tree when its links can be followed there and its
bags there lead to former ones. -/
theorem Connected.of_paths {d' : Decomposition} {gate : Nat} (connected : d.Connected gate)
    (links : ∀ a b, d.Linked gate a b → Relation.ReflTransGen (d'.Linked gate) a b)
    (former : ∀ b, gate ∈ d'.bag b →
      ∃ a, gate ∈ d.bag a ∧ Relation.ReflTransGen (d'.Linked gate) b a) : d'.Connected gate := by
  have paths : ∀ a b, Relation.ReflTransGen (d.Linked gate) a b →
      Relation.ReflTransGen (d'.Linked gate) a b := by
    intro a b path
    induction path with
    | refl => exact Relation.ReflTransGen.refl
    | tail _ link ih => exact ih.trans (links _ _ link)
  intro a b left right
  obtain ⟨a', left, first⟩ := former a left
  obtain ⟨b', right, last⟩ := former b right
  exact first.trans ((paths a' b' (connected a' b' left right)).trans (reflTransGen_linked_symm last))

/-- The bags of a gate are connected when each but one, which is the same for all, comes before its
parent and the parent holds the gate too. -/
theorem connected_of_climb {gate : Nat} (hub : Nat)
    (climb : ∀ b, gate ∈ d.bag b → b ≠ hub → b < d.parent b ∧ gate ∈ d.bag (d.parent b)) :
    d.Connected gate := by
  refine connected_of_hub hub ?_
  suffices ∀ distance b, d.size - b ≤ distance → gate ∈ d.bag b →
      Relation.ReflTransGen (d.Linked gate) b hub from
    fun b member => this _ b (Nat.le_refl _) member
  intro distance
  induction distance with
  | zero =>
    intro b near member
    have := lt_of_mem_bag member
    omega
  | succ distance ih =>
    intro b near member
    by_cases last : b = hub
    · rw [last]
    · obtain ⟨higher, above⟩ := climb b member last
      have := lt_of_mem_bag above
      exact Relation.ReflTransGen.head ⟨member, above, Or.inl rfl⟩ (ih _ (by omega) above)

/-- A gate with a bag below `child` and one elsewhere is in `child` and in its parent. -/
theorem Connected.crossing {gate child x y : Nat} (connected : d.Connected gate)
    (lower : d.Below x child) (memberLower : gate ∈ d.bag x) (outside : ¬ d.Below y child)
    (memberOutside : gate ∈ d.bag y) : gate ∈ d.bag child ∧ gate ∈ d.bag (d.parent child) := by
  have path := connected x y memberLower memberOutside
  induction path using Relation.ReflTransGen.head_induction_on with
  | refl => exact absurd lower outside
  | @head x next link _ ih =>
    by_cases inner : d.Below next child
    · exact ih inner link.2.1
    · rcases link.2.2 with up | down
      · rcases lower.eq_or_parent with rfl | above
        · exact ⟨link.1, up ▸ link.2.1⟩
        · exact absurd (up ▸ above) inner
      · exact absurd (Below.of_parent (down ▸ lower)) inner

end Provenance.Decomposition
