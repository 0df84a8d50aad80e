import Provenance.Proofs.Decomposition.Compile
import Provenance.Proofs.Decomposition.RoundTrip

/-!
# Decompositions with empty bags

An empty bag that separates others does no harm.  One at an end of the tree, beside one other bag at most,
becomes an empty leaf wherever the root is moved, because a move of the root turns links round and makes
none (`IsTree.beside_reroot`, `IsTree.emptyLeaf_friendly_iff`).  No value fits an empty leaf, so what is
compiled is false in every world then, and it has the value of the gate in every world otherwise
(`Compilation.Spanned.evaluate_alongTree`).  A decomposition that is read from a text may be of either sort
(`Compilation.alongTree_separated`, `Compilation.alongTree_trailed`).
-/

namespace Provenance

namespace Decomposition

variable {d : Decomposition} {a b x y gate : Nat}

/-! ## Ends of a tree -/

/-- One of the bags is a child of the other. -/
def Beside (d : Decomposition) (a b : Nat) : Prop := b ∈ d.children a ∨ a ∈ d.children b

/-- An empty bag with at most one bag beside it. -/
structure EmptyEnd (d : Decomposition) (b : Nat) : Prop where
  inside : b < d.size
  empty : d.bag b = ∅
  last : ∀ x y, d.Beside b x → d.Beside b y → x = y

theorem Beside.symm (beside : d.Beside a b) : d.Beside b a := Or.symm beside

/-- Beside a bag are its children and, unless it is the root, its parent. -/
theorem IsTree.beside_iff (tree : d.IsTree) (inside : b < d.size) :
    d.Beside b x ↔ x ∈ d.children b ∨ b ≠ d.root ∧ x = d.parent b := by
  refine or_congr_right ⟨fun member => ⟨?_, (tree.parent_child member).symm⟩, ?_⟩
  · rintro rfl
    exact tree.child_ne member (tree.parent_root.symm.trans (tree.parent_child member))
  · rintro ⟨other, rfl⟩
    exact tree.mem_children_parent inside other

/-- A bag other than the root is a leaf when no two bags are beside it. -/
theorem IsTree.children_eq_nil_iff (tree : d.IsTree) (inside : b < d.size) (other : b ≠ d.root) :
    d.children b = [] ↔ ∀ x y, d.Beside b x → d.Beside b y → x = y := by
  simp only [tree.beside_iff inside, ne_eq, other, not_false_eq_true, true_and]
  constructor
  · intro none x y
    simp only [none, List.not_mem_nil, false_or]
    rintro rfl rfl
    rfl
  · intro last
    refine List.eq_nil_iff_forall_not_mem.2 fun child member => ?_
    obtain rfl := last child (d.parent b) (Or.inl member) (Or.inr rfl)
    exact tree.not_below_child member (Below.parent d b)

/-- A move of the root turns links round but makes none and does away with none. -/
theorem IsTree.beside_reroot (tree : d.IsTree) (inside : b < d.size) :
    (d.reroot b).Beside x y ↔ d.Beside x y := by
  have turned : ∀ x y, y ∈ (d.reroot b).children x → d.Beside x y := by
    intro x y member
    rcases (mem_children_reroot tree inside x y).1 member with ⟨kept, _⟩ | ⟨above, other, rfl⟩
    · exact Or.inl kept
    · exact Or.inr (tree.mem_children_parent (tree.lt_of_below inside above) other)
  have kept : ∀ x y, y ∈ d.children x → (d.reroot b).Beside x y := by
    intro x y member
    by_cases on : d.Below b y
    · refine Or.inr ((mem_children_reroot tree inside y x).2 (Or.inr ⟨on, ?_, ?_⟩))
      · rintro rfl
        exact tree.child_ne member (tree.parent_root.symm.trans (tree.parent_child member))
      · exact (tree.parent_child member).symm
    · exact Or.inl ((mem_children_reroot tree inside x y).2 (Or.inl ⟨member, on⟩))
  constructor
  · exact fun beside => beside.elim (turned x y) fun member => (turned y x member).symm
  · exact fun beside => beside.elim (kept x y) fun member => (kept y x member).symm

/-- The new root is beside its home alone. -/
theorem IsTree.beside_withRootBag (tree : d.IsTree) (inside : b < d.size) (other : b ≠ d.home gate) :
    (d.withRootBag gate).Beside b x ↔ d.Beside b x := by
  have inserts := tree.inserts_home gate
  have outside := tree.children_of_le (Nat.le_refl d.size)
  have new : d.size < (d.addBag (d.home gate) (.singleton gate)).size := by
    rw [inserts.size]
    exact Nat.lt_succ_self _
  have here : b ≠ d.size := Nat.ne_of_lt inside
  rw [Decomposition.withRootBag, inserts.isTree.beside_reroot new]
  unfold Beside
  rw [inserts.children, inserts.children, if_neg here, if_neg other]
  by_cases last : x = d.size
  · simp [last, outside]
  · by_cases home : x = d.home gate
    · simp [home, Nat.ne_of_lt (tree.home_spec gate).1, here]
    · simp [last, home]

/-- The empty leaves of the friendly decomposition for a gate in a bag are the empty ends from before. -/
theorem IsTree.emptyLeaf_friendly_iff (tree : d.IsTree) (held : ∃ b, gate ∈ d.bag b) :
    (d.friendly gate).EmptyLeaf x ↔ d.EmptyEnd x := by
  have rooted := tree.withRootBag gate
  have full : gate ∈ d.bag (d.home gate) := (tree.home_spec gate).2 held
  rw [tree.emptyLeaf_friendly]
  by_cases inside : x < d.size
  · have bag : (d.withRootBag gate).bag x = d.bag x := by
      rw [bag_withRootBag, if_neg (Nat.ne_of_lt inside)]
    have small : x < (d.withRootBag gate).size := by
      rw [size_withRootBag]
      exact inside.trans (Nat.lt_succ_self _)
    have not_home : d.bag x = ∅ → x ≠ d.home gate := by
      rintro empty rfl
      rw [empty] at full
      exact GateSet.not_mem_emptyCollection full
    have leaf := rooted.children_eq_nil_iff small (b := x) (by
      rw [root_withRootBag]
      exact Nat.ne_of_lt inside)
    constructor
    · rintro ⟨_, childless, empty⟩
      rw [bag] at empty
      simp only [leaf, tree.beside_withRootBag inside (not_home empty)] at childless
      exact ⟨inside, empty, childless⟩
    · rintro ⟨_, empty, last⟩
      simp only [← tree.beside_withRootBag inside (not_home empty), ← leaf] at last
      exact ⟨small, last, bag.trans empty⟩
  · refine iff_of_false (fun leaf => ?_) fun end_ => inside end_.inside
    have bound := leaf.inside
    rw [size_withRootBag] at bound
    have empty := leaf.empty
    rw [bag_withRootBag, if_pos (by omega)] at empty
    exact absurd (congrArg GateSet.size empty) (Nat.succ_ne_zero 0)

end Decomposition

/-! ## Compilation -/

namespace Compilation

open Provenance.Circuit Provenance.Decomposition Provenance.Network

variable {α : Type} [Scalar α] {c : Circuit α} {root : Nat} {tree : Decomposition}

/-- A circuit is compiled along any decomposition of it.  The root of the result has in each world the value
of the gate when no end of the tree is empty, and is false in each world when one is. -/
theorem Spanned.evaluate_alongTree (spanned : Spanned c root tree) :
    ∃ (d : DDnnf α) (number : Nat → Nat), DDnnf.alongTree c root tree = .ok d ∧
      SameInputs c d.circuit number ∧
      ∀ world world', (∀ input, c.kind input = .input → world' (number input) = world input) →
        ∃ value, c.evaluate root world = .ok value ∧
          ((∀ b, ¬ tree.EmptyEnd b) → d.circuit.evaluate d.root world' = .ok value) ∧
          ∀ b, tree.EmptyEnd b → d.circuit.evaluate d.root world' = .ok false := by
  obtain ⟨target, top, number, compiled, sound, small, same, _, value, starved⟩ :=
    spanned.exists_compiled
  have leaf := fun {x} => spanned.decomposes.tree.emptyLeaf_friendly_iff (x := x)
    (spanned.held root spanned.root_lt)
  simp only [leaf] at value starved
  have source := spanned.isFormula
  refine ⟨_, number, compiled, same, fun world world' agree => ⟨_, source.evaluate world, ?_⟩⟩
  show (_ → target.evaluate top world' = _) ∧ ∀ b, _ → target.evaluate top world' = _
  rw [(sound.isFormula small).evaluate]
  refine ⟨fun filled => ?_, fun b end_ => by rw [starved b end_]⟩
  rw [value filled]
  exact congrArg Except.ok (value_congr source fun input reads => agree input reads.2)

/-- A circuit is compiled along any decomposition of it that is read from a text.  The root of the result has
in each world the value of the gate when each empty bag has several bags beside it; when one has not, the
root is false in each world. -/
theorem alongTree_ofText {text : String} (inStep : c.InStep) (acyclic : c.Acyclic)
    (evaluable : ∀ gate < c.size, c.Evaluable gate) (root_lt : root < c.size)
    (read : Decomposition.ofText text = .ok tree) (held : ∀ gate < c.size, ∃ b, gate ∈ tree.bag b)
    (covers : ∀ gate child, child ∈ c.children gate → ∃ b, gate ∈ tree.bag b ∧ child ∈ tree.bag b)
    (connected : ∀ gate, tree.Connected gate) (lt_of_mem : ∀ b, ∀ gate ∈ tree.bag b, gate < c.size) :
    ∃ (d : DDnnf α) (number : Nat → Nat), DDnnf.alongTree c root tree = .ok d ∧
      SameInputs c d.circuit number ∧
      ∀ world world', (∀ input, c.kind input = .input → world' (number input) = world input) →
        ∃ value, c.evaluate root world = .ok value ∧
          ((∀ b, ¬ tree.EmptyEnd b) → d.circuit.evaluate d.root world' = .ok value) ∧
          ∀ b, tree.EmptyEnd b → d.circuit.evaluate d.root world' = .ok false :=
  Spanned.evaluate_alongTree
    { inStep, acyclic, evaluable, root_lt, lt_of_mem, held
      decomposes := ⟨(storable_ofText read).tree, covers, connected⟩ }

/-! ## Inputs with an empty bag -/

/-- Inputs without wires. -/
def freeInputs : (count : Nat) → Circuit Rat
  | 0 => Circuit.empty
  | count + 1 => ((freeInputs count).addGate .input).2

theorem size_freeInputs (count : Nat) : (freeInputs count).size = count := by
  induction count with
  | zero => rfl
  | succ count ih => rw [freeInputs, Circuit.size_addGate, ih]

theorem inStep_freeInputs (count : Nat) : (freeInputs count).InStep := by
  induction count with
  | zero => exact inStep_empty
  | succ count ih => exact ih.addGate .input

theorem children_freeInputs (count gate : Nat) : (freeInputs count).children gate = [] := by
  induction count with
  | zero => exact children_eq_nil_of_le (Nat.zero_le gate)
  | succ count ih => rw [freeInputs, children_addGate, ih]

theorem kind_freeInputs {count gate : Nat} (inside : gate < count) :
    (freeInputs count).kind gate = .input := by
  induction count with
  | zero => exact absurd inside (Nat.not_lt_zero gate)
  | succ count ih =>
    rw [freeInputs, kind_addGate, size_freeInputs]
    split
    · rfl
    · exact ih (by omega)

theorem acyclic_freeInputs (count : Nat) : (freeInputs count).Acyclic :=
  acyclic_of_lt fun gate child wire => by simp [children_freeInputs] at wire

theorem evaluable_freeInputs (count : Nat) :
    ∀ gate < (freeInputs count).size, (freeInputs count).Evaluable gate := by
  intro gate inside
  rw [size_freeInputs] at inside
  rw [Evaluable, kind_freeInputs inside]
  trivial

/-- A gate that is in one bag only has its bags connected. -/
theorem connected_of_unique {d : Decomposition} {gate home : Nat} (only : ∀ b, gate ∈ d.bag b → b = home) :
    d.Connected gate :=
  connected_of_hub home fun b member => by rw [only b member]

/-- The bags of two inputs with an empty bag between them. -/
def separated : Decomposition := ofParents [.singleton 0, ∅, .singleton 1] [0, 0, 1] 0 0

theorem ofText_separated :
    Decomposition.ofText "0\n3\n0 1 0 0 1 1\n1 0 0 1 2\n2 1 1 1 0\n" = .ok separated := by
  decide +kernel

/-- The empty bag has a bag on either side, so the root keeps its value. -/
theorem alongTree_separated : ∃ (d : DDnnf Rat) (number : Nat → Nat),
    separated.bag 1 = ∅ ∧ (∀ b, ¬ separated.EmptyEnd b) ∧
      DDnnf.alongTree (freeInputs 2) 0 separated = .ok d ∧
      ∀ world, ∃ value, (freeInputs 2).evaluate 0 (fun input => world (number input)) = .ok value ∧
        d.circuit.evaluate d.root world = .ok value := by
  have bags : ∀ b < 3, ∀ gate ∈ separated.bag b, gate < 2 ∧ b = 2 * gate := by decide
  have bags : ∀ b, ∀ gate ∈ separated.bag b, gate < 2 ∧ b = 2 * gate :=
    fun b gate member => bags b (lt_of_mem_bag member) gate member
  have held : ∀ gate < 2, gate ∈ separated.bag (2 * gate) := by decide
  have between : ∀ b, ¬ separated.EmptyEnd b := by
    rintro b ⟨inside, empty, last⟩
    have inside : b < 3 := inside
    obtain rfl | rfl | rfl : b = 0 ∨ b = 1 ∨ b = 2 := by omega
    · exact absurd empty (by decide)
    · exact absurd (last 0 2 (Or.inr (by decide)) (Or.inl (by decide))) (by decide)
    · exact absurd empty (by decide)
  have root_lt : 0 < (freeInputs 2).size := by decide
  obtain ⟨d, number, compiled, _, values⟩ := alongTree_ofText (inStep_freeInputs 2)
    (acyclic_freeInputs 2) (evaluable_freeInputs 2) root_lt ofText_separated
    (fun gate small => ⟨_, held gate small⟩)
    (fun gate child wire => by simp [children_freeInputs] at wire)
    (fun gate => connected_of_unique fun b member => (bags b gate member).2)
    fun b gate member => (bags b gate member).1
  refine ⟨d, number, rfl, between, compiled, fun world => ?_⟩
  obtain ⟨value, source, result, _⟩ := values (fun input => world (number input)) world fun _ _ => rfl
  exact ⟨value, source, result between⟩

/-- The bag of an input and an empty bag below it. -/
def trailed : Decomposition := ofParents [.singleton 0, ∅] [0, 0] 0 0

theorem ofText_trailed : Decomposition.ofText "0\n2\n0 1 0 0 1 1\n1 0 0 0\n" = .ok trailed := by
  decide +kernel

/-- The empty bag is at the end, and what is compiled is false in the world in which the input is true. -/
theorem alongTree_trailed :
    Decomposition.ofText "0\n2\n0 1 0 0 1 1\n1 0 0 0\n" = .ok trailed ∧
      Spanned (freeInputs 1) 0 trailed ∧
      ∃ (d : DDnnf Rat) (number : Nat → Nat), DDnnf.alongTree (freeInputs 1) 0 trailed = .ok d ∧
        SameInputs (freeInputs 1) d.circuit number ∧
        (freeInputs 1).evaluate 0 (fun _ => true) = .ok true ∧
        d.circuit.evaluate d.root (fun _ => true) = .ok false := by
  have bags : ∀ b < 2, ∀ gate ∈ trailed.bag b, gate < 1 ∧ b = 0 := by decide
  have bags : ∀ b, ∀ gate ∈ trailed.bag b, gate < 1 ∧ b = 0 :=
    fun b gate member => bags b (lt_of_mem_bag member) gate member
  have spanned : Spanned (freeInputs 1) 0 trailed :=
    { inStep := inStep_freeInputs 1
      acyclic := acyclic_freeInputs 1
      evaluable := evaluable_freeInputs 1
      root_lt := by decide
      decomposes := ⟨(storable_ofText ofText_trailed).tree,
        fun gate child wire => by simp [children_freeInputs] at wire,
        fun gate => connected_of_unique fun b member => (bags b gate member).2⟩
      lt_of_mem := fun b gate member => (bags b gate member).1
      held := fun gate small => ⟨0, by
        obtain rfl : gate = 0 := Nat.lt_one_iff.1 small
        decide⟩ }
  have tree := spanned.decomposes.tree
  have end_ : trailed.EmptyEnd 1 :=
    ⟨by decide, rfl, (tree.children_eq_nil_iff (by decide) (by decide)).1 rfl⟩
  obtain ⟨d, number, compiled, same, values⟩ := spanned.evaluate_alongTree
  obtain ⟨_, _, _, false_⟩ := values (fun _ => true) (fun _ => true) fun _ _ => rfl
  exact ⟨ofText_trailed, spanned, d, number, compiled, same, by decide +kernel, false_ 1 end_⟩

end Compilation

end Provenance
