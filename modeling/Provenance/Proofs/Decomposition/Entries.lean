import Provenance.Proofs.Decomposition.Merge

/-!
# The entries of all bags

A bag with its children's subtrees is joined as a merge asks for: the subtrees have no bags in common
and share gates of the bag only, because the bags of a gate are connected (`Ready.joins_two`,
`Ready.joins_one`).  So the entries of each bag list what fits the subtree below it, from the leaves up.
An empty leaf has no entry, so no bag above it has one (`Ready.entries_spec`).
-/

namespace Provenance.Compilation

open Provenance.Circuit Provenance.Decomposition

variable {α : Type} {k : Compilation α} {root b : Nat}

/-! ## The subtrees below a bag -/

/-- A bag with children is no leaf of an input. -/
theorem Ready.not_responsible (ready : k.Ready root) (some_child : k.tree.children b ≠ [])
    (input : Nat) : k.responsible[input]? ≠ some b :=
  fun found => some_child (ready.leaf input b found).2.2.1

/-- What is below a bag is the bag and what is below its children. -/
theorem Ready.mem_below_iff (ready : k.Ready root) (inside : b < k.tree.size) (x : Nat) :
    x ∈ (Part.below ready b).bags ↔
      x = b ∨ ∃ child ∈ k.tree.children b, x ∈ (Part.below ready child).bags := by
  have tree := ready.arranged.tree
  by_cases small : x < k.tree.size
  · exact tree.below_iff small
  · constructor
    · exact fun below => absurd (tree.lt_of_below_lt inside below) small
    · rintro (rfl | ⟨child, member, below⟩)
      · exact .refl x
      · exact absurd (tree.lt_of_below_lt (tree.child_lt member) below) small

theorem Ready.joins_two (ready : k.Ready root) (inside : b < k.tree.size) {left right : Nat}
    (children : k.tree.children b = [left, right]) :
    Joins b (Part.below ready left) (Part.below ready right) (Part.below ready b) := by
  have tree := ready.arranged.tree
  have left_mem : left ∈ k.tree.children b := by simp [children]
  have right_mem : right ∈ k.tree.children b := by simp [children]
  have apart : ∀ x, k.tree.Below x left → ¬ k.tree.Below x right := by
    intro x lower lower'
    have nodup := tree.nodup_children b
    rw [children] at nodup
    have same := tree.eq_of_below_children left_mem right_mem lower lower'
    simp [same] at nodup
  refine
    { mem_bags := fun x => ?_
      top := rfl
      covered := fun gate member => ?_
      not_left := tree.not_below_child left_mem
      not_right := tree.not_below_child right_mem
      apart := apart
      between := ?_
      no_leaf := ready.not_responsible (by simp [children]) }
  · rw [ready.mem_below_iff inside, children]
    simp
  · obtain ⟨child, listed, held⟩ := ready.arranged.covered b inside (by simp [children]) gate member
    rw [children] at listed
    rcases List.mem_cons.1 listed with rfl | listed
    · exact Or.inl held
    · obtain rfl := List.mem_singleton.1 listed
      exact Or.inr held
  · rintro gate ⟨x, lower, held⟩ ⟨y, lower', held'⟩
    have cross := (ready.decomposes.connected gate).crossing lower held
      (fun below => apart y below lower') held'
    rw [tree.parent_child left_mem] at cross
    exact cross.2

theorem Ready.joins_one (ready : k.Ready root) (inside : b < k.tree.size) {child : Nat}
    (children : k.tree.children b = [child]) :
    Joins b (Part.below ready child) (Part.none k) (Part.below ready b) := by
  have tree := ready.arranged.tree
  have member : child ∈ k.tree.children b := by simp [children]
  refine
    { mem_bags := fun x => ?_
      top := rfl
      covered := fun gate held => ?_
      not_left := tree.not_below_child member
      not_right := Set.notMem_empty b
      apart := fun x _ => Set.notMem_empty x
      between := ?_
      no_leaf := ready.not_responsible (by simp [children]) }
  · rw [ready.mem_below_iff inside, children]
    simp [Part.none]
  · obtain ⟨other, listed, shared⟩ := ready.arranged.covered b inside (by simp [children]) gate held
    rw [children, List.mem_singleton] at listed
    exact Or.inl (listed ▸ shared)
  · rintro gate _ ⟨x, nowhere, _⟩
    exact absurd nowhere (Set.notMem_empty x)

/-- The neutral entry lists what fits the part without bags, which is anything. -/
theorem Grown.lists_neutral {target : Circuit α} (grown : k.Grown target) :
    k.Lists target (Part.none k) [k.neutral] := by
  have fits : ∀ world s, (Part.none k).Fits world s := fun world s =>
    { inputs := fun _ leaf _ nowhere => absurd nowhere (Set.notMem_empty leaf)
      wires := fun b nowhere => absurd nowhere (Set.notMem_empty b)
      settled := fun _ ⟨b, nowhere, _⟩ => absurd nowhere (Set.notMem_empty b) }
  have describes : ∀ s, (Part.none k).Describes s k.neutral := fun s =>
    { values := fun gate => (if_neg GateSet.not_mem_emptyCollection).symm
      suspicious := fun gate =>
        iff_of_false GateSet.not_mem_emptyCollection fun there =>
          GateSet.not_mem_emptyCollection there.1 }
  refine ⟨fun e listed => ?_, List.pairwise_singleton _ _, fun world s _ =>
    ⟨k.neutral, List.mem_singleton.2 rfl, describes s⟩⟩
  obtain rfl := List.mem_singleton.1 listed
  exact
    { inside := grown.truth_lt
      proper := ⟨rfl, fun gate member => absurd member GateSet.not_mem_emptyCollection⟩
      value := fun world => iff_of_true (grown.value_truth world)
        ⟨fun _ => false, fits _ _, describes _⟩
      reads := fun input reads => absurd reads (grown.not_reads_truth input) }

/-! ## Empty leaves -/

/-- An empty leaf is below the bag. -/
def Starved (k : Compilation α) (b : Nat) : Prop := ∃ leaf, k.tree.EmptyLeaf leaf ∧ k.tree.Below leaf b

theorem Ready.starved_iff (ready : k.Ready root) (inside : b < k.tree.size) :
    k.Starved b ↔ k.tree.EmptyLeaf b ∨ ∃ child ∈ k.tree.children b, k.Starved child := by
  constructor
  · rintro ⟨leaf, empty, below⟩
    rcases (ready.mem_below_iff inside leaf).1 below with rfl | ⟨child, member, below⟩
    · exact Or.inl empty
    · exact Or.inr ⟨child, member, leaf, empty, below⟩
  · rintro (empty | ⟨child, member, leaf, empty, below⟩)
    · exact ⟨b, empty, .refl b⟩
    · exact ⟨leaf, empty, below.trans (ready.arranged.tree.below_child member)⟩

/-- An empty leaf has no entry. -/
theorem leaf_of_empty [Scalar α] (empty : k.tree.bag b = ∅) : k.leaf b = .ok [] := by
  rw [Compilation.leaf, empty]
  rfl

/-- Without entries on one side there is nothing to merge. -/
theorem merge_of_nil [Scalar α] {left right : List Entry} (none : left = [] ∨ right = [])
    (target : Circuit α) : k.merge b left right target = ([], target) := by
  unfold merge
  rcases none with rfl | rfl
  · rfl
  · simp only [List.filter_nil, List.foldl_nil]
    have same : ∀ (entries : List Entry) (state : Collected α),
        entries.foldl (fun state _ => state) state = state := by
      intro entries
      induction entries with
      | nil => exact fun _ => rfl
      | cons e entries ih => exact fun state => ih state
    rw [same]
    rfl

/-! ## From the leaves up -/

/-- The entries of a bag are found, and list what fits the subtree below it; there are none above an
empty leaf. -/
theorem Ready.entries_spec [Scalar α] (ready : k.Ready root) (depth : Nat) {target : Circuit α}
    (inside : b < k.tree.size) (deep : k.tree.weight b ≤ depth) (grown : k.Grown target) :
    ∃ entries target', k.entries depth b target = .ok (entries, target') ∧
      target.Extends target' ∧ k.Grown target' ∧
      (¬ k.Starved b ∧ k.Lists target' (Part.below ready b) entries ∨ k.Starved b ∧ entries = []) := by
  have tree := ready.arranged.tree
  induction depth generalizing b target with
  | zero =>
    have := IsTree.weight_pos inside
    omega
  | succ depth ih =>
    have below : ∀ child ∈ k.tree.children b, ∀ {target : Circuit α}, k.Grown target →
        ∃ entries target', k.entries depth child target = .ok (entries, target') ∧
          target.Extends target' ∧ k.Grown target' ∧
          (¬ k.Starved child ∧ k.Lists target' (Part.below ready child) entries ∨
            k.Starved child ∧ entries = []) := by
      intro child member target grown
      refine ih (tree.child_lt member) ?_ grown
      have := tree.weight_child_lt member
      omega
    have starved := ready.starved_iff inside
    have no_leaf : k.tree.children b ≠ [] → ¬ k.tree.EmptyLeaf b := fun some_child empty =>
      some_child empty.childless
    rw [entries]
    match children : k.tree.children b with
    | [] =>
      simp only [children, List.not_mem_nil, false_and, exists_false, or_false] at starved
      by_cases empty : k.tree.bag b = ∅
      · refine ⟨[], target, ?_, .refl target, grown, Or.inr ⟨starved.2 ⟨inside, children, empty⟩, rfl⟩⟩
        rw [leaf_of_empty empty]
        rfl
      · obtain ⟨entries, found, lists⟩ := ready.lists_leaf grown inside children empty
        exact ⟨entries, target, by simp [found, Except.map], .refl target, grown,
          Or.inl ⟨fun below => empty (starved.1 below).empty, lists⟩⟩
    | [child] =>
      obtain ⟨entries, middle, found, extends_, grown', lists⟩ :=
        below child (by simp [children]) grown
      simp only [children, no_leaf (by simp [children]), List.mem_singleton, exists_eq_left,
        false_or] at starved
      simp only [found, bind, Except.bind, starved]
      rcases lists with ⟨fed, lists⟩ | ⟨starves, rfl⟩
      · have merged := lists_merge ready (ready.joins_one inside children) grown' lists
          grown'.lists_neutral
        generalize k.merge b entries [k.neutral] middle = result at merged
        obtain ⟨entries, last⟩ := result
        exact ⟨entries, last, rfl, extends_.trans merged.1, merged.2.1, Or.inl ⟨fed, merged.2.2⟩⟩
      · exact ⟨[], middle, by rw [merge_of_nil (Or.inl rfl)], extends_, grown', Or.inr ⟨starves, rfl⟩⟩
    | [left, right] =>
      obtain ⟨second, middle, found, extends_, grown', lists⟩ :=
        below right (by simp [children]) grown
      obtain ⟨first, later, found', extends_', grown'', lists'⟩ :=
        below left (by simp [children]) grown'
      simp only [children, no_leaf (by simp [children]), List.mem_cons, List.not_mem_nil, or_false,
        exists_eq_or_imp, exists_eq_left, false_or] at starved
      simp only [found, found', bind, Except.bind, starved]
      rcases lists with ⟨fed, lists⟩ | ⟨starves, rfl⟩
      · rcases lists' with ⟨fed', lists'⟩ | ⟨starves', rfl⟩
        · have merged := lists_merge ready (ready.joins_two inside children) grown'' lists'
            (lists.of_extends grown'.sound extends_' grown''.sound)
          generalize k.merge b first second later = result at merged
          obtain ⟨entries, last⟩ := result
          exact ⟨entries, last, rfl, (extends_.trans extends_').trans merged.1, merged.2.1,
            Or.inl ⟨not_or.2 ⟨fed', fed⟩, merged.2.2⟩⟩
        · exact ⟨[], later, by rw [merge_of_nil (Or.inl rfl)], extends_.trans extends_', grown'',
            Or.inr ⟨Or.inl starves', rfl⟩⟩
      · exact ⟨[], later, by rw [merge_of_nil (Or.inr rfl)], extends_.trans extends_', grown'',
          Or.inr ⟨Or.inr starves, rfl⟩⟩
    | _ :: _ :: _ :: _ =>
      have arity := ready.arranged.arity b inside
      rw [children] at arity
      simp [arityLimit] at arity

end Provenance.Compilation
