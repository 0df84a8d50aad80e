import Mathlib.Algebra.Order.BigOperators.Group.Finset
import Provenance.Proofs.Decomposition.Spread

/-!
# One gate in each leaf

A cut makes two leaves of one and adds two bags.  The number of bags that there are when all leaves are
cut is known before and stays the same (`IsTree.cutSize_cutLeaf`), so the pass meets the leaves that it
adds, and each leaf holds one gate when it is over or was empty before (`IsTree.cutLeaf_all`).
-/

namespace Provenance.Decomposition

variable {d : Decomposition} {b : Nat}

/-! ## One cut -/

/-- Cutting a leaf puts its last gate in one new leaf and the others in another. -/
theorem IsTree.cutLeaf_spec (tree : d.IsTree) (inside : b < d.size) :
    (d.cutLeaf b = d ∧ (d.children b = [] → (d.bag b).size ≤ 1)) ∨
      (d.children b = [] ∧ 1 < (d.bag b).size ∧ Grows d (d.cutLeaf b) ∧
        (d.cutLeaf b).size = d.size + 2 ∧
        (∀ x, (d.cutLeaf b).children x =
          if x = b then [d.size, d.size + 1] else d.children x) ∧
        ((d.cutLeaf b).bag d.size).size + 1 = (d.bag b).size ∧
        ((d.cutLeaf b).bag (d.size + 1)).size = 1) := by
  unfold cutLeaf
  simp only
  split
  · rename_i last childless found
    have childless : d.children b = [] := List.isEmpty_iff.1 childless
    have member : last ∈ d.bag b := GateSet.mem_of_last? found
    split
    · rename_i several
      have first := tree.inserts_addBag inside ((d.bag b).erase last)
      have grows := first.grows (fun gate held => (GateSet.mem_erase.1 held).1)
        fun _ _ _ listed => absurd listed List.not_mem_nil
      have second := first.isTree.inserts_addBag (b := b) (by rw [first.size]; omega)
        (GateSet.singleton last)
      have outside := tree.children_of_le (Nat.le_refl d.size)
      have beyond := tree.children_of_le (Nat.le_succ d.size)
      refine Or.inr ⟨childless, several, grows.trans (second.grows ?_ ?_), ?_, fun x => ?_, ?_, ?_⟩
      · intro gate held
        rw [GateSet.mem_singleton.1 held, first.bag, if_neg (Nat.ne_of_lt inside)]
        exact member
      · exact fun _ _ _ listed => absurd listed List.not_mem_nil
      · rw [second.size, first.size]
      · rw [second.children, first.children, first.children, first.size]
        have apart : b ≠ d.size + 1 := by omega
        by_cases here : x = b
        · subst here
          simp [Nat.ne_of_lt inside, apart, childless]
        · by_cases last : x = d.size
          · subst last
            simp [here, outside]
          · by_cases next : x = d.size + 1
            · subst next
              simp [here, beyond]
            · simp [here, last, next]
      · rw [second.bag, first.size, if_neg (Nat.ne_of_lt (Nat.lt_succ_self _)), first.bag, if_pos rfl]
        exact GateSet.size_erase member
      · rw [second.bag, first.size, if_pos rfl, GateSet.size_singleton]
    · rename_i few
      exact Or.inl ⟨rfl, fun _ => Nat.le_of_not_lt few⟩
  · rename_i kept
    refine Or.inl ⟨rfl, fun childless => ?_⟩
    have none : (d.bag b).last? = none := by
      cases found : (d.bag b).last? with
      | none => rfl
      | some last => exact absurd found (kept last (by simp [childless]))
    have empty : (d.bag b).toList = [] := List.getLast?_eq_none_iff.1 none
    rw [GateSet.size, empty]
    exact Nat.zero_le _

/-- A cut keeps the empty leaves. -/
theorem IsTree.emptyLeaf_cutLeaf (tree : d.IsTree) (inside : b < d.size) (x : Nat) :
    (d.cutLeaf b).EmptyLeaf x ↔ d.EmptyLeaf x := by
  rcases tree.cutLeaf_spec inside with ⟨same, _⟩ | ⟨_, several, grows, size, children, rest, last⟩
  · rw [same]
  · refine grows.emptyLeaf_iff (fun x _ empty => ?_) (fun x bound new _ empty => ?_) x
    · have other : x ≠ b := by
        rintro rfl
        rw [empty] at several
        exact absurd several (by decide)
      rw [children, if_neg other]
    · obtain rfl | rfl : x = d.size ∨ x = d.size + 1 := by omega
      · rw [empty] at rest
        have : (∅ : GateSet).size = 0 := rfl
        omega
      · rw [empty] at last
        exact absurd last (by decide)

/-! ## The number of bags -/

/-- The number of bags after all leaves are cut. -/
def cutSize (d : Decomposition) : Nat :=
  d.size + ∑ x ∈ Finset.range d.size,
    if d.children x = [] then 2 * ((d.bag x).size - 1) else 0

/-- A cut brings the number of bags nearer to the final one, which it does not change. -/
theorem IsTree.cutSize_cutLeaf (tree : d.IsTree) (inside : b < d.size) :
    (d.cutLeaf b).cutSize = d.cutSize := by
  rcases tree.cutLeaf_spec inside with ⟨same, _⟩ |
    ⟨childless, several, grows, size, children, rest, last⟩
  · rw [same]
  · have outside : d.children d.size = [] := by
      refine List.eq_nil_iff_forall_not_mem.2 fun child listed => ?_
      exact Nat.lt_irrefl _ (tree.lt_of_child listed)
    have beyond : d.children (d.size + 1) = [] := by
      refine List.eq_nil_iff_forall_not_mem.2 fun child listed => ?_
      have := tree.lt_of_child listed
      omega
    have others : ∑ x ∈ (Finset.range d.size).erase b,
          (if (d.cutLeaf b).children x = [] then 2 * (((d.cutLeaf b).bag x).size - 1) else 0) =
        ∑ x ∈ (Finset.range d.size).erase b,
          if d.children x = [] then 2 * ((d.bag x).size - 1) else 0 := by
      refine Finset.sum_congr rfl fun x member => ?_
      obtain ⟨other, small⟩ := Finset.mem_erase.1 member
      rw [children, if_neg other, grows.bag x (Finset.mem_range.1 small)]
    have member : b ∈ Finset.range d.size := Finset.mem_range.2 inside
    have apart : d.size ≠ b := Nat.ne_of_gt inside
    have apart' : d.size + 1 ≠ b := by omega
    unfold cutSize
    rw [size, Finset.sum_range_succ, Finset.sum_range_succ, ← Finset.add_sum_erase _ _ member,
      ← Finset.add_sum_erase _ _ member, others, children, children, children, if_pos rfl,
      if_neg apart, if_neg apart', if_pos outside, if_pos beyond, if_pos childless, last]
    simp only [List.cons_ne_nil, if_false]
    omega

/-- The pass goes on long enough for all bags that it adds. -/
theorem cutSize_le_cutBound (d : Decomposition) : d.cutSize ≤ d.cutBound := by
  have bound : ∀ (bags : List GateSet) (start : Nat),
      bags.foldl (fun bound bag => bound + 2 * bag.size) start =
        start + ∑ x ∈ Finset.range bags.length, 2 * (bags.getD x ∅).size := by
    intro bags
    induction bags using List.reverseRecOn with
    | nil => simp
    | append_singleton bags last ih =>
      intro start
      rw [List.foldl_append, ih, List.length_append, List.length_singleton, Finset.sum_range_succ]
      have earlier : ∑ x ∈ Finset.range bags.length, 2 * ((bags ++ [last]).getD x ∅).size =
          ∑ x ∈ Finset.range bags.length, 2 * (bags.getD x ∅).size := by
        refine Finset.sum_congr rfl fun x member => ?_
        rw [List.getD_eq_getElem?_getD, List.getElem?_append_left (Finset.mem_range.1 member),
          ← List.getD_eq_getElem?_getD]
      rw [earlier]
      simp [Nat.add_assoc]
  have cutBound : d.cutBound = d.size + ∑ x ∈ Finset.range d.size, 2 * (d.bag x).size := by
    rw [Decomposition.cutBound, ← Array.foldl_toList, bound]
    refine congrArg _ (Finset.sum_congr (by simp [size]) fun x _ => ?_)
    simp [bag, Array.getD_eq_getD_getElem?, List.getD_eq_getElem?_getD]
  rw [cutBound, cutSize]
  refine Nat.add_le_add_left (Finset.sum_le_sum fun x _ => ?_) _
  split <;> omega

/-! ## All cuts -/

/-- Cutting at a bag that is not there does nothing. -/
theorem cutLeaf_of_le (outside : d.size ≤ b) : d.cutLeaf b = d := by
  have empty : d.bag b = ∅ :=
    GateSet.ext fun gate => ⟨fun member => absurd (lt_of_mem_bag member) (Nat.not_lt.2 outside),
      fun member => absurd member GateSet.not_mem_emptyCollection⟩
  have none : (d.bag b).last? = none := by
    rw [empty]
    rfl
  simp [cutLeaf, none]

/-- What holds when the pass has met some of the bags. -/
structure Cutting (d : Decomposition) (count : Nat) (d' : Decomposition) : Prop where
  grows : Grows d d'
  cutSize : d'.cutSize = d.cutSize
  few : ∀ x < d'.size, (d'.children x).length ≤ arityLimit
  empty : ∀ x, d'.EmptyLeaf x ↔ d.EmptyLeaf x
  single : ∀ x < d'.size, x < count → d'.children x = [] → (d'.bag x).size ≤ 1

/-- The pass makes one more leaf hold one gate. -/
theorem Cutting.step {count : Nat} {d' : Decomposition} (cutting : Cutting d count d') :
    Cutting d (count + 1) (d'.cutLeaf count) := by
  by_cases inside : count < d'.size
  · have cutSize := cutting.grows.tree.cutSize_cutLeaf inside
    rcases cutting.grows.tree.cutLeaf_spec inside with ⟨same, here⟩ |
      ⟨childless, several, more, larger, children, rest, last⟩
    · rw [same]
      refine { cutting with single := fun x bound earlier none => ?_ }
      by_cases this : x = count
      · subst this
        exact here none
      · exact cutting.single x bound (by omega) none
    · have old : ∀ x < (d'.cutLeaf count).size, (d'.cutLeaf count).children x = [] →
          x = d'.size ∨ x = d'.size + 1 ∨ (x < d'.size ∧ x ≠ count ∧ d'.children x = [] ∧
            (d'.cutLeaf count).bag x = d'.bag x) := by
        intro x bound none
        rw [larger] at bound
        rw [children] at none
        by_cases this : x = count
        · rw [if_pos this] at none
          exact absurd none (List.cons_ne_nil _ _)
        · rw [if_neg this] at none
          by_cases small : x < d'.size
          · exact Or.inr (Or.inr ⟨small, this, none, more.bag x small⟩)
          · omega
      refine
        { grows := cutting.grows.trans more
          cutSize := cutSize.trans cutting.cutSize
          few := ?few
          empty := fun x => (cutting.grows.tree.emptyLeaf_cutLeaf inside x).trans (cutting.empty x)
          single := ?single }
      case few =>
        intro x bound
        rw [children]
        split
        · exact Nat.le_refl _
        · by_cases small : x < d'.size
          · exact cutting.few x small
          · rw [cutting.grows.tree.children_of_le (Nat.le_of_not_lt small)]
            exact Nat.zero_le _
      case single =>
        intro x bound earlier none
        rcases old x bound none with rfl | rfl | ⟨small, other, leaf, same⟩
        · omega
        · omega
        · rw [same]
          exact cutting.single x small (by omega) leaf
  · rw [cutLeaf_of_le (Nat.le_of_not_lt inside)]
    refine { cutting with single := fun x bound _ => ?_ }
    exact cutting.single x bound (by omega)

theorem IsTree.cutting (tree : d.IsTree) (few : ∀ x < d.size, (d.children x).length ≤ arityLimit) :
    Cutting d d.cutBound ((List.range d.cutBound).foldl cutLeaf d) := by
  have start : Cutting d 0 d :=
    ⟨Grows.refl tree, rfl, few, fun _ => Iff.rfl, fun x _ none => absurd none (Nat.not_lt_zero x)⟩
  exact foldl_range_induction (Cutting d) start fun _ _ _ cutting => cutting.step

/-- After the pass no leaf holds more than one gate and no bag has got more than two children; the empty
leaves are those from before. -/
theorem IsTree.cutLeaf_all (tree : d.IsTree)
    (few : ∀ x < d.size, (d.children x).length ≤ arityLimit) :
    let d' := (List.range d.cutBound).foldl cutLeaf d
    Grows d d' ∧ (∀ x < d'.size, (d'.children x).length ≤ arityLimit) ∧
      (∀ x < d'.size, d'.children x = [] → (d'.bag x).size ≤ 1) ∧
      ∀ x, d'.EmptyLeaf x ↔ d.EmptyLeaf x := by
  intro d'
  have cut : Cutting d d.cutBound d' := tree.cutting few
  refine ⟨cut.grows, cut.few, fun x bound none => ?_, cut.empty⟩
  -- the pass has met all bags, those that it added among them
  have enough : d'.size ≤ d.cutBound := by
    have reached := d.cutSize_le_cutBound
    have counted : d'.size ≤ d'.cutSize := Nat.le_add_right _ _
    have same := cut.cutSize
    omega
  exact cut.single x bound (by omega) none

end Provenance.Decomposition
