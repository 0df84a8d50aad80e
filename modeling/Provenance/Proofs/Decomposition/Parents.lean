import Provenance.Proofs.Decomposition.Tree

/-!
# Trees given by their parents

The lists of children made from a list of parents hold for each bag the other bags whose parent it
is, once each and by increasing index (`children_ofParents`).  Parents that come behind their
children in the table lead to the root and make a tree (`isTree_ofParents`).
-/

namespace Provenance.Decomposition

/-- Each pair of a parent and a bag adds the bag to the children of the parent. -/
theorem getElem?_foldr_links (pairs : List (Nat × Nat)) (links : Array (List Nat)) (b : Nat) :
    (pairs.foldr (fun (parent, bag) links =>
        if parent = bag then links else links.modify parent (bag :: ·)) links)[b]? =
      links[b]?.map fun children =>
        (pairs.filter fun (parent, bag) => parent = b ∧ bag ≠ b).map Prod.snd ++ children := by
  induction pairs with
  | nil => simp
  | cons pair pairs ih =>
    obtain ⟨parent, bag⟩ := pair
    simp only [List.foldr_cons]
    by_cases own : parent = bag
    · have skipped : ¬ (parent = b ∧ bag ≠ b) := by omega
      simp only [if_pos own, ih, List.filter_cons, decide_eq_true_eq, if_neg skipped]
    · rw [if_neg own, Array.getElem?_modify, ih]
      by_cases same : parent = b
      · have added : parent = b ∧ bag ≠ b := ⟨same, by omega⟩
        simp only [if_pos same, List.filter_cons, decide_eq_true_eq, if_pos added]
        cases links[b]? <;> simp
      · have skipped : ¬ (parent = b ∧ bag ≠ b) := fun both => same both.1
        simp only [if_neg same, List.filter_cons, decide_eq_true_eq, if_neg skipped]

theorem size_foldr_links (pairs : List (Nat × Nat)) (links : Array (List Nat)) :
    (pairs.foldr (fun (parent, bag) links =>
      if parent = bag then links else links.modify parent (bag :: ·)) links).size = links.size := by
  induction pairs with
  | nil => rfl
  | cons pair pairs ih =>
    obtain ⟨parent, bag⟩ := pair
    simp only [List.foldr_cons]
    split
    · exact ih
    · rw [Array.size_modify, ih]

theorem size_linksOf (parents : List Nat) : (linksOf parents).size = parents.length := by
  rw [linksOf, size_foldr_links, Array.size_replicate]

section OfParents

variable (bags : List GateSet) (parents : List Nat) (root width : Nat)

@[simp] theorem size_ofParents : (ofParents bags parents root width).size = bags.length := by
  simp [ofParents, size]

@[simp] theorem root_ofParents : (ofParents bags parents root width).root = root := rfl

theorem bag_ofParents (b : Nat) : (ofParents bags parents root width).bag b = bags.getD b ∅ := by
  simp [ofParents, bag, Array.getD_eq_getD_getElem?, List.getD_eq_getElem?_getD]

theorem parent_ofParents (b : Nat) :
    (ofParents bags parents root width).parent b = parents.getD b b := by
  simp [ofParents, parent, Array.getD_eq_getD_getElem?, List.getD_eq_getElem?_getD]

/-- The children of a bag are the other bags whose parent it is, by increasing index. -/
theorem children_ofParents {b : Nat} (inside : b < parents.length) :
    (ofParents bags parents root width).children b =
      (List.range parents.length).filter fun child => parents[child]? = some b ∧ child ≠ b := by
  have links : (linksOf parents)[b]? =
      some ((parents.zipIdx.filter fun (parent, bag) => parent = b ∧ bag ≠ b).map Prod.snd) := by
    rw [linksOf, getElem?_foldr_links]
    simp [inside]
  show (linksOf parents).getD b [] = _
  rw [Array.getD_eq_getD_getElem?, links, Option.getD_some]
  have indices : List.range parents.length = parents.zipIdx.map Prod.snd := by
    rw [List.zipIdx_map_snd, List.range_eq_range']
  rw [indices, List.filter_map]
  refine congrArg _ (List.filter_congr fun pair member => ?_)
  obtain ⟨parent, bag⟩ := pair
  have found := List.mem_zipIdx_iff_getElem?.1 member
  simp [found]

theorem children_ofParents_of_le {b : Nat} (outside : parents.length ≤ b) :
    (ofParents bags parents root width).children b = [] := by
  show (linksOf parents).getD b [] = []
  rw [Array.getD_eq_getD_getElem?, Array.getElem?_eq_none (size_linksOf parents ▸ outside)]
  rfl

/-- Parents that lead to the root make a tree. -/
theorem isTree_ofParents_of_below (length : parents.length = bags.length) (inside : root < bags.length)
    (parent_root : parents.getD root root = root) (bound : ∀ b < bags.length, parents.getD b b < bags.length)
    (below : ∀ b < bags.length, (ofParents bags parents root width).Below b root) :
    (ofParents bags parents root width).IsTree := by
  refine IsTree.of_below_root ?_ ?_ ?_ ?_ ?_ ?_ ?_ ?_
  · simp [ofParents, size, length]
  · rw [size_ofParents, ← length]
    exact size_linksOf parents
  · rwa [size_ofParents, root_ofParents]
  · rw [root_ofParents, parent_ofParents, parent_root]
  · intro b small
    rw [size_ofParents] at small ⊢
    rw [parent_ofParents]
    exact bound b small
  · intro b child
    rw [size_ofParents, parent_ofParents, ← length]
    by_cases small : b < parents.length
    · rw [children_ofParents _ _ _ _ small]
      simp only [List.mem_filter, List.mem_range, decide_eq_true_eq, List.getD_eq_getElem?_getD]
      refine and_congr_right fun child_lt => ?_
      rw [List.getElem?_eq_getElem child_lt, Option.getD_some, Option.some.injEq]
      tauto
    · rw [children_ofParents_of_le _ _ _ _ (Nat.le_of_not_lt small)]
      refine ⟨fun member => absurd member List.not_mem_nil, fun below => ?_⟩
      obtain ⟨child_lt, _, parent⟩ := below
      have := bound child (length ▸ child_lt)
      omega
  · intro b
    by_cases small : b < parents.length
    · rw [children_ofParents _ _ _ _ small]
      exact List.nodup_range.filter _
    · rw [children_ofParents_of_le _ _ _ _ (Nat.le_of_not_lt small)]
      exact List.nodup_nil
  · intro b small
    rw [size_ofParents] at small
    exact below b small

/-- Parents of higher index than their children lead to the last bag and make a tree. -/
theorem isTree_ofParents (length : parents.length = bags.length) (inside : root < bags.length)
    (parent_root : parents.getD root root = root)
    (higher : ∀ b < bags.length, b ≠ root →
      b < parents.getD b b ∧ parents.getD b b < bags.length) :
    (ofParents bags parents root width).IsTree := by
  refine isTree_ofParents_of_below _ _ _ _ length inside parent_root (fun b small => ?bound) ?below
  case bound =>
    by_cases same : b = root
    · rw [same, parent_root]
      exact inside
    · exact (higher b small same).2
  case below =>
    -- the distance to the end of the table shrinks from parent to parent
    suffices ∀ distance b, bags.length - b ≤ distance → b < bags.length →
        (ofParents bags parents root width).Below b root from fun b small => this _ b (Nat.le_refl _) small
    intro distance
    induction distance with
    | zero =>
      intro b near small
      omega
    | succ distance ih =>
      intro b near small
      by_cases same : b = root
      · rw [same]
      · have := higher b small same
        refine Below.of_parent ?_
        rw [parent_ofParents]
        exact ih _ (by omega) (by omega)

end OfParents

end Provenance.Decomposition
