import Provenance.Proofs.Decomposition.Tree

/-!
# Changes of a tree of bags

What the operations on the tables of a decomposition do to parents and children, and the change that all
passes are made of: a new bag is put below a bag and takes over some of its children (`Inserts`).  The
result is a tree again, and the bags of a gate stay connected when the new bag has only gates of the
bag above it and all the gates that this shares with the children taken over.  What a number of such
changes keep is collected in `Grows`.
-/

namespace Provenance.Decomposition

variable {d d' : Decomposition}

/-- The tables have one entry for each bag. -/
structure Even (d : Decomposition) : Prop where
  parents : d.parents.size = d.size
  links : d.links.size = d.size

theorem IsTree.even (tree : d.IsTree) : d.Even := ⟨tree.parents, tree.links⟩

/-! ## Parents and children after an operation -/

section Operations

variable {b : Nat} {gates : GateSet}

theorem Even.addBag (even : d.Even) (b : Nat) (gates : GateSet) : (d.addBag b gates).Even where
  parents := by
    rw [size_addBag, ← even.parents]
    exact Array.size_push ..
  links := by
    show ((d.links.push []).modify b (· ++ [d.size])).size = _
    rw [Array.size_modify, Array.size_push, size_addBag, even.links]

theorem Even.link (even : d.Even) (child b : Nat) : (d.link child b).Even where
  parents := by
    show (d.parents.setIfInBounds child b).size = _
    rw [Array.size_setIfInBounds, size_link, even.parents]
  links := by
    show (d.links.modify b (· ++ [child])).size = _
    rw [Array.size_modify, size_link, even.links]

@[simp] theorem size_clearChildren (d : Decomposition) (b : Nat) :
    (d.clearChildren b).size = d.size := rfl

theorem Even.clearChildren (even : d.Even) (b : Nat) : (d.clearChildren b).Even where
  parents := even.parents
  links := by
    show (d.links.setIfInBounds b []).size = _
    rw [Array.size_setIfInBounds, size_clearChildren, even.links]

/-- The parent of a new bag is the one that was asked for. -/
theorem Even.parent_addBag (even : d.Even) (x : Nat) :
    (d.addBag b gates).parent x = if x = d.size then b else d.parent x := by
  rw [← even.parents]
  exact Table.getD_push d.parents b x x

/-- A new bag becomes the last child and has no children. -/
theorem Even.children_addBag (even : d.Even) (inside : b < d.size) (x : Nat) :
    (d.addBag b gates).children x =
      if x = b then d.children b ++ [d.size] else if x = d.size then [] else d.children x := by
  have there : b < (d.links.push []).size := by
    rw [Array.size_push, even.links]
    exact Nat.lt_succ_of_lt inside
  show ((d.links.push []).modify b (· ++ [d.size])).getD x [] = _
  rw [Table.getD_modify there, Table.getD_push_fallback, Table.getD_push, even.links]
  rfl

theorem Even.parent_link (even : d.Even) {child : Nat} (inside : child < d.size) (x : Nat) :
    (d.link child b).parent x = if x = child then b else d.parent x :=
  Table.getD_set (even.parents ▸ inside) b x x

theorem Even.children_link (even : d.Even) {child : Nat} (inside : b < d.size) (x : Nat) :
    (d.link child b).children x =
      if x = b then d.children b ++ [child] else d.children x :=
  Table.getD_modify (even.links ▸ inside) (· ++ [child]) [] x

@[simp] theorem parent_clearChildren (d : Decomposition) (b : Nat) :
    (d.clearChildren b).parent = d.parent := rfl

theorem children_clearChildren (d : Decomposition) (b x : Nat) :
    (d.clearChildren b).children x = if x = b then [] else d.children x := by
  simp only [children, clearChildren, Array.getD_eq_getD_getElem?, Array.getElem?_setIfInBounds]
  by_cases same : x = b
  · subst same
    by_cases inside : x < d.links.size <;> simp [inside]
  · simp [same, Ne.symm same]

end Operations

/-! ## Several children at once -/

/-- Makes bags the last children of `b`. -/
def linkAll (d : Decomposition) (b : Nat) (children : List Nat) : Decomposition :=
  children.foldl (fun d child => d.link child b) d

section LinkAll

variable {b : Nat} {children : List Nat}

/-- Only parents and children change. -/
theorem linkAll_eq : d.linkAll b children =
    { d with parents := (d.linkAll b children).parents, links := (d.linkAll b children).links } := by
  unfold linkAll
  induction children generalizing d with
  | nil => rfl
  | cons child children ih => exact ih (d := d.link child b)

@[simp] theorem size_linkAll : (d.linkAll b children).size = d.size := by
  rw [linkAll_eq]
  rfl

@[simp] theorem bag_linkAll : (d.linkAll b children).bag = d.bag := by
  rw [linkAll_eq]
  rfl

@[simp] theorem root_linkAll : (d.linkAll b children).root = d.root := by
  rw [linkAll_eq]

theorem bags_linkAll : (d.linkAll b children).bags = d.bags := by
  rw [linkAll_eq]

theorem width_linkAll : (d.linkAll b children).width = d.width := by
  rw [linkAll_eq]

theorem Even.linkAll (even : d.Even) (b : Nat) (children : List Nat) :
    (d.linkAll b children).Even :=
  List.foldlRecOn children _ even fun _ even child _ => even.link child b

theorem Even.parent_linkAll (even : d.Even) (inside : ∀ child ∈ children, child < d.size) (x : Nat) :
    (d.linkAll b children).parent x = if x ∈ children then b else d.parent x := by
  unfold Decomposition.linkAll
  induction children generalizing d with
  | nil => simp
  | cons child children ih =>
    obtain ⟨first, others⟩ := List.forall_mem_cons.1 inside
    rw [List.foldl_cons, ih (even.link child b) others, even.parent_link first]
    by_cases later : x ∈ children
    · simp [later]
    · by_cases same : x = child <;> simp [later, same]

theorem Even.children_linkAll (even : d.Even) (inside : b < d.size) (x : Nat) :
    (d.linkAll b children).children x =
      if x = b then d.children b ++ children else d.children x := by
  unfold Decomposition.linkAll
  induction children generalizing d with
  | nil =>
    rw [List.foldl_nil, List.append_nil]
    split
    · rename_i same
      rw [same]
    · rfl
  | cons child children ih =>
    rw [List.foldl_cons, ih (even.link child b) inside]
    simp only [even.children_link inside]
    by_cases same : x = b <;> simp [same]

/-- Decompositions with the same bags, parents and children are the same. -/
theorem Even.ext (even : d.Even) (even' : d'.Even) (bags : d'.bags = d.bags)
    (parent : ∀ x < d.size, d'.parent x = d.parent x)
    (children : ∀ x < d.size, d'.children x = d.children x) (root : d'.root = d.root)
    (width : d'.width = d.width) : d' = d := by
  have size : d'.size = d.size := congrArg Array.size bags
  have parents : d'.parents = d.parents := by
    refine Array.ext (by rw [even'.parents, even.parents, size]) fun x left right => ?_
    have same := parent x (even.parents ▸ right)
    simpa [Decomposition.parent, Array.getD_eq_getD_getElem?, left, right] using same
  have links : d'.links = d.links := by
    refine Array.ext (by rw [even'.links, even.links, size]) fun x left right => ?_
    have same := children x (even.links ▸ right)
    simpa [Decomposition.children, Array.getD_eq_getD_getElem?, left, right] using same
  cases d
  cases d'
  simp_all

/-- Linking the children of a bag to it after they were taken away changes nothing. -/
theorem IsTree.linkAll_clearChildren (tree : d.IsTree) (inside : b < d.size) :
    (d.clearChildren b).linkAll b (d.children b) = d := by
  have cleared := tree.even.clearChildren b
  refine tree.even.ext (cleared.linkAll b _) bags_linkAll (fun x _ => ?_) (fun x _ => ?_)
    root_linkAll width_linkAll
  · rw [cleared.parent_linkAll fun child member => tree.child_lt member]
    split
    · rename_i member
      exact (tree.parent_child member).symm
    · rfl
  · rw [cleared.children_linkAll inside, children_clearChildren, children_clearChildren]
    by_cases same : x = b
    · subst same; simp
    · simp [same]

end LinkAll

/-! ## A new bag between a bag and some of its children -/

/-- `d'` has one more bag, which is below `b` and has the children `moved`, which were children of
`b`. -/
structure Inserts (d : Decomposition) (b : Nat) (gates : GateSet) (moved : List Nat)
    (d' : Decomposition) : Prop where
  tree : d.IsTree
  inside : b < d.size
  mem_children : ∀ child ∈ moved, child ∈ d.children b
  nodup : moved.Nodup
  even : d'.Even
  size : d'.size = d.size + 1
  root : d'.root = d.root
  bag : ∀ x, d'.bag x = if x = d.size then gates else d.bag x
  parent : ∀ x, d'.parent x =
    if x = d.size then b else if x ∈ moved then d.size else d.parent x
  children : ∀ x, d'.children x =
    if x = d.size then moved
    else if x = b then (d.children b).filter (· ∉ moved) ++ [d.size]
    else d.children x

namespace Inserts

variable {b : Nat} {gates : GateSet} {moved : List Nat}

theorem lt_of_moved (inserts : Inserts d b gates moved d') {child : Nat} (member : child ∈ moved) :
    child < d.size :=
  inserts.tree.child_lt (inserts.mem_children child member)

/-- What is below a bag stays below it. -/
theorem below (inserts : Inserts d b gates moved d') {x a : Nat} (inside : x < d.size)
    (below : d.Below x a) : d'.Below x a := by
  induction below using Below.induction with
  | top => exact .refl a
  | step x above ih =>
    have above := ih (inserts.tree.parent_lt x inside)
    refine Below.of_parent ?_
    rw [inserts.parent, if_neg (Nat.ne_of_lt inside)]
    split
    · rename_i member
      refine Below.of_parent ?_
      rw [inserts.parent, if_pos rfl]
      rwa [inserts.tree.parent_child (inserts.mem_children x member)] at above
    · exact above

/-- The children afterwards: the new bag, what it took over, and the others. -/
theorem mem_children_iff (inserts : Inserts d b gates moved d') (x child : Nat) :
    child ∈ d'.children x ↔
      (child = d.size ∧ x = b) ∨ (child ∈ moved ∧ x = d.size) ∨
        (child ∉ moved ∧ child ∈ d.children x) := by
  have inside := inserts.inside
  have childless : child ∉ d.children d.size := fun member =>
    Nat.lt_irrefl _ (inserts.tree.lt_of_child member)
  have taken := inserts.mem_children child
  rw [inserts.children]
  by_cases new : x = d.size
  · subst new
    have apart : ¬ d.size = b := Nat.ne_of_gt inside
    simp [apart, childless]
  · rw [if_neg new]
    by_cases here : x = b
    · subst here
      simp [new, and_comm, or_comm]
    · have apart : child ∈ moved → child ∉ d.children x := fun member listed =>
        here ((inserts.tree.parent_child listed).symm.trans
          (inserts.tree.parent_child (taken member)))
      simp only [here, new, if_false, and_false, false_or]
      exact ⟨fun listed => ⟨fun member => apart member listed, listed⟩, And.right⟩

theorem isTree (inserts : Inserts d b gates moved d') : d'.IsTree := by
  have tree := inserts.tree
  have inside := inserts.inside
  refine IsTree.of_below_root inserts.even.parents inserts.even.links ?_ ?_ ?_ ?_ ?_ ?_
  · rw [inserts.root, inserts.size]
    exact Nat.lt_succ_of_lt tree.root_lt
  · rw [inserts.root, inserts.parent, if_neg (Nat.ne_of_lt tree.root_lt), if_neg, tree.parent_root]
    intro member
    have member := inserts.mem_children d.root member
    exact tree.child_ne member (tree.parent_root.symm.trans (tree.parent_child member))
  · intro x small
    rw [inserts.size] at small ⊢
    rw [inserts.parent]
    split
    · omega
    · split
      · omega
      · exact Nat.lt_succ_of_lt (tree.parent_lt x (by omega))
  · intro x child
    rw [inserts.mem_children_iff, inserts.parent, inserts.size]
    by_cases last : child = d.size
    · subst last
      have apart : d.size ∉ moved := fun member => Nat.lt_irrefl _ (inserts.lt_of_moved member)
      have absent : d.size ∉ d.children x := fun member => Nat.lt_irrefl _ (tree.child_lt member)
      simp only [apart, absent, true_and, false_and, and_false, or_false, if_true, eq_comm (a := x)]
      exact ⟨fun same => ⟨Nat.lt_succ_self _, by omega, same⟩, fun ⟨_, _, same⟩ => same⟩
    · rw [if_neg last]
      by_cases member : child ∈ moved
      · have small := inserts.lt_of_moved member
        simp only [last, member, true_and, false_and, not_true_eq_false, or_false, false_or, if_true,
          eq_comm (a := x)]
        exact ⟨fun same => ⟨by omega, by omega, same⟩, fun ⟨_, _, same⟩ => same⟩
      · simp only [last, member, not_false_eq_true, true_and, false_and, false_or, if_false,
          tree.mem_children_iff x child]
        exact and_congr_left fun _ => by omega
  · intro x
    rw [inserts.children]
    split
    · exact inserts.nodup
    · split
      · refine List.nodup_append.2 ⟨(tree.nodup_children b).filter _, List.nodup_singleton _, ?_⟩
        intro child member other same
        obtain rfl := List.mem_singleton.1 same
        exact Nat.ne_of_lt (tree.child_lt (List.mem_filter.1 member).1)
      · exact tree.nodup_children x
  · intro x small
    rw [inserts.root]
    rw [inserts.size] at small
    by_cases new : x = d.size
    · refine Below.of_parent ?_
      rw [inserts.parent, if_pos new]
      exact inserts.below inside (tree.below_root b inside)
    · have small : x < d.size := by omega
      exact inserts.below small (tree.below_root x small)

/-- Gates that a new bag has in common with the bag above it, or that are new, stay connected when the
new bag has whatever this shares with the children taken over. -/
theorem connected (inserts : Inserts d b gates moved d') {gate : Nat}
    (connected : d.Connected gate)
    (known : gate ∈ gates → gate ∈ d.bag b ∨ ∀ x, gate ∉ d.bag x)
    (kept : gate ∈ d.bag b → ∀ child ∈ moved, gate ∈ d.bag child → gate ∈ gates) :
    d'.Connected gate := by
  have tree := inserts.tree
  have old : ∀ {x}, gate ∈ d.bag x → gate ∈ d'.bag x := by
    intro x member
    rwa [inserts.bag, if_neg (Nat.ne_of_lt (lt_of_mem_bag member))]
  have above : d'.parent d.size = b := by rw [inserts.parent, if_pos rfl]
  by_cases fresh : ∀ x, gate ∉ d.bag x
  · refine connected_of_hub d.size fun x member => ?_
    rw [inserts.bag] at member
    split at member
    · rename_i same
      rw [same]
    · exact absurd member (fresh x)
  · have known := fun member => (known member).resolve_right fresh
    have up : ∀ a x, d.Linked gate a x → d.parent a = x →
        Relation.ReflTransGen (d'.Linked gate) a x := by
      rintro a x ⟨left, right, _⟩ rfl
      have small := lt_of_mem_bag left
      have parent := inserts.parent a
      rw [if_neg (Nat.ne_of_lt small)] at parent
      by_cases member : a ∈ moved
      · rw [if_pos member] at parent
        rw [tree.parent_child (inserts.mem_children a member)] at right ⊢
        have new : gate ∈ d'.bag d.size := by
          rw [inserts.bag, if_pos rfl]
          exact kept right a member left
        exact Relation.ReflTransGen.head ⟨old left, new, Or.inl parent⟩
          (Relation.ReflTransGen.single ⟨new, old right, Or.inl above⟩)
      · rw [if_neg member] at parent
        exact Relation.ReflTransGen.single ⟨old left, old right, Or.inl parent⟩
    refine connected.of_paths (fun a x link => ?_) fun x member => ?_
    · rcases link.2.2 with parent | parent
      · exact up a x link parent
      · exact reflTransGen_linked_symm (up x a link.symm parent)
    · have there := member
      rw [inserts.bag] at member
      split at member
      · rename_i same
        have shared := known member
        refine ⟨b, shared, Relation.ReflTransGen.single ⟨there, old shared, Or.inl ?_⟩⟩
        rw [same, above]
      · exact ⟨x, member, Relation.ReflTransGen.refl⟩

end Inserts

/-! ## Changes that add bags -/

/-- The tree `d'` came from `d` by adding bags, none with more gates than another, and the bags of each
gate stay connected. -/
structure Grows (d d' : Decomposition) : Prop where
  tree : d'.IsTree
  size_le : d.size ≤ d'.size
  root : d'.root = d.root
  bag : ∀ b < d.size, d'.bag b = d.bag b
  within : ∀ b, ∃ a, ∀ gate ∈ d'.bag b, gate ∈ d.bag a
  connected : ∀ gate, d.Connected gate → d'.Connected gate

namespace Grows

theorem refl (tree : d.IsTree) : Grows d d :=
  ⟨tree, Nat.le_refl _, rfl, fun _ _ => rfl, fun b => ⟨b, fun _ member => member⟩,
    fun _ connected => connected⟩

theorem trans {d'' : Decomposition} (first : Grows d d') (second : Grows d' d'') : Grows d d'' where
  tree := second.tree
  size_le := first.size_le.trans second.size_le
  root := second.root.trans first.root
  bag b inside := (second.bag b (Nat.lt_of_lt_of_le inside first.size_le)).trans (first.bag b inside)
  within b := by
    obtain ⟨a', inner⟩ := second.within b
    obtain ⟨a, outer⟩ := first.within a'
    exact ⟨a, fun gate member => outer gate (inner gate member)⟩
  connected gate connected := second.connected gate (first.connected gate connected)

end Grows

/-- A bag put between a bag and some children is an addition of this kind. -/
theorem Inserts.grows {b : Nat} {gates : GateSet} {moved : List Nat}
    (inserts : Inserts d b gates moved d') (known : ∀ gate ∈ gates, gate ∈ d.bag b)
    (kept : ∀ gate ∈ d.bag b, ∀ child ∈ moved, gate ∈ d.bag child → gate ∈ gates) :
    Grows d d' where
  tree := inserts.isTree
  size_le := by
    rw [inserts.size]
    exact Nat.le_succ _
  root := inserts.root
  bag x inside := by rw [inserts.bag, if_neg (Nat.ne_of_lt inside)]
  within x := by
    rw [inserts.bag]
    split
    · exact ⟨b, known⟩
    · exact ⟨x, fun _ member => member⟩
  connected gate connected :=
    inserts.connected connected (fun member => Or.inl (known gate member)) (kept gate)

/-! ## The operations that insert a bag -/

section Insertions

variable {b : Nat}

/-- A new last child. -/
theorem IsTree.inserts_addBag (tree : d.IsTree) (inside : b < d.size) (gates : GateSet) :
    Inserts d b gates [] (d.addBag b gates) where
  tree := tree
  inside := inside
  mem_children _ member := absurd member List.not_mem_nil
  nodup := List.nodup_nil
  even := tree.even.addBag b gates
  size := size_addBag ..
  root := rfl
  bag x := bag_addBag ..
  parent x := by
    rw [tree.even.parent_addBag]
    simp
  children x := by
    rw [tree.even.children_addBag inside]
    by_cases here : x = b
    · subst here
      simp [Nat.ne_of_lt inside]
    · simp [here]

/-- A new only child that takes over all children. -/
theorem IsTree.inserts_between (tree : d.IsTree) (inside : b < d.size) (gates : GateSet) :
    Inserts d b gates (d.children b)
      (((d.clearChildren b).addBag b gates).linkAll d.size (d.children b)) := by
  have cleared := tree.even.clearChildren b
  have added := cleared.addBag b gates
  have size : ((d.clearChildren b).addBag b gates).size = d.size + 1 := size_addBag ..
  refine
    { tree := tree
      inside := inside
      mem_children := fun _ member => member
      nodup := tree.nodup_children b
      even := added.linkAll _ _
      size := by rw [size_linkAll, size]
      root := by rw [root_linkAll]; rfl
      bag := fun x => by rw [bag_linkAll]; exact bag_addBag ..
      parent := fun x => ?_
      children := fun x => ?_ }
  · rw [added.parent_linkAll fun child member => by
      rw [size]; exact Nat.lt_succ_of_lt (tree.child_lt member), cleared.parent_addBag]
    have apart : d.size ∉ d.children b := fun member => Nat.lt_irrefl _ (tree.child_lt member)
    by_cases last : x = d.size
    · simp [last, apart]
    · simp [last]
  · rw [added.children_linkAll (by rw [size]; exact Nat.lt_succ_self _),
      cleared.children_addBag inside, cleared.children_addBag inside]
    simp only [children_clearChildren]
    have apart : d.size ≠ b := Nat.ne_of_gt inside
    by_cases last : x = d.size
    · simp [last, apart]
    · by_cases here : x = b
      · subst here
        simp [Nat.ne_of_lt inside]
      · simp [last, here]

end Insertions

end Provenance.Decomposition
