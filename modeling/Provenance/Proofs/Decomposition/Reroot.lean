import Provenance.Decomposition.Friendly
import Provenance.Proofs.Decomposition.Changes

/-!
# A new root

To make a bag the root the links on the way from it to the old root are turned round.  Two bags are
linked afterwards exactly when they were before, only on the way the lower one is the parent
(`Even.parent_reverseLinks`, `Even.mem_children_reverseLinks`), so the bags are a tree again
(`IsTree.reroot`) and those of a gate stay connected (`IsTree.connected_reroot`).
-/

namespace Provenance.Decomposition

variable {d : Decomposition}

/-! ## The way to the root -/

/-- Bag `c` comes right after bag `a` on a path. -/
def Follows (path : List Nat) (a c : Nat) : Prop := [a, c] <:+: path

theorem not_follows_singleton {x a c : Nat} : ¬ Follows [x] a c := by
  intro follows
  have := List.IsInfix.length_le follows
  simp at this

theorem follows_cons_cons {x y a c : Nat} {rest : List Nat} :
    Follows (x :: y :: rest) a c ↔ (a = x ∧ c = y) ∨ Follows (y :: rest) a c := by
  rw [Follows, List.infix_cons_iff]
  simp [Follows]

theorem Follows.left_mem {path : List Nat} {a c : Nat} (follows : Follows path a c) : a ∈ path :=
  follows.subset (by simp)

theorem Follows.right_mem {path : List Nat} {a c : Nat} (follows : Follows path a c) : c ∈ path :=
  follows.subset (by simp)

/-- The first bag of a path without repetition follows no other. -/
theorem not_follows_head {x a : Nat} {rest : List Nat} (nodup : (x :: rest).Nodup) :
    ¬ Follows (x :: rest) a x := by
  intro follows
  cases rest with
  | nil => exact not_follows_singleton follows
  | cons y rest =>
    have new := (List.nodup_cons.1 nodup).1
    rcases follows_cons_cons.1 follows with ⟨_, rfl⟩ | later
    · exact new (by simp)
    · exact new later.right_mem

section PathUp

variable {b steps : Nat}

theorem pathUp_eq_cons (d : Decomposition) (b steps : Nat) :
    ∃ rest, d.pathUp b steps = b :: rest := by
  cases steps with
  | zero => exact ⟨[], rfl⟩
  | succ steps =>
    rw [pathUp]
    split
    · exact ⟨[], rfl⟩
    · exact ⟨_, rfl⟩

/-- The way up meets the bags above. -/
theorem IsTree.mem_pathUp (tree : d.IsTree) (ends : d.ancestor b steps = d.root) {x : Nat} :
    x ∈ d.pathUp b steps ↔ d.Below b x := by
  have at_root : ∀ {b}, d.parent b = b → ∀ {x}, x ∈ [b] ↔ d.Below b x := by
    intro b fixed x
    rw [List.mem_singleton]
    constructor
    · rintro rfl
      exact .refl x
    · rintro ⟨up, rfl⟩
      exact ancestor_of_fixed fixed up
  induction steps generalizing b with
  | zero =>
    obtain rfl : b = d.root := ends
    exact at_root tree.parent_root
  | succ steps ih =>
    rw [pathUp]
    split
    · rename_i fixed
      exact at_root fixed
    · refine List.mem_cons.trans ((or_congr Iff.rfl (ih ends)).trans ?_)
      constructor
      · rintro (rfl | above)
        · exact .refl x
        · exact above.of_parent
      · intro above
        rcases above.eq_or_parent with same | above
        · exact Or.inl same.symm
        · exact Or.inr above

/-- On the way up each bag is followed by its parent. -/
theorem IsTree.follows_pathUp (tree : d.IsTree) (inside : b < d.size)
    (ends : d.ancestor b steps = d.root) {a c : Nat} :
    Follows (d.pathUp b steps) a c ↔ d.Below b a ∧ a ≠ d.root ∧ c = d.parent a := by
  have at_root : ∀ {b}, b = d.root → ∀ a, d.Below b a → a = d.root := by
    rintro b rfl a ⟨up, rfl⟩
    exact ancestor_of_fixed tree.parent_root up
  induction steps generalizing b with
  | zero =>
    refine ⟨fun follows => absurd follows not_follows_singleton, ?_⟩
    rintro ⟨above, other, _⟩
    exact absurd (at_root ends a above) other
  | succ steps ih =>
    rw [pathUp]
    split
    · rename_i fixed
      refine ⟨fun follows => absurd follows not_follows_singleton, ?_⟩
      rintro ⟨above, other, _⟩
      exact absurd (at_root ((tree.parent_eq_self_iff b inside).1 fixed) a above) other
    · rename_i moves
      have other : b ≠ d.root := fun root => moves (root ▸ tree.parent_root)
      obtain ⟨rest, head⟩ := d.pathUp_eq_cons (d.parent b) steps
      have ih := ih (tree.parent_lt b inside) ends
      rw [head] at ih ⊢
      refine follows_cons_cons.trans ((or_congr Iff.rfl ih).trans ?_)
      constructor
      · rintro (⟨rfl, rfl⟩ | ⟨above, rest⟩)
        · exact ⟨.refl a, other, rfl⟩
        · exact ⟨above.of_parent, rest⟩
      · rintro ⟨above, rest, rfl⟩
        rcases above.eq_or_parent with rfl | above
        · exact Or.inl ⟨rfl, rfl⟩
        · exact Or.inr ⟨above, rest, rfl⟩

/-- The way up meets no bag twice. -/
theorem IsTree.nodup_pathUp (tree : d.IsTree) (inside : b < d.size)
    (ends : d.ancestor b steps = d.root) : (d.pathUp b steps).Nodup := by
  induction steps generalizing b with
  | zero => exact List.nodup_singleton b
  | succ steps ih =>
    rw [pathUp]
    split
    · exact List.nodup_singleton b
    · rename_i moves
      refine List.nodup_cons.2 ⟨fun member => moves ?_, ih (tree.parent_lt b inside) ends⟩
      have ends : d.ancestor (d.parent b) steps = d.root := ends
      have above : d.Below (d.parent b) b := (tree.mem_pathUp ends).1 member
      exact (tree.below_antisymm inside (Below.parent d b) above).symm

end PathUp

/-! ## Turning the links round -/

/-- The links of a bag are turned round at its parent first. -/
def turn (d : Decomposition) (child parent : Nat) : Decomposition :=
  { d with links := d.links.modify parent (·.filter (· != child)) }.link parent child

section ReverseLinks

variable {path : List Nat}

theorem reverseLinks_cons_cons (d : Decomposition) (child parent : Nat) (rest : List Nat) :
    d.reverseLinks (child :: parent :: rest) = (d.turn child parent).reverseLinks (parent :: rest) := by
  rw [reverseLinks]
  rfl

@[simp] theorem size_turn (d : Decomposition) (child parent : Nat) :
    (d.turn child parent).size = d.size := rfl

theorem Even.turn (even : d.Even) (child parent : Nat) : (d.turn child parent).Even where
  parents := by
    show (d.parents.setIfInBounds parent child).size = _
    rw [Array.size_setIfInBounds, size_turn, even.parents]
  links := by
    show ((d.links.modify parent _).modify child _).size = _
    rw [Array.size_modify, Array.size_modify, size_turn, even.links]

theorem Even.parent_turn (even : d.Even) (child : Nat) {parent : Nat} (inside : parent < d.size) (x : Nat) :
    (d.turn child parent).parent x = if x = parent then child else d.parent x := by
  refine Even.parent_link (d := { d with links := d.links.modify parent _ }) ⟨even.parents, ?_⟩
    inside x
  show (d.links.modify parent _).size = d.size
  rw [Array.size_modify, even.links]

theorem Even.children_turn (even : d.Even) {child parent : Nat} (inside : child < d.size)
    (different : child ≠ parent) (x : Nat) :
    (d.turn child parent).children x =
      if x = child then d.children child ++ [parent]
      else if x = parent then (d.children parent).filter (· != child)
      else d.children x := by
  have filtered : ∀ x, { d with links := d.links.modify parent (·.filter (· != child)) }.children x =
      if x = parent then (d.children parent).filter (· != child) else d.children x := by
    intro x
    simp only [children, Array.getD_eq_getD_getElem?, Array.getElem?_modify]
    by_cases same : parent = x
    · subst same
      rw [if_pos rfl, if_pos rfl]
      cases d.links[parent]? <;> rfl
    · rw [if_neg same, if_neg (Ne.symm same)]
  have even : Even { d with links := d.links.modify parent (·.filter (· != child)) } := by
    refine ⟨even.parents, ?_⟩
    show (d.links.modify parent _).size = d.size
    rw [Array.size_modify, even.links]
  rw [Decomposition.turn, even.children_link inside, filtered, filtered, if_neg different]

theorem bags_reverseLinks : (d.reverseLinks path).bags = d.bags := by
  fun_induction reverseLinks d path with
  | case1 d child parent rest _ ih => exact ih
  | case2 => rfl

@[simp] theorem size_reverseLinks : (d.reverseLinks path).size = d.size :=
  congrArg Array.size bags_reverseLinks

@[simp] theorem bag_reverseLinks : (d.reverseLinks path).bag = d.bag :=
  congrArg (fun bags b => Array.getD bags b ∅) bags_reverseLinks

theorem Even.reverseLinks (even : d.Even) (path : List Nat) : (d.reverseLinks path).Even := by
  induction path generalizing d with
  | nil => exact even
  | cons child path ih =>
    cases path with
    | nil => exact even
    | cons parent rest =>
      rw [reverseLinks_cons_cons]
      exact ih (even.turn child parent)

/-- On the path each bag becomes the parent of the next one; the other parents stay. -/
theorem Even.parent_reverseLinks (even : d.Even) (inside : ∀ x ∈ path, x < d.size)
    (nodup : path.Nodup) :
    (∀ a c, Follows path a c → (d.reverseLinks path).parent c = a) ∧
      ∀ x, (∀ a, ¬ Follows path a x) → (d.reverseLinks path).parent x = d.parent x := by
  induction path generalizing d with
  | nil =>
    refine ⟨fun a c follows => ?_, fun _ _ => rfl⟩
    exact absurd follows.left_mem List.not_mem_nil
  | cons child path ih =>
    cases path with
    | nil => exact ⟨fun a c follows => absurd follows not_follows_singleton, fun _ _ => rfl⟩
    | cons parent rest =>
      obtain ⟨_, others⟩ := List.forall_mem_cons.1 inside
      have rest_nodup := (List.nodup_cons.1 nodup).2
      have turned := fun x => even.parent_turn child (others parent (by simp)) x
      obtain ⟨on, off⟩ := ih (even.turn child parent) others rest_nodup
      rw [reverseLinks_cons_cons]
      constructor
      · intro a c follows
        rcases follows_cons_cons.1 follows with ⟨rfl, rfl⟩ | later
        · rw [off c fun x => not_follows_head rest_nodup, turned, if_pos rfl]
        · exact on a c later
      · intro x apart
        rw [off x fun a later => apart a (follows_cons_cons.2 (Or.inr later)), turned, if_neg]
        rintro rfl
        exact apart child (follows_cons_cons.2 (Or.inl ⟨rfl, rfl⟩))

/-- On the path each bag gets the next one as a child and loses the one before. -/
theorem Even.mem_children_reverseLinks (even : d.Even) (inside : ∀ x ∈ path, x < d.size)
    (nodup : path.Nodup) (x child : Nat) :
    child ∈ (d.reverseLinks path).children x ↔
      (child ∈ d.children x ∧ ¬ Follows path child x) ∨ Follows path x child := by
  induction path generalizing d with
  | nil =>
    have none : ∀ {a c}, ¬ Follows [] a c := fun follows => List.not_mem_nil follows.left_mem
    simp [Decomposition.reverseLinks, none]
  | cons first path ih =>
    cases path with
    | nil => simp [Decomposition.reverseLinks, not_follows_singleton]
    | cons second rest =>
      obtain ⟨inside, others⟩ := List.forall_mem_cons.1 inside
      obtain ⟨new, rest_nodup⟩ := List.nodup_cons.1 nodup
      have different : first ≠ second := fun same => new (by simp [same])
      have turned := even.children_turn inside different x
      have apart : ∀ {a}, ¬ Follows (second :: rest) a first := fun follows => new follows.right_mem
      have apart' : ∀ {c}, ¬ Follows (second :: rest) first c := fun follows => new follows.left_mem
      rw [reverseLinks_cons_cons, ih (even.turn first second) others rest_nodup, turned,
        follows_cons_cons, follows_cons_cons]
      by_cases lower : x = first
      · subst lower
        simp [different, apart, apart']
      · rw [if_neg lower]
        by_cases upper : x = second
        · subst upper
          by_cases same : child = first
          · subst same; simp [lower, apart']
          · simp [lower, same]
        · simp [lower, upper]

theorem Even.nodup_children_reverseLinks (even : d.Even) (inside : ∀ x ∈ path, x < d.size)
    (nodup : path.Nodup) (nodup_children : ∀ x, (d.children x).Nodup)
    (new : ∀ a c, Follows path a c → c ∉ d.children a) (x : Nat) :
    ((d.reverseLinks path).children x).Nodup := by
  induction path generalizing d with
  | nil => exact nodup_children x
  | cons first path ih =>
    cases path with
    | nil => exact nodup_children x
    | cons second rest =>
      obtain ⟨inside, others⟩ := List.forall_mem_cons.1 inside
      obtain ⟨fresh, rest_nodup⟩ := List.nodup_cons.1 nodup
      have different : first ≠ second := fun same => fresh (by simp [same])
      have turned := even.children_turn inside different
      rw [reverseLinks_cons_cons]
      refine ih (even.turn first second) others rest_nodup (fun y => ?_) fun a c follows => ?_
      · rw [turned]
        split
        · have apart := new first second (follows_cons_cons.2 (Or.inl ⟨rfl, rfl⟩))
          refine List.nodup_append.2 ⟨nodup_children first, List.nodup_singleton _, ?_⟩
          rintro child member other same rfl
          exact apart (List.mem_singleton.1 same ▸ member)
        · split
          · exact (nodup_children second).filter _
          · exact nodup_children y
      · have apart := new a c (follows_cons_cons.2 (Or.inr follows))
        have lower : a ≠ first := fun same => fresh (same ▸ follows.left_mem)
        rw [turned, if_neg lower]
        split
        · rename_i upper
          exact fun member => apart (upper ▸ (List.mem_filter.1 member).1)
        · exact apart

end ReverseLinks

/-! ## The tree with the new root -/

section Reroot

variable {b : Nat}

@[simp] theorem size_reroot : (d.reroot b).size = d.size := size_reverseLinks

@[simp] theorem bag_reroot : (d.reroot b).bag = d.bag := bag_reverseLinks

theorem children_reroot (x : Nat) :
    (d.reroot b).children x = (d.reverseLinks (d.pathUp b d.size)).children x := rfl

theorem Even.parent_reroot (even : d.Even) (inside : b < d.size) (x : Nat) :
    (d.reroot b).parent x =
      if x = b then b else (d.reverseLinks (d.pathUp b d.size)).parent x := by
  have even := even.reverseLinks (d.pathUp b d.size)
  have small : b < (d.reverseLinks (d.pathUp b d.size)).parents.size := by
    rwa [even.parents, size_reverseLinks]
  exact Table.getD_set small b x x

variable (tree : d.IsTree) (inside : b < d.size)

include tree inside

theorem ancestor_size : d.ancestor b d.size = d.root := by
  simpa [isBelowRoot] using tree.isBelowRoot inside

theorem lt_of_mem_pathUp {x : Nat} (member : x ∈ d.pathUp b d.size) : x < d.size :=
  tree.lt_of_below inside ((tree.mem_pathUp (ancestor_size tree inside)).1 member)

/-- A bag is not the parent of one above it. -/
theorem parent_ne_of_below {a : Nat} (above : d.Below b a) (other : a ≠ d.root) :
    d.parent a ≠ b := by
  intro round
  have small := tree.lt_of_below inside above
  have same := tree.below_antisymm inside above (round ▸ Below.parent d a)
  exact other ((tree.parent_eq_self_iff a small).1 (round.trans same))

/-- On the way from the new root to the old one the parents are turned round. -/
theorem parent_reroot_parent {a : Nat} (above : d.Below b a) (other : a ≠ d.root) :
    (d.reroot b).parent (d.parent a) = a := by
  have ends := ancestor_size tree inside
  rw [tree.even.parent_reroot inside, if_neg (parent_ne_of_below tree inside above other)]
  refine (tree.even.parent_reverseLinks (fun x => lt_of_mem_pathUp tree inside)
    (tree.nodup_pathUp inside ends)).1 a _ ?_
  exact (tree.follows_pathUp inside ends).2 ⟨above, other, rfl⟩

/-- Off the way the parents stay. -/
theorem parent_reroot_of_not_below {x : Nat} (off : ¬ d.Below b x) :
    (d.reroot b).parent x = d.parent x := by
  have ends := ancestor_size tree inside
  have other : x ≠ b := by
    rintro rfl
    exact off (.refl x)
  rw [tree.even.parent_reroot inside, if_neg other]
  refine (tree.even.parent_reverseLinks (fun x => lt_of_mem_pathUp tree inside)
    (tree.nodup_pathUp inside ends)).2 x fun a follows => off ?_
  obtain ⟨above, _, rfl⟩ := (tree.follows_pathUp inside ends).1 follows
  exact above.trans (Below.parent d a)

theorem mem_children_reroot (x child : Nat) :
    child ∈ (d.reroot b).children x ↔
      (child ∈ d.children x ∧ ¬ d.Below b child) ∨
        (d.Below b x ∧ x ≠ d.root ∧ child = d.parent x) := by
  have ends := ancestor_size tree inside
  rw [children_reroot, tree.even.mem_children_reverseLinks (fun x => lt_of_mem_pathUp tree inside)
    (tree.nodup_pathUp inside ends), tree.follows_pathUp inside ends,
    tree.follows_pathUp inside ends]
  refine or_congr_left (and_congr_right fun member => not_congr ?_)
  constructor
  · exact And.left
  · intro above
    refine ⟨above, ?_, (tree.parent_child member).symm⟩
    rintro rfl
    exact tree.child_ne member (tree.parent_root.symm.trans (tree.parent_child member))

/-- A bag above the new root and different from it comes after another one on the way. -/
theorem exists_parent_eq {x : Nat} (above : d.Below b x) (other : x ≠ b) :
    ∃ a, d.Below b a ∧ a ≠ d.root ∧ d.parent a = x := by
  obtain ⟨child, member, lower⟩ := ((tree.below_iff inside).1 above).resolve_left (Ne.symm other)
  refine ⟨child, lower, ?_, tree.parent_child member⟩
  rintro rfl
  exact tree.child_ne member (tree.parent_root.symm.trans (tree.parent_child member))

/-- Two bags above the new root with one parent are the same. -/
theorem eq_of_parent_eq {a a' : Nat} (above : d.Below b a) (other : a ≠ d.root)
    (above' : d.Below b a') (other' : a' ≠ d.root) (same : d.parent a = d.parent a') : a = a' := by
  have member := tree.mem_children_parent (tree.lt_of_below inside above) other
  have member' := tree.mem_children_parent (tree.lt_of_below inside above') other'
  rw [← same] at member'
  exact tree.eq_of_below_children member member' above above'

theorem below_reroot (x : Nat) (small : x < d.size) : (d.reroot b).Below x b := by
  have on_way : ∀ x, d.Below b x → (d.reroot b).Below x b := by
    rintro x ⟨steps, rfl⟩
    induction steps with
    | zero => exact .refl b
    | succ steps ih =>
      rw [ancestor_succ]
      by_cases last : d.ancestor b steps = d.root
      · rw [last, tree.parent_root, ← last]
        exact ih
      · refine Below.of_parent ?_
        rw [parent_reroot_parent tree inside ⟨steps, rfl⟩ last]
        exact ih
  have up := tree.below_root x small
  induction up using Below.induction with
  | top => exact on_way d.root (tree.below_root b inside)
  | step x _ ih =>
    by_cases on : d.Below b x
    · exact on_way x on
    · refine Below.of_parent ?_
      rw [parent_reroot_of_not_below tree inside on]
      exact ih (tree.parent_lt x small)

theorem parent_reroot_self : (d.reroot b).parent b = b := by
  rw [tree.even.parent_reroot inside, if_pos rfl]

theorem parent_reroot_lt {x : Nat} (small : x < d.size) : (d.reroot b).parent x < d.size := by
  by_cases on : d.Below b x
  · by_cases first : x = b
    · rw [first, parent_reroot_self tree inside]
      exact inside
    · obtain ⟨a, above, other, rfl⟩ := exists_parent_eq tree inside on first
      rw [parent_reroot_parent tree inside above other]
      exact tree.lt_of_below inside above
  · rw [parent_reroot_of_not_below tree inside on]
    exact tree.parent_lt x small

/-- Children and parents agree: on the path both are turned round, and off it they stay. -/
theorem mem_children_reroot_iff (x child : Nat) :
    child ∈ (d.reroot b).children x ↔
      child < d.size ∧ child ≠ x ∧ (d.reroot b).parent child = x := by
  rw [mem_children_reroot tree inside]
  by_cases on : d.Below b child
  · by_cases first : child = b
    · subst first
      rw [parent_reroot_self tree inside]
      constructor
      · rintro (⟨_, off⟩ | ⟨above, other, same⟩)
        · exact absurd on off
        · exact absurd same.symm (parent_ne_of_below tree inside above other)
      · rintro ⟨_, apart, same⟩
        exact absurd same apart
    · obtain ⟨a, above, other, rfl⟩ := exists_parent_eq tree inside on first
      rw [parent_reroot_parent tree inside above other]
      have small := tree.lt_of_below inside above
      constructor
      · rintro (⟨_, off⟩ | ⟨above', other', same⟩)
        · exact absurd on off
        · obtain rfl := eq_of_parent_eq tree inside above other above' other' same
          exact ⟨tree.parent_lt a small, fun fixed =>
            other ((tree.parent_eq_self_iff a small).1 fixed), rfl⟩
      · rintro ⟨_, _, rfl⟩
        exact Or.inr ⟨above, other, rfl⟩
  · rw [parent_reroot_of_not_below tree inside on, tree.mem_children_iff]
    constructor
    · rintro (⟨listed, _⟩ | ⟨above, _, rfl⟩)
      · exact listed
      · exact absurd (above.trans (Below.parent d x)) on
    · exact fun listed => Or.inl ⟨listed, on⟩

/-- A tree has a bag of our choice as its root. -/
theorem IsTree.reroot : (d.reroot b).IsTree := by
  have ends := ancestor_size tree inside
  have even := tree.even.reverseLinks (d.pathUp b d.size)
  refine IsTree.of_below_root ?_ ?_ ?_ (parent_reroot_self tree inside) ?_ ?_ ?_ ?_
  · show ((d.reverseLinks _).parents.setIfInBounds b b).size = _
    rw [Array.size_setIfInBounds, even.parents, size_reverseLinks, size_reroot]
  · show (d.reverseLinks _).links.size = _
    rw [even.links, size_reverseLinks, size_reroot]
  · rwa [size_reroot]
  · simpa only [size_reroot] using fun x small => parent_reroot_lt tree inside (x := x) small
  · intro x child
    rw [size_reroot]
    exact mem_children_reroot_iff tree inside x child
  · intro x
    rw [children_reroot]
    refine tree.even.nodup_children_reverseLinks (fun x => lt_of_mem_pathUp tree inside)
      (tree.nodup_pathUp inside ends) tree.nodup_children (fun a c follows member => ?_) x
    obtain ⟨above, other, rfl⟩ := (tree.follows_pathUp inside ends).1 follows
    exact tree.not_below_child member (Below.parent d a)
  · intro x small
    rw [size_reroot] at small
    exact below_reroot tree inside x small

/-- Two bags are linked with the new root when they were before. -/
theorem IsTree.connected_reroot {gate : Nat} (connected : d.Connected gate) :
    (d.reroot b).Connected gate := by
  have up : ∀ a x, d.Linked gate a x → d.parent a = x → (d.reroot b).Linked gate a x ∨ a = x := by
    rintro a x ⟨left, right, _⟩ rfl
    have old : ∀ {x}, gate ∈ d.bag x → gate ∈ (d.reroot b).bag x := by
      intro x member
      rwa [bag_reroot]
    by_cases last : a = d.root
    · rw [last, tree.parent_root]
      exact Or.inr rfl
    · refine Or.inl ⟨old left, old right, ?_⟩
      by_cases on : d.Below b a
      · exact Or.inr (parent_reroot_parent tree inside on last)
      · exact Or.inl (parent_reroot_of_not_below tree inside on)
  refine connected.of_paths (fun a x link => ?_) fun x member => ?_
  · rcases link.2.2 with parent | parent
    · rcases up a x link parent with linked | rfl
      · exact Relation.ReflTransGen.single linked
      · exact Relation.ReflTransGen.refl
    · rcases up x a link.symm parent with linked | rfl
      · exact Relation.ReflTransGen.single linked.symm
      · exact Relation.ReflTransGen.refl
  · rw [bag_reroot] at member
    exact ⟨x, member, Relation.ReflTransGen.refl⟩

end Reroot

/-! ## A root bag for one gate -/

section WithRootBag

variable {gate : Nat}

/-- The home of a gate is a bag, and one that holds the gate if there is any. -/
theorem IsTree.home_spec (tree : d.IsTree) (gate : Nat) :
    d.home gate < d.size ∧ ((∃ b, gate ∈ d.bag b) → gate ∈ d.bag (d.home gate)) := by
  unfold home
  cases found : (List.range d.size).find? fun b => (d.bag b).contains gate with
  | none =>
    refine ⟨tree.root_lt, fun ⟨b, member⟩ => ?_⟩
    have absent := List.find?_eq_none.1 found b (List.mem_range.2 (lt_of_mem_bag member))
    exact absurd (GateSet.contains_iff.2 member) absent
  | some b =>
    refine ⟨List.mem_range.1 (List.mem_of_find?_eq_some found), fun _ => ?_⟩
    have held : (d.bag b).contains gate = true := by simpa using List.find?_some found
    exact GateSet.contains_iff.1 held

theorem size_withRootBag : (d.withRootBag gate).size = d.size + 1 := by
  rw [Decomposition.withRootBag, size_reroot, size_addBag]

theorem root_withRootBag : (d.withRootBag gate).root = d.size := rfl

theorem bag_withRootBag (b : Nat) :
    (d.withRootBag gate).bag b = if b = d.size then .singleton gate else d.bag b := by
  rw [Decomposition.withRootBag, bag_reroot, bag_addBag]

variable (tree : d.IsTree)

include tree

theorem IsTree.inserts_home (gate : Nat) :
    Inserts d (d.home gate) (.singleton gate) [] (d.addBag (d.home gate) (.singleton gate)) :=
  tree.inserts_addBag (tree.home_spec gate).1 (.singleton gate)

theorem IsTree.withRootBag (gate : Nat) : (d.withRootBag gate).IsTree := by
  refine IsTree.reroot (tree.inserts_home gate).isTree ?_
  rw [size_addBag]
  exact Nat.lt_succ_self _

theorem IsTree.connected_withRootBag {other : Nat} (connected : d.Connected other) :
    (d.withRootBag gate).Connected other := by
  have inserts := tree.inserts_home gate
  refine IsTree.connected_reroot inserts.isTree ?_ ?_
  · rw [size_addBag]
    exact Nat.lt_succ_self _
  · refine inserts.connected connected (fun member => ?_) fun _ child listed =>
      absurd listed List.not_mem_nil
    obtain rfl := GateSet.mem_singleton.1 member
    by_cases held : ∃ b, other ∈ d.bag b
    · exact Or.inl ((tree.home_spec other).2 held)
    · exact Or.inr (not_exists.1 held)

end WithRootBag

end Provenance.Decomposition
