import Provenance.Proofs.Circuit.InStep
import Provenance.Proofs.Decomposition.Check
import Provenance.Proofs.Decomposition.Leaves

/-!
# Decompositions become friendly

The last pass gives each gate that an inner bag introduces a leaf of its own; afterwards the gates of an
inner bag are in its children (`IsTree.cover_all`).  All passes together make a decomposition friendly
(`IsFriendly`) but for the leaves that were empty, which they keep (`IsTree.isArranged_friendly`,
`IsTree.emptyLeaf_friendly`).  They keep that it decomposes a circuit (`friendly_spec`).  Each gate that
occurs is alone in some leaf then: go down from a bag of the gate to a child that has it too
(`IsArranged.exists_leaf`).
-/

namespace Provenance.Decomposition

variable {d : Decomposition} {b : Nat}

/-! ## A leaf for each introduced gate -/

/-- The gates of a bag with children are in its children. -/
def Covered (d : Decomposition) (b : Nat) : Prop :=
  d.children b ≠ [] → ∀ gate ∈ d.bag b, ∃ child ∈ d.children b, gate ∈ d.bag child

/-- Puts below a bag a bag without the gate, which takes the children over, and a leaf of the gate. -/
def peelOne (d : Decomposition) (b gate : Nat) : Decomposition :=
  (((d.clearChildren b).addBag b ((d.bag b).erase gate)).linkAll d.size (d.children b)).addBag b
    (.singleton gate)

section PeelOne

variable {gate : Nat} (tree : d.IsTree) (inside : b < d.size)

include tree inside

/-- Both bags are inserted one after the other. -/
theorem IsTree.inserts_peelOne (gate : Nat) : ∃ middle,
    Inserts d b ((d.bag b).erase gate) (d.children b) middle ∧
      Inserts middle b (GateSet.singleton gate) [] (d.peelOne b gate) := by
  have first := tree.inserts_between inside ((d.bag b).erase gate)
  refine ⟨_, first, first.isTree.inserts_addBag ?_ (GateSet.singleton gate)⟩
  rw [first.size]
  exact inside.trans (Nat.lt_succ_self _)

theorem IsTree.size_peelOne : (d.peelOne b gate).size = d.size + 2 := by
  obtain ⟨_, first, second⟩ := tree.inserts_peelOne inside gate
  rw [second.size, first.size]

theorem IsTree.children_peelOne (x : Nat) : (d.peelOne b gate).children x =
    if x = b then [d.size, d.size + 1] else if x = d.size then d.children b else d.children x := by
  obtain ⟨_, first, second⟩ := tree.inserts_peelOne inside gate
  have outside := tree.children_of_le (Nat.le_succ d.size)
  have earlier : d.size ≠ b := Nat.ne_of_gt inside
  have apart : b ≠ d.size + 1 := by omega
  rw [second.children, first.children, first.children, first.size]
  by_cases next : x = d.size + 1
  · subst next
    simp [Ne.symm apart, outside]
  · by_cases here : x = b
    · subst here
      simp [next, Ne.symm earlier]
    · simp [next, here]

theorem IsTree.bag_peelOne (x : Nat) : (d.peelOne b gate).bag x =
    if x = d.size + 1 then GateSet.singleton gate
    else if x = d.size then (d.bag b).erase gate
    else d.bag x := by
  obtain ⟨_, first, second⟩ := tree.inserts_peelOne inside gate
  rw [second.bag, first.bag, first.size]

/-- Peeling a gate of the bag that no child has keeps a decomposition. -/
theorem IsTree.grows_peelOne (held : gate ∈ d.bag b)
    (new : ∀ child ∈ d.children b, gate ∉ d.bag child) : Grows d (d.peelOne b gate) := by
  obtain ⟨_, first, second⟩ := tree.inserts_peelOne inside gate
  have grows := first.grows (fun other member => (GateSet.mem_erase.1 member).1)
    fun other member child listed shared => GateSet.mem_erase.2
      ⟨member, fun same => new child listed (same ▸ shared)⟩
  refine grows.trans (second.grows (fun other member => ?_) fun _ _ _ listed =>
    absurd listed List.not_mem_nil)
  rw [GateSet.mem_singleton.1 member, first.bag, if_neg (Nat.ne_of_lt inside)]
  exact held

end PeelOne

/-- `d'` has the bag `b` and all new bags covered, with one gate in each new leaf. -/
structure Covers (d : Decomposition) (b : Nat) (d' : Decomposition) : Prop where
  grows : Grows d d'
  /-- Other bags keep their children. -/
  children : ∀ x < d.size, x ≠ b → d'.children x = d.children x
  leaf : d'.children b = [] → d.children b = []
  covered : ∀ x < d'.size, x = b ∨ d.size ≤ x → d'.Covered x
  few : ∀ x < d'.size, x = b ∨ d.size ≤ x → (d'.children x).length ≤ arityLimit
  single : ∀ x < d'.size, d.size ≤ x → d'.children x = [] → (d'.bag x).size = 1

theorem IsTree.covers_self (tree : d.IsTree) (few : (d.children b).length ≤ arityLimit)
    (covered : d.Covered b) : Covers d b d where
  grows := Grows.refl tree
  children _ _ _ := rfl
  leaf none := none
  covered x bound place := by
    obtain rfl := place.resolve_right (Nat.not_le.2 bound)
    exact covered
  few x bound place := by
    obtain rfl := place.resolve_right (Nat.not_le.2 bound)
    exact few
  single x bound new := absurd new (Nat.not_le.2 bound)

/-- After one gate was peeled off it is enough to cover the bag without it. -/
theorem Covers.of_peelOne {gate : Nat} {d' : Decomposition} (tree : d.IsTree) (inside : b < d.size)
    (some_child : d.children b ≠ []) (held : gate ∈ d.bag b)
    (new : ∀ child ∈ d.children b, gate ∉ d.bag child)
    (covers : Covers (d.peelOne b gate) d.size d') : Covers d b d' := by
  have grows := tree.grows_peelOne inside held new
  have size : (d.peelOne b gate).size = d.size + 2 := tree.size_peelOne inside
  have children : ∀ x, (d.peelOne b gate).children x = _ := tree.children_peelOne inside
  have bag : ∀ x, (d.peelOne b gate).bag x = _ := tree.bag_peelOne inside
  generalize d.peelOne b gate = middle at grows size children bag covers
  have larger := covers.grows.size_le
  have earlier : d.size ≠ b := Nat.ne_of_gt inside
  have at_b : d'.children b = [d.size, d.size + 1] := by
    rw [covers.children b (by omega) (Ne.symm earlier), children, if_pos rfl]
  have at_leaf : d'.children (d.size + 1) = [] := by
    rw [covers.children _ (by omega) (by omega), children, if_neg (by omega), if_neg (by omega)]
    exact tree.children_of_le (Nat.le_succ d.size)
  have rest : ∀ x, x ≠ b → x ≠ d.size + 1 → x = b ∨ d.size ≤ x → x = d.size ∨ middle.size ≤ x := by
    omega
  refine
    { grows := grows.trans covers.grows
      children := ?children
      leaf := ?leaf
      covered := ?covered
      few := ?few
      single := ?single }
  case children =>
    intro x small other
    rw [covers.children x (by omega) (Nat.ne_of_lt small), children, if_neg other,
      if_neg (Nat.ne_of_lt small)]
  case leaf =>
    intro none
    rw [at_b] at none
    exact absurd none (List.cons_ne_nil _ _)
  case covered =>
    intro x bound place
    by_cases here : x = b
    · -- the gate is in the new leaf, and the other gates are in the bag beside it
      subst here
      intro _ other member
      rw [covers.grows.bag x (by omega), grows.bag x inside] at member
      rw [at_b]
      by_cases this : other = gate
      · refine ⟨d.size + 1, by simp, ?_⟩
        rw [covers.grows.bag _ (by omega), bag, if_pos rfl]
        exact GateSet.mem_singleton.2 this
      · refine ⟨d.size, by simp, ?_⟩
        rw [covers.grows.bag _ (by omega), bag, if_neg (Nat.ne_of_lt (Nat.lt_succ_self _)), if_pos rfl]
        exact GateSet.mem_erase.2 ⟨member, this⟩
    · by_cases last : x = d.size + 1
      · subst last
        exact fun some_child => absurd at_leaf some_child
      · exact covers.covered x bound (rest x here last place)
  case few =>
    intro x bound place
    by_cases here : x = b
    · rw [here, at_b]
      exact Nat.le_refl _
    · by_cases last : x = d.size + 1
      · rw [last, at_leaf]
        exact Nat.zero_le _
      · exact covers.few x bound (rest x here last place)
  case single =>
    intro x bound new none
    by_cases last : x = d.size + 1
    · rw [last, covers.grows.bag _ (by omega), bag, if_pos rfl, GateSet.size_singleton]
    · by_cases next : x = d.size
      · subst next
        have none := covers.leaf none
        rw [children, if_neg earlier, if_pos rfl] at none
        exact absurd none some_child
      · exact covers.single x bound (by omega) none

/-- Peeling gates that no child has off a bag covers it, when the children have its other gates. -/
theorem IsTree.peel_spec {gates : List Nat} (tree : d.IsTree) (inside : b < d.size)
    (few : (d.children b).length ≤ arityLimit) (some_child : d.children b ≠ [])
    (nodup : gates.Nodup) (held : ∀ gate ∈ gates, gate ∈ d.bag b)
    (new : ∀ gate ∈ gates, ∀ child ∈ d.children b, gate ∉ d.bag child)
    (others : ∀ gate ∈ d.bag b, gate ∈ gates ∨ ∃ child ∈ d.children b, gate ∈ d.bag child) :
    Covers d b (d.peel b gates) := by
  induction gates generalizing d b with
  | nil =>
    exact tree.covers_self few fun _ gate member => (others gate member).resolve_left List.not_mem_nil
  | cons gate rest ih =>
    obtain ⟨fresh, rest_nodup⟩ := List.nodup_cons.1 nodup
    obtain ⟨gate_held, rest_held⟩ := List.forall_mem_cons.1 held
    obtain ⟨gate_new, rest_new⟩ := List.forall_mem_cons.1 new
    have tree' := (tree.grows_peelOne inside gate_held gate_new).tree
    have reduced : (d.peelOne b gate).bag d.size = (d.bag b).erase gate := by
      rw [tree.bag_peelOne inside, if_neg (Nat.ne_of_lt (Nat.lt_succ_self _)), if_pos rfl]
    have taken : (d.peelOne b gate).children d.size = d.children b := by
      rw [tree.children_peelOne inside, if_neg (Nat.ne_of_gt inside), if_pos rfl]
    have kept : ∀ child ∈ d.children b, (d.peelOne b gate).bag child = d.bag child := by
      intro child listed
      have small := tree.child_lt listed
      rw [tree.bag_peelOne inside, if_neg (by omega), if_neg (Nat.ne_of_lt small)]
    refine Covers.of_peelOne tree inside some_child gate_held gate_new (ih tree' ?_ ?_ ?_ rest_nodup ?_ ?_ ?_)
    · rw [tree.size_peelOne inside]
      omega
    · rwa [taken]
    · rwa [taken]
    · intro other member
      rw [reduced]
      exact GateSet.mem_erase.2 ⟨rest_held other member, fun same => fresh (same ▸ member)⟩
    · intro other member child listed
      rw [taken] at listed
      rw [kept child listed]
      exact rest_new other member child listed
    · intro other member
      rw [reduced] at member
      obtain ⟨member, different⟩ := GateSet.mem_erase.1 member
      rw [taken]
      rcases others other member with listed | ⟨child, listed, shared⟩
      · exact Or.inl ((List.mem_cons.1 listed).resolve_left different)
      · exact Or.inr ⟨child, listed, by rwa [kept child listed]⟩

/-- A bag introduces the gates that none of its children has. -/
theorem mem_introduced {gate : Nat} :
    gate ∈ d.introduced b ↔ gate ∈ d.bag b ∧ ∀ child ∈ d.children b, gate ∉ d.bag child := by
  have union : ∀ (children : List Nat) (start : GateSet),
      gate ∈ children.foldl (fun covered child => covered.union (d.bag child)) start ↔
        gate ∈ start ∨ ∃ child ∈ children, gate ∈ d.bag child := by
    intro children
    induction children with
    | nil => simp
    | cons first rest ih =>
      intro start
      rw [List.foldl_cons, ih, GateSet.mem_union]
      simp only [List.mem_cons, exists_eq_or_imp, or_assoc]
  rw [introduced, GateSet.mem_diff, union]
  simp

theorem IsTree.cover_spec (tree : d.IsTree) (inside : b < d.size)
    (few : (d.children b).length ≤ arityLimit) : Covers d b (d.cover b) := by
  unfold cover
  split
  · rename_i childless
    exact tree.covers_self few fun some_child => absurd (List.isEmpty_iff.1 childless) some_child
  · rename_i some_child
    refine tree.peel_spec inside few (fun none => some_child (List.isEmpty_iff.2 none))
      (d.introduced b).nodup_toList (fun gate member => (mem_introduced.1 member).1)
      (fun gate member => (mem_introduced.1 member).2) fun gate member => ?_
    by_cases shared : ∃ child ∈ d.children b, gate ∈ d.bag child
    · exact Or.inr shared
    · refine Or.inl (mem_introduced.2 ⟨member, fun child listed there => ?_⟩)
      exact shared ⟨child, listed, there⟩

/-- Covering a bag keeps the empty leaves. -/
theorem IsTree.emptyLeaf_cover (tree : d.IsTree) (inside : b < d.size)
    (few : (d.children b).length ≤ arityLimit) (x : Nat) :
    (d.cover b).EmptyLeaf x ↔ d.EmptyLeaf x := by
  have covers := tree.cover_spec inside few
  refine covers.grows.emptyLeaf_iff (fun x small _ => ?_) (fun x bound new none empty => ?_) x
  · by_cases here : x = b
    · subst here
      exact ⟨covers.leaf, fun none => by simp [cover, none]⟩
    · rw [covers.children x small here]
  · have single := covers.single x bound new none
    rw [empty] at single
    exact absurd single (by decide)

/-- What holds when the pass has met some of the bags. -/
structure Covering (d : Decomposition) (count : Nat) (d' : Decomposition) : Prop where
  grows : Grows d d'
  few : ∀ x < d'.size, (d'.children x).length ≤ arityLimit
  single : (∀ x < d.size, d.children x = [] → (d.bag x).size ≤ 1) →
    ∀ x < d'.size, d'.children x = [] → (d'.bag x).size ≤ 1
  empty : ∀ x, d'.EmptyLeaf x ↔ d.EmptyLeaf x
  covered : ∀ x < d'.size, x < count ∨ d.size ≤ x → d'.Covered x

/-- The pass covers one more bag, and the bags that it adds. -/
theorem Covering.step {d' : Decomposition} (covering : Covering d b d') (small : b < d.size) :
    Covering d (b + 1) (d'.cover b) := by
  have grows := covering.grows
  have inside := Nat.lt_of_lt_of_le small grows.size_le
  have covers := grows.tree.cover_spec inside (covering.few b inside)
  have more := covers.grows
  have old : ∀ x < (d'.cover b).size, ¬ (x = b ∨ d'.size ≤ x) → x < d'.size ∧
      (d'.cover b).children x = d'.children x ∧ (d'.cover b).bag x = d'.bag x := by
    intro x bound former
    obtain ⟨other, earlier⟩ := not_or.1 former
    have earlier := Nat.lt_of_not_le earlier
    exact ⟨earlier, covers.children x earlier other, more.bag x earlier⟩
  refine
    { grows := grows.trans more
      few := ?few
      single := ?single
      empty := fun x =>
        (grows.tree.emptyLeaf_cover inside (covering.few b inside) x).trans (covering.empty x)
      covered := ?covered }
  case few =>
    intro x bound
    by_cases new : x = b ∨ d'.size ≤ x
    · exact covers.few x bound new
    · obtain ⟨earlier, same, _⟩ := old x bound new
      rw [same]
      exact covering.few x earlier
  case single =>
    intro single x bound none
    by_cases here : x = b
    · subst here
      rw [more.bag x inside]
      exact covering.single single x inside (covers.leaf none)
    · by_cases beyond : d'.size ≤ x
      · exact Nat.le_of_eq (covers.single x bound beyond none)
      · obtain ⟨earlier, same, bag⟩ := old x bound (not_or.2 ⟨here, beyond⟩)
        rw [bag]
        exact covering.single single x earlier (same.symm.trans none)
  case covered =>
    intro x bound place
    by_cases new : x = b ∨ d'.size ≤ x
    · exact covers.covered x bound new
    · obtain ⟨earlier, same, bag⟩ := old x bound new
      intro some_child gate member
      rw [same] at some_child ⊢
      rw [bag] at member
      obtain ⟨child, listed, shared⟩ :=
        covering.covered x earlier (by omega) some_child gate member
      have small := grows.tree.child_lt listed
      exact ⟨child, listed, by rwa [more.bag child small]⟩

theorem IsTree.covering (tree : d.IsTree) (few : ∀ x < d.size, (d.children x).length ≤ arityLimit) :
    Covering d d.size ((List.range d.size).foldl cover d) := by
  have start : Covering d 0 d :=
    ⟨Grows.refl tree, few, fun single => single, fun _ => Iff.rfl, fun x bound place => by omega⟩
  exact foldl_range_induction (Covering d) start fun _ small _ covering => covering.step small

/-- After the pass all bags are covered by their children; leaves hold at most one gate and no bag has more
than two children as before, and the empty leaves are those from before. -/
theorem IsTree.cover_all (tree : d.IsTree)
    (few : ∀ x < d.size, (d.children x).length ≤ arityLimit)
    (single : ∀ x < d.size, d.children x = [] → (d.bag x).size ≤ 1) :
    let d' := (List.range d.size).foldl cover d
    Grows d d' ∧ (∀ x < d'.size, (d'.children x).length ≤ arityLimit) ∧
      (∀ x < d'.size, d'.children x = [] → (d'.bag x).size ≤ 1) ∧
      (∀ x < d'.size, d'.Covered x) ∧ ∀ x, d'.EmptyLeaf x ↔ d.EmptyLeaf x := by
  intro d'
  have cover : Covering d d.size d' := tree.covering few
  exact ⟨cover.grows, cover.few, cover.single single, fun x bound =>
    cover.covered x bound (Nat.lt_or_ge x d.size), cover.empty⟩

/-! ## Friendly decompositions -/

/-- A tree whose root is the bag of one gate, in which no bag has more than two children, leaves hold
one gate each and the gates of an inner bag are in its children. -/
structure IsFriendly (d : Decomposition) (gate : Nat) : Prop where
  tree : d.IsTree
  bag_root : d.bag d.root = .singleton gate
  arity : ∀ b < d.size, (d.children b).length ≤ arityLimit
  leaf : ∀ b < d.size, d.children b = [] → (d.bag b).size = 1
  covered : ∀ b < d.size, d.Covered b

/-- A friendly decomposition but for its leaves, which may be empty. -/
structure IsArranged (d : Decomposition) (gate : Nat) : Prop where
  tree : d.IsTree
  bag_root : d.bag d.root = .singleton gate
  arity : ∀ b < d.size, (d.children b).length ≤ arityLimit
  leaf : ∀ b < d.size, d.children b = [] → (d.bag b).size ≤ 1
  covered : ∀ b < d.size, d.Covered b

theorem IsFriendly.isArranged {gate : Nat} (friendly : d.IsFriendly gate) : d.IsArranged gate :=
  { friendly with leaf := fun b inside none => Nat.le_of_eq (friendly.leaf b inside none) }

/-- Without empty leaves all leaves hold one gate. -/
theorem IsArranged.isFriendly {gate : Nat} (arranged : d.IsArranged gate)
    (filled : ∀ b, ¬ d.EmptyLeaf b) : d.IsFriendly gate where
  tree := arranged.tree
  bag_root := arranged.bag_root
  arity := arranged.arity
  covered := arranged.covered
  leaf b inside none := by
    refine Nat.le_antisymm (arranged.leaf b inside none) (GateSet.size_pos_of_ne_empty fun empty => ?_)
    exact filled b ⟨inside, none, empty⟩

/-- A gate that is in a bag is alone in a leaf below it. -/
theorem IsArranged.exists_leaf {gate other : Nat} (arranged : d.IsArranged gate)
    (member : other ∈ d.bag b) :
    ∃ leaf < d.size, d.Below leaf b ∧ d.children leaf = [] ∧ d.bag leaf = .singleton other := by
  have tree := arranged.tree
  refine tree.induction (motive := fun b => other ∈ d.bag b → ∃ leaf < d.size, d.Below leaf b ∧
    d.children leaf = [] ∧ d.bag leaf = .singleton other) (fun b inside ih member => ?_) b
    (lt_of_mem_bag member) member
  by_cases childless : d.children b = []
  · refine ⟨b, inside, .refl b, childless, GateSet.eq_singleton_of_size member ?_⟩
    refine Nat.le_antisymm (arranged.leaf b inside childless) (GateSet.size_pos_of_ne_empty fun empty => ?_)
    rw [empty] at member
    exact GateSet.not_mem_emptyCollection member
  · obtain ⟨child, listed, shared⟩ := arranged.covered b inside childless other member
    obtain ⟨leaf, small, below, rest⟩ := ih child listed shared
    exact ⟨leaf, small, below.trans (tree.below_child listed), rest⟩

/-- The passes after the new root add bags only, keep the empty leaves and make a decomposition friendly
but for these. -/
theorem IsTree.friendly_passes (tree : d.IsTree) (gate : Nat) :
    Grows (d.withRootBag gate) (d.friendly gate) ∧ (d.friendly gate).IsArranged gate ∧
      ∀ x, (d.friendly gate).EmptyLeaf x ↔ (d.withRootBag gate).EmptyLeaf x := by
  have rooted := tree.withRootBag gate
  obtain ⟨spread, few, empty⟩ := rooted.spread_all
  obtain ⟨cut, few, single, empty'⟩ := spread.tree.cutLeaf_all few
  obtain ⟨cover, few, single, covered, empty''⟩ := cut.tree.cover_all few single
  have grows : Grows (d.withRootBag gate) (d.friendly gate) := (spread.trans cut).trans cover
  refine ⟨grows, ⟨grows.tree, ?_, few, single, covered⟩, fun x =>
    (empty'' x).trans ((empty' x).trans (empty x))⟩
  rw [grows.root, grows.bag _ rooted.root_lt, root_withRootBag, bag_withRootBag, if_pos rfl]

theorem IsTree.grows_friendly (tree : d.IsTree) (gate : Nat) :
    Grows (d.withRootBag gate) (d.friendly gate) := (tree.friendly_passes gate).1

theorem IsTree.isArranged_friendly (tree : d.IsTree) (gate : Nat) : (d.friendly gate).IsArranged gate :=
  (tree.friendly_passes gate).2.1

theorem IsTree.emptyLeaf_friendly (tree : d.IsTree) (gate x : Nat) :
    (d.friendly gate).EmptyLeaf x ↔ (d.withRootBag gate).EmptyLeaf x :=
  (tree.friendly_passes gate).2.2 x

/-- Without empty bags there are no empty leaves beside the new root. -/
theorem not_emptyLeaf_withRootBag (filled : ∀ b < d.size, d.bag b ≠ ∅) (gate x : Nat) :
    ¬ (d.withRootBag gate).EmptyLeaf x := by
  rintro ⟨inside, _, empty⟩
  rw [bag_withRootBag] at empty
  split at empty
  · exact absurd (congrArg GateSet.size empty) (Nat.succ_ne_zero 0)
  · rw [size_withRootBag] at inside
    exact filled x (by omega) empty

/-- The passes come to a friendly decomposition. -/
theorem IsTree.isFriendly_friendly (tree : d.IsTree) (filled : ∀ b < d.size, d.bag b ≠ ∅)
    (gate : Nat) : (d.friendly gate).IsFriendly gate :=
  (tree.isArranged_friendly gate).isFriendly fun x empty =>
    not_emptyLeaf_withRootBag filled gate x ((tree.emptyLeaf_friendly gate x).1 empty)

/-- The bags from before are still there. -/
theorem IsTree.bag_friendly (tree : d.IsTree) (gate : Nat) (inside : b < d.size) :
    b < (d.friendly gate).size ∧ (d.friendly gate).bag b = d.bag b := by
  have grows := tree.grows_friendly gate
  have larger := grows.size_le
  rw [size_withRootBag] at larger
  refine ⟨by omega, ?_⟩
  rw [grows.bag b (by rw [size_withRootBag]; omega), bag_withRootBag, if_neg (by omega)]

/-- No bag has gates that were not together in a bag before, but for the one gate. -/
theorem IsTree.bag_friendly_within (tree : d.IsTree) (gate b : Nat) :
    (∀ other ∈ (d.friendly gate).bag b, other = gate) ∨
      ∃ a, ∀ other ∈ (d.friendly gate).bag b, other ∈ d.bag a := by
  obtain ⟨a, within⟩ := (tree.grows_friendly gate).within b
  rw [bag_withRootBag] at within
  split at within
  · exact Or.inl fun other member => GateSet.mem_singleton.1 (within other member)
  · exact Or.inr ⟨a, within⟩

theorem IsTree.largest_friendly (tree : d.IsTree) (filled : ∀ b < d.size, d.bag b ≠ ∅)
    (gate : Nat) : (d.friendly gate).largest = d.largest := by
  obtain ⟨b, inside, largest⟩ := exists_bag_largest (Nat.zero_lt_of_lt tree.root_lt)
  refine largest_eq_of (b := b) (fun x => ?_) ?_
  · rcases tree.bag_friendly_within gate x with only | ⟨a, within⟩
    · -- one gate is not more than a bag of the tree holds
      have single : ((d.friendly gate).bag x).size ≤ (GateSet.singleton gate).size :=
        GateSet.size_le_size fun other member => GateSet.mem_singleton.2 (only other member)
      have root := GateSet.size_pos_of_ne_empty (filled d.root tree.root_lt)
      exact single.trans (Nat.le_trans root (d.size_bag_le d.root))
    · exact (GateSet.size_le_size within).trans (d.size_bag_le a)
  · rw [(tree.bag_friendly gate inside).2, largest]

variable {α : Type} {c : Circuit α}

/-- A decomposition of a circuit stays one. -/
theorem Decomposes.friendly (decomposes : d.Decomposes c) (gate : Nat) :
    (d.friendly gate).Decomposes c where
  tree := (decomposes.tree.grows_friendly gate).tree
  covers parent child wire := by
    obtain ⟨b, left, right⟩ := decomposes.covers parent child wire
    obtain ⟨_, same⟩ := decomposes.tree.bag_friendly gate (lt_of_mem_bag left)
    exact ⟨b, by rwa [same], by rwa [same]⟩
  connected other := (decomposes.tree.grows_friendly gate).connected other
    (decomposes.tree.connected_withRootBag (decomposes.connected other))

/-- Any decomposition of a circuit without empty bags becomes friendly for any gate, with each gate
alone in a leaf.  It stays a decomposition of the circuit, its bags are still there, and the largest one
is not larger. -/
theorem friendly_spec (decomposes : d.Decomposes c) (filled : ∀ b < d.size, d.bag b ≠ ∅)
    (gate : Nat) :
    (d.friendly gate).IsFriendly gate ∧ (d.friendly gate).Decomposes c ∧
      (∀ b other, other ∈ (d.friendly gate).bag b →
        ∃ leaf < (d.friendly gate).size, (d.friendly gate).children leaf = [] ∧
          (d.friendly gate).bag leaf = .singleton other) ∧
      (∀ b < d.size, ∃ b' < (d.friendly gate).size, (d.friendly gate).bag b' = d.bag b) ∧
      (d.friendly gate).largest = d.largest := by
  have tree := decomposes.tree
  have friendly := tree.isFriendly_friendly filled gate
  refine ⟨friendly, decomposes.friendly gate, fun b other member => ?_,
    fun b inside => ⟨b, tree.bag_friendly gate inside⟩, tree.largest_friendly filled gate⟩
  obtain ⟨leaf, small, _, rest⟩ := friendly.isArranged.exists_leaf member
  exact ⟨leaf, small, rest⟩

/-- The one bag of a conjunction and its two inputs becomes a friendly decomposition. -/
theorem friendly_conjunction :
    let d := ofParents [GateSet.ofList [0, 1, 2]] [0] 0 2
    d.Decomposes Circuit.conjunction ∧ (d.friendly 2).IsFriendly 2 ∧
      (d.friendly 2).Decomposes Circuit.conjunction ∧ (d.friendly 2).largest = 3 := by
  have decomposes := decomposes_ofParents_singleton (c := Circuit.conjunction)
    (GateSet.ofList [0, 1, 2]) 2 (by
      suffices ∀ gate < 3, ∀ child ∈ Circuit.conjunction.children gate,
          gate ∈ GateSet.ofList [0, 1, 2] ∧ child ∈ GateSet.ofList [0, 1, 2] from
        fun gate child wire => this gate (Network.lt_of_wire wire) child wire
      decide)
  obtain ⟨friendly, still, _, _, largest⟩ := friendly_spec decomposes (by decide) 2
  exact ⟨decomposes, friendly, still, largest⟩

end Provenance.Decomposition
