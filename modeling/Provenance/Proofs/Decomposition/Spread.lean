import Provenance.Proofs.Decomposition.Reroot

/-!
# No more than two children

A pass over the bags holds on to what it has brought about at a bag, because a step leaves the children
of the other bags alone (`foldl_range_induction`).  Spreading the children of a bag over a chain of
copies adds bags only (`Grows`), and when the pass is over no bag has more than two children
(`IsTree.spread_all`).  No pass makes an empty leaf or does away with one (`EmptyLeaf`).
-/

namespace Provenance.Decomposition

variable {d : Decomposition} {b : Nat}

/-- What holds at the start of a pass over the first bags and is kept at each bag holds at its end. -/
theorem foldl_range_induction {σ : Type} {pass : σ → Nat → σ} {state : σ} {count : Nat}
    (motive : Nat → σ → Prop) (start : motive 0 state)
    (step : ∀ b < count, ∀ state, motive b state → motive (b + 1) (pass state b)) :
    motive count ((List.range count).foldl pass state) := by
  induction count with
  | zero => exact start
  | succ count ih =>
    rw [List.range_succ, List.foldl_append]
    exact step count (Nat.lt_succ_self count) _
      (ih fun b earlier => step b (Nat.lt_succ_of_lt earlier))

/-! ## Leaves without gates -/

/-- A leaf that holds no gate. -/
structure EmptyLeaf (d : Decomposition) (b : Nat) : Prop where
  inside : b < d.size
  childless : d.children b = []
  empty : d.bag b = ∅

/-- Where empty bags stay leaves or not and new leaves hold a gate, the empty leaves are those from
before. -/
theorem Grows.emptyLeaf_iff {d' : Decomposition} (grows : Grows d d')
    (old : ∀ x < d.size, d.bag x = ∅ → (d'.children x = [] ↔ d.children x = []))
    (new : ∀ x < d'.size, d.size ≤ x → d'.children x = [] → d'.bag x ≠ ∅) (x : Nat) :
    d'.EmptyLeaf x ↔ d.EmptyLeaf x := by
  by_cases small : x < d.size
  · have bag := grows.bag x small
    constructor
    · rintro ⟨_, childless, empty⟩
      rw [bag] at empty
      exact ⟨small, (old x small empty).1 childless, empty⟩
    · rintro ⟨_, childless, empty⟩
      exact ⟨small.trans_le grows.size_le, (old x small empty).2 childless, bag.trans empty⟩
  · constructor
    · rintro ⟨inside, childless, empty⟩
      exact absurd empty (new x inside (Nat.le_of_not_lt small) childless)
    · exact fun leaf => absurd leaf.inside small

/-! ## Hanging children under copies -/

section Hang

variable {first : Nat} {others : List Nat}

/-- Hanging the other children under a copy puts the copy between them and the bag. -/
theorem Even.inserts_copy (even : d.Even) (inside : b < d.size) (childless : d.children b = [])
    (small : ∀ child ∈ first :: others, child < d.size)
    (tree : (d.linkAll b (first :: others)).IsTree) :
    Inserts (d.linkAll b (first :: others)) b (d.bag b) others
      (((d.link first b).addBag b (d.bag b)).linkAll d.size others) := by
  obtain ⟨first_small, others_small⟩ := List.forall_mem_cons.1 small
  have linked := even.link first b
  have added := linked.addBag b (d.bag b)
  have size : ((d.link first b).addBag b (d.bag b)).size = d.size + 1 := size_addBag ..
  have children_b : (d.linkAll b (first :: others)).children b = first :: others := by
    rw [even.children_linkAll inside, if_pos rfl, childless, List.nil_append]
  have nodup := tree.nodup_children b
  rw [children_b] at nodup
  obtain ⟨apart, nodup⟩ := List.nodup_cons.1 nodup
  refine
    { tree := tree
      inside := by rwa [size_linkAll]
      mem_children := fun child member => by rw [children_b]; exact List.mem_cons_of_mem _ member
      nodup := nodup
      even := added.linkAll _ _
      size := by rw [size_linkAll, size_linkAll, size]
      root := by rw [root_linkAll, root_linkAll]; rfl
      bag := fun x => by rw [bag_linkAll, bag_linkAll, size_linkAll]; exact bag_addBag ..
      parent := fun x => ?_
      children := fun x => ?_ }
  · have last : d.size ∉ others := fun member => Nat.lt_irrefl _ (others_small d.size member)
    rw [added.parent_linkAll fun child member => by
      rw [size]; exact Nat.lt_succ_of_lt (others_small child member), linked.parent_addBag,
      even.parent_link first_small, even.parent_linkAll small, size_linkAll, size_link]
    by_cases new : x = d.size
    · simp [new, last]
    · by_cases member : x ∈ others
      · simp [new, member]
      · simp [new, member]
  · rw [added.children_linkAll (by rw [size]; exact Nat.lt_succ_self _),
      linked.children_addBag inside, linked.children_addBag inside, even.children_link inside,
      even.children_link inside, even.children_link inside, size_linkAll, size_link, children_b,
      even.children_linkAll inside, childless]
    have earlier : d.size ≠ b := Nat.ne_of_gt inside
    by_cases new : x = d.size
    · simp [new, earlier]
    · by_cases here : x = b
      · subst here
        simp [new, apart]
      · simp [new, here]

end Hang

/-- Hanging children under a bag that has none makes a chain of copies with one or two children
each. -/
theorem hang_spec (pending : List Nat) (even : d.Even) (inside : b < d.size)
    (childless : d.children b = []) (some_child : pending ≠ [])
    (small : ∀ child ∈ pending, child < d.size) (tree : (d.linkAll b pending).IsTree) :
    Grows (d.linkAll b pending) (d.hang b pending) ∧
      (∀ x < d.size, x ≠ b → (d.hang b pending).children x = d.children x) ∧
      ∀ x, x = b ∨ (d.size ≤ x ∧ x < (d.hang b pending).size) →
        (d.hang b pending).children x ≠ [] ∧
          ((d.hang b pending).children x).length ≤ arityLimit := by
  fun_induction hang d b pending with
  | case1 d b first second third rest linked ih =>
    have inserts := even.inserts_copy inside childless small tree
    have linked_even := even.link first b
    have earlier : d.size ≠ b := Nat.ne_of_gt inside
    have size : (linked.addBag b (linked.bag b)).size = d.size + 1 := size_addBag ..
    have children : ∀ x, (linked.addBag b (linked.bag b)).children x =
        if x = b then [first, d.size] else if x = d.size then [] else d.children x := by
      intro x
      refine (linked_even.children_addBag inside x).trans ?_
      rw [even.children_link inside, even.children_link inside, size_link, if_pos rfl, childless]
      by_cases here : x = b
      · rw [if_pos here, if_pos here]
        rfl
      · simp only [here, if_false]
    obtain ⟨grows, same, few⟩ := ih (linked_even.addBag b _) (by rw [size]; exact Nat.lt_succ_self _)
      ((children _).trans ((if_neg earlier).trans (if_pos rfl)))
      (List.cons_ne_nil _ _)
      (fun child member => by
        rw [size]
        exact Nat.lt_succ_of_lt (small child (List.mem_cons_of_mem _ member)))
      inserts.isTree
    refine ⟨(inserts.grows ?_ ?_).trans grows, fun x inside other => ?_, fun x place => ?_⟩
    · intro gate member
      rwa [bag_linkAll]
    · intro gate member child _ _
      rwa [bag_linkAll] at member
    · rw [same x (by rw [size]; exact Nat.lt_succ_of_lt inside) (Nat.ne_of_lt inside)]
      rw [children, if_neg other, if_neg (Nat.ne_of_lt inside)]
    · by_cases here : x = b
      · subst here
        rw [same x (by rw [size]; exact Nat.lt_succ_of_lt inside) (Ne.symm earlier)]
        rw [children, if_pos rfl]
        exact ⟨List.cons_ne_nil _ _, Nat.le_refl _⟩
      · obtain ⟨new, bound⟩ := place.resolve_left here
        refine few x ?_
        by_cases last : x = d.size
        · exact Or.inl last
        · exact Or.inr ⟨by omega, bound⟩
  | case2 d b few short =>
    refine ⟨Grows.refl tree, fun x _ other => ?_, fun x place => ?_⟩
    · exact (even.children_linkAll inside x).trans (if_neg other)
    · have size : (d.linkAll b few).size = d.size := size_linkAll
      have here : x = b := by
        refine place.resolve_right fun ⟨beyond, bound⟩ => ?_
        have bound : x < (d.linkAll b few).size := bound
        omega
      have children : (few.foldl (fun d child => d.link child b) d).children x = few := by
        refine (even.children_linkAll inside x).trans ?_
        rw [if_pos here, childless, List.nil_append]
      rw [children]
      refine ⟨some_child, ?_⟩
      match few, short with
      | [], _ => exact Nat.zero_le _
      | [_], _ => exact Nat.le_succ _
      | [_, _], _ => exact Nat.le_refl _
      | first :: second :: third :: rest, short => exact absurd rfl (short first second third rest)

/-- Spreading the children of a bag leaves it and the new bags with two at most, makes no leaves and
does not change the children of other bags. -/
theorem IsTree.spread_spec (tree : d.IsTree) (inside : b < d.size) :
    Grows d (d.spread b) ∧
      (∀ x < d.size, x ≠ b → (d.spread b).children x = d.children x) ∧
      (∀ x, x = b ∨ (d.size ≤ x ∧ x < (d.spread b).size) →
        ((d.spread b).children x).length ≤ arityLimit) ∧
      ∀ x < (d.spread b).size, (d.spread b).children x = [] → x < d.size ∧ d.children x = [] := by
  unfold spread
  simp only
  split
  · rename_i many
    have some_child : d.children b ≠ [] := by
      intro none
      simp [none] at many
    have same := tree.linkAll_clearChildren inside
    have spec := hang_spec (d.children b) (tree.even.clearChildren b) inside
      (by rw [children_clearChildren, if_pos rfl]) some_child (fun child => tree.child_lt)
      (by rwa [same])
    rw [same, size_clearChildren] at spec
    obtain ⟨grows, kept, few⟩ := spec
    have kept : ∀ x < d.size, x ≠ b →
        ((d.clearChildren b).hang b (d.children b)).children x = d.children x := by
      intro x small other
      rw [kept x small other, children_clearChildren, if_neg other]
    refine ⟨grows, kept, fun x place => (few x place).2, fun x bound none => ?_⟩
    by_cases new : x = b ∨ d.size ≤ x
    · exact absurd none (few x (new.imp_right fun beyond => ⟨beyond, bound⟩)).1
    · obtain ⟨other, old⟩ := not_or.1 new
      have small := Nat.lt_of_not_le old
      exact ⟨small, (kept x small other).symm.trans none⟩
  · rename_i few
    refine ⟨Grows.refl tree, fun _ _ _ => rfl, fun x place => ?_, fun x bound none => ⟨bound, none⟩⟩
    rcases place with rfl | ⟨beyond, bound⟩
    · exact Nat.le_of_not_lt few
    · exact absurd bound (Nat.not_lt.2 beyond)

/-- Spreading keeps the empty leaves. -/
theorem IsTree.emptyLeaf_spread (tree : d.IsTree) (inside : b < d.size) (x : Nat) :
    (d.spread b).EmptyLeaf x ↔ d.EmptyLeaf x := by
  obtain ⟨grows, kept, _, leaves⟩ := tree.spread_spec inside
  refine grows.emptyLeaf_iff (fun x small _ => ?_) (fun x bound new none => ?_) x
  · have larger := small.trans_le grows.size_le
    refine ⟨fun none => (leaves x larger none).2, fun none => ?_⟩
    by_cases here : x = b
    · subst here
      simp [spread, none]
    · rwa [kept x small here]
  · exact absurd (leaves x bound none).1 (Nat.not_lt.2 new)

/-- After the pass no bag has more than two children, and the empty leaves are those from before. -/
theorem IsTree.spread_all (tree : d.IsTree) :
    let d' := (List.range d.size).foldl spread d
    Grows d d' ∧ (∀ x < d'.size, (d'.children x).length ≤ arityLimit) ∧
      ∀ x, d'.EmptyLeaf x ↔ d.EmptyLeaf x := by
  intro d'
  have spread : Grows d d' ∧
      (∀ x < d'.size, x < d.size ∨ d.size ≤ x → (d'.children x).length ≤ arityLimit) ∧
      ∀ x, d'.EmptyLeaf x ↔ d.EmptyLeaf x := by
    refine foldl_range_induction (fun count d' => Grows d d' ∧
      (∀ x < d'.size, x < count ∨ d.size ≤ x → (d'.children x).length ≤ arityLimit) ∧
      ∀ x, d'.EmptyLeaf x ↔ d.EmptyLeaf x) ?_ ?_
    · refine ⟨Grows.refl tree, fun x bound place => ?_, fun x => Iff.rfl⟩
      omega
    · rintro b small d' ⟨grows, few, empty⟩
      have inside := Nat.lt_of_lt_of_le small grows.size_le
      obtain ⟨more, kept, here, _⟩ := grows.tree.spread_spec inside
      refine ⟨grows.trans more, fun x bound place => ?_, fun x =>
        (grows.tree.emptyLeaf_spread inside x).trans (empty x)⟩
      by_cases new : x = b ∨ d'.size ≤ x
      · exact here x (new.imp_right fun beyond => ⟨beyond, bound⟩)
      · obtain ⟨other, former⟩ := not_or.1 new
        rw [kept x (Nat.lt_of_not_le former) other]
        exact few x (Nat.lt_of_not_le former) (by omega)
  exact ⟨spread.1, fun x bound => spread.2.1 x bound (Nat.lt_or_ge x d.size), spread.2.2⟩

end Provenance.Decomposition
