import Provenance.Proofs.Circuit.Chance
import Provenance.Proofs.Circuit.Truth

/-!
# Chances with categorical variables

Beside independent inputs there are groups of alternatives, one for each key.  Each key selects at most one
alternative of its group, independently of the inputs and of the other keys: an alternative with its weight,
and none with what the weights leave (`selectionWeight`).  The likelihood of an event is the sum over the
selections of their weight times the chance of the event given the selection (`likelihood`).

The likelihood is computed key by key (`likelihood_insert`).  Events about different inputs and different
keys are independent (`likelihood_and`), and alternatives of one key exclude each other, so that their
weights add up (`likelihood_any`).
-/

namespace Provenance

open Circuit (World among)

/-- No two keys have a member in common. -/
def Apart (group : Nat → Finset Nat) : Prop := Pairwise fun key other => Disjoint (group key) (group other)

/-- A world in which some more variables are true. -/
def choosing (chosen : Finset Nat) (world : World) : World :=
  fun variable_ => world variable_ || decide (variable_ ∈ chosen)

/-- What the keys may select: at most one member of the group of each key. -/
def selections (group : Nat → Finset Nat) (keys : Finset Nat) : Finset (Finset Nat) :=
  {chosen ∈ (keys.biUnion group).powerset | ∀ key ∈ keys, (chosen ∩ group key).card ≤ 1}

/-- The probability that a key selects no member of its group. -/
def noneWeight (p : Nat → Rat) (group : Nat → Finset Nat) (key : Nat) : Rat :=
  1 - ∑ member ∈ group key, p member

/-- The probability of a selection: the weights of what is selected, and for the other keys the probability
that they select nothing. -/
def selectionWeight (p : Nat → Rat) (group : Nat → Finset Nat) (keys chosen : Finset Nat) : Rat :=
  (∏ member ∈ chosen, p member) * ∏ key ∈ keys with Disjoint chosen (group key), noneWeight p group key

/-- The probability of an event about inputs and about what the keys select. -/
def likelihood (p : Nat → Rat) (inputs : Finset Nat) (group : Nat → Finset Nat) (keys : Finset Nat)
    (event : World → Bool) : Rat :=
  ∑ chosen ∈ selections group keys, selectionWeight p group keys chosen *
    chance p inputs fun world => event (choosing chosen world)

variable {p : Nat → Rat} {V keys : Finset Nat} {group : Nat → Finset Nat} {e f : World → Bool} {key : Nat}

@[simp] theorem choosing_empty (world : World) : choosing ∅ world = world := by
  funext variable_
  simp [choosing]

theorem choosing_insert (member : Nat) (chosen : Finset Nat) (world : World) :
    choosing (insert member chosen) world = choosing {member} (choosing chosen world) := by
  funext variable_
  simp [choosing, Bool.or_left_comm, Bool.or_comm]

/-! ## One key after the other -/

theorem mem_selections {chosen : Finset Nat} : chosen ∈ selections group keys ↔
    chosen ⊆ keys.biUnion group ∧ ∀ key ∈ keys, (chosen ∩ group key).card ≤ 1 := by
  rw [selections, Finset.mem_filter, Finset.mem_powerset]

@[simp] theorem selections_empty : selections group ∅ = {∅} := by
  ext chosen
  simp [mem_selections]

@[simp] theorem likelihood_empty : likelihood p V group ∅ e = chance p V e := by
  simp [likelihood, selectionWeight]

section Insert

variable (apart : Apart group) (new : key ∉ keys)

include apart new

theorem disjoint_of_mem_keys {other : Nat} (listed : other ∈ keys) : Disjoint (group key) (group other) :=
  apart fun same => new (same ▸ listed)

/-- What other keys select has no member of the group. -/
theorem disjoint_of_mem_selections {chosen : Finset Nat} (member : chosen ∈ selections group keys) :
    Disjoint chosen (group key) := by
  refine Disjoint.mono_left (mem_selections.1 member).1 ?_
  rw [Finset.disjoint_biUnion_left]
  exact fun other listed => (disjoint_of_mem_keys apart new listed).symm

/-- One more key selects nothing, or one member of its group. -/
theorem selections_insert : selections group (insert key keys) = selections group keys ∪
    (group key).biUnion fun member => (selections group keys).image (insert member) := by
  ext chosen
  rw [Finset.mem_union, Finset.mem_biUnion]
  constructor
  · intro selected
    obtain ⟨inside, single⟩ := mem_selections.1 selected
    rw [Finset.biUnion_insert] at inside
    -- the part that other keys select
    have rest : chosen \ group key ∈ selections group keys := by
      refine mem_selections.2 ⟨fun member there => ?_, fun other listed => ?_⟩
      · obtain ⟨there, outside⟩ := Finset.mem_sdiff.1 there
        exact (Finset.mem_union.1 (inside there)).resolve_left outside
      · refine (Finset.card_le_card ?_).trans (single other (Finset.mem_insert_of_mem listed))
        exact Finset.inter_subset_inter_right Finset.sdiff_subset
    rcases Finset.eq_empty_or_nonempty (chosen ∩ group key) with none | ⟨member, there⟩
    · left
      rwa [Finset.sdiff_eq_self_of_disjoint (Finset.disjoint_iff_inter_eq_empty.2 none)] at rest
    · right
      obtain ⟨picked, belongs⟩ := Finset.mem_inter.1 there
      refine ⟨member, belongs, Finset.mem_image.2 ⟨_, rest, ?_⟩⟩
      have most := Finset.card_le_one.1 (single key (Finset.mem_insert_self key keys))
      have only : chosen ∩ group key = {member} :=
        Finset.eq_singleton_iff_unique_mem.2 ⟨there, fun other listed => most other listed member there⟩
      rw [Finset.insert_eq, ← only, Finset.union_comm, Finset.sdiff_union_inter]
  · rintro (selected | ⟨member, belongs, selected⟩)
    · obtain ⟨inside, single⟩ := mem_selections.1 selected
      refine mem_selections.2 ⟨inside.trans ?_, fun other listed => ?_⟩
      · exact Finset.biUnion_subset_biUnion_of_subset_left group (Finset.subset_insert key keys)
      · rcases Finset.mem_insert.1 listed with rfl | listed
        · rw [Finset.disjoint_iff_inter_eq_empty.1 (disjoint_of_mem_selections apart new selected)]
          exact Nat.zero_le 1
        · exact single other listed
    · obtain ⟨rest, others, rfl⟩ := Finset.mem_image.1 selected
      obtain ⟨inside, single⟩ := mem_selections.1 others
      refine mem_selections.2 ⟨Finset.insert_subset ?_ (inside.trans ?_), fun other listed => ?_⟩
      · exact Finset.mem_biUnion.2 ⟨key, Finset.mem_insert_self key keys, belongs⟩
      · exact Finset.biUnion_subset_biUnion_of_subset_left group (Finset.subset_insert key keys)
      · rcases Finset.mem_insert.1 listed with rfl | listed
        · rw [Finset.insert_inter_of_mem belongs,
            Finset.disjoint_iff_inter_eq_empty.1 (disjoint_of_mem_selections apart new others)]
          exact Nat.le_of_eq (Finset.card_singleton member)
        · have foreign : member ∉ group other :=
            Finset.disjoint_left.1 (disjoint_of_mem_keys apart new listed) belongs
          rw [Finset.insert_inter_of_notMem foreign]
          exact single other listed

theorem selectionWeight_insert_none {chosen : Finset Nat} (selected : chosen ∈ selections group keys) :
    selectionWeight p group (insert key keys) chosen =
      noneWeight p group key * selectionWeight p group keys chosen := by
  have free := disjoint_of_mem_selections apart new selected
  rw [selectionWeight, Finset.filter_insert, if_pos free, Finset.prod_insert (by simp [new]),
    selectionWeight]
  ring

theorem selectionWeight_insert_member {chosen : Finset Nat} {member : Nat} (belongs : member ∈ group key)
    (selected : chosen ∈ selections group keys) :
    selectionWeight p group (insert key keys) (insert member chosen) =
      p member * selectionWeight p group keys chosen := by
  have free := disjoint_of_mem_selections apart new selected
  have outside : member ∉ chosen := Finset.disjoint_right.1 free belongs
  have taken : ¬ Disjoint (insert member chosen) (group key) := fun disjoint =>
    Finset.disjoint_left.1 disjoint (Finset.mem_insert_self member chosen) belongs
  have others : {other ∈ keys | Disjoint (insert member chosen) (group other)} =
      {other ∈ keys | Disjoint chosen (group other)} := by
    refine Finset.filter_congr fun other listed => ?_
    have foreign : member ∉ group other :=
      Finset.disjoint_left.1 (disjoint_of_mem_keys apart new listed) belongs
    rw [Finset.disjoint_insert_left, and_iff_right foreign]
  rw [selectionWeight, Finset.filter_insert, if_neg taken, others, Finset.prod_insert outside,
    selectionWeight, mul_assoc]

/-- One more key selects nothing, or one member of its group with its weight. -/
theorem likelihood_insert : likelihood p V group (insert key keys) e =
    noneWeight p group key * likelihood p V group keys e +
      ∑ member ∈ group key, p member * likelihood p V group keys fun world => e (choosing {member} world) := by
  have outside : ∀ {chosen}, chosen ∈ selections group keys → ∀ member ∈ group key, member ∉ chosen :=
    fun selected _ belongs => Finset.disjoint_right.1 (disjoint_of_mem_selections apart new selected) belongs
  have split : Disjoint (selections group keys)
      ((group key).biUnion fun member => (selections group keys).image (insert member)) := by
    refine Finset.disjoint_left.2 fun chosen selected there => ?_
    obtain ⟨member, belongs, there⟩ := Finset.mem_biUnion.1 there
    obtain ⟨rest, _, rfl⟩ := Finset.mem_image.1 there
    exact outside selected member belongs (Finset.mem_insert_self member rest)
  have split' : ((group key : Finset Nat) : Set Nat).PairwiseDisjoint
      fun member => (selections group keys).image (insert member) := by
    intro member belongs other belongs' different
    refine Finset.disjoint_left.2 fun chosen left right => ?_
    obtain ⟨rest, _, rfl⟩ := Finset.mem_image.1 left
    obtain ⟨rest', selected', same⟩ := Finset.mem_image.1 right
    have there : member ∈ insert other rest' := same ▸ Finset.mem_insert_self member rest
    rcases Finset.mem_insert.1 there with equal | there
    · exact different equal
    · exact outside selected' member belongs there
  rw [likelihood, selections_insert apart new, Finset.sum_union split, Finset.sum_biUnion split', likelihood,
    Finset.mul_sum]
  refine congrArg₂ (· + ·) (Finset.sum_congr rfl fun chosen selected => ?_)
    (Finset.sum_congr rfl fun member belongs => ?_)
  · rw [selectionWeight_insert_none apart new selected, mul_assoc]
  · have injective : Set.InjOn (insert member) (selections group keys : Set (Finset Nat)) := by
      intro left inside right inside' same
      rw [← Finset.erase_insert (outside inside member belongs), same,
        Finset.erase_insert (outside inside' member belongs)]
    rw [Finset.sum_image injective, likelihood, Finset.mul_sum]
    refine Finset.sum_congr rfl fun chosen selected => ?_
    rw [selectionWeight_insert_member apart new belongs selected, mul_assoc]
    simp only [choosing_insert]

end Insert

/-! ## Events and their opposites -/

theorem likelihood_congr
    (same : ∀ N ⊆ V, ∀ chosen ∈ selections group keys,
      e (choosing chosen (among N)) = f (choosing chosen (among N))) :
    likelihood p V group keys e = likelihood p V group keys f := by
  refine Finset.sum_congr rfl fun chosen selected => congrArg _ ?_
  exact chance_congr fun N inside => same N inside chosen selected

/-- What depends on other variables does not see that one more is true. -/
theorem apply_choosing_of_dependsOn {s : Set Nat} (depends : DependsOn e s) {member : Nat}
    (foreign : member ∉ s) (world : World) : e (choosing {member} world) = e world := by
  refine depends fun i inside => ?_
  have different : i ≠ member := fun same => foreign (same ▸ inside)
  simp [choosing, different]

theorem dependsOn_choosing {s : Set Nat} (depends : DependsOn e s) (chosen : Finset Nat) :
    DependsOn (fun world => e (choosing chosen world)) s := by
  intro world world' same
  refine depends fun i inside => ?_
  simp [choosing, same i inside]

section Events

variable (apart : Apart group)

include apart

/-- A key that an event does not depend on can be left out. -/
theorem likelihood_insert_of_dependsOn (new : key ∉ keys) {s : Set Nat} (depends : DependsOn e s)
    (foreign : ∀ member ∈ group key, member ∉ s) :
    likelihood p V group (insert key keys) e = likelihood p V group keys e := by
  have others : ∑ member ∈ group key,
      p member * likelihood p V group keys (fun world => e (choosing {member} world)) =
        (∑ member ∈ group key, p member) * likelihood p V group keys e := by
    rw [Finset.sum_mul]
    refine Finset.sum_congr rfl fun member belongs => ?_
    simp only [apply_choosing_of_dependsOn depends (foreign member belongs)]
  rw [likelihood_insert apart new, others, noneWeight]
  ring

/-- An event that no key changes has its chance. -/
theorem likelihood_of_dependsOn {s : Set Nat} (depends : DependsOn e s)
    (foreign : ∀ key ∈ keys, ∀ member ∈ group key, member ∉ s) :
    likelihood p V group keys e = chance p V e := by
  induction keys using Finset.induction with
  | empty => exact likelihood_empty
  | insert key keys new ih =>
    rw [likelihood_insert_of_dependsOn apart new depends (foreign key (Finset.mem_insert_self key keys))]
    exact ih fun other listed => foreign other (Finset.mem_insert_of_mem listed)

theorem likelihood_true : likelihood p V group keys (fun _ => true) = 1 := by
  rw [likelihood_of_dependsOn apart (s := ∅) (fun _ _ _ => rfl) fun _ _ _ _ none => none, chance_true]

theorem likelihood_not :
    likelihood p V group keys (fun world => !e world) = 1 - likelihood p V group keys e := by
  have certain : likelihood p V group keys (fun _ => true) = 1 := likelihood_true apart
  rw [← certain, likelihood, likelihood, likelihood, ← Finset.sum_sub_distrib]
  refine Finset.sum_congr rfl fun chosen _ => ?_
  rw [chance_not, chance_true]
  ring

theorem likelihood_false : likelihood p V group keys (fun _ => false) = 0 := by
  have opposite : likelihood p V group keys (fun _ => !true) =
      1 - likelihood p V group keys fun _ => true := likelihood_not apart
  rwa [likelihood_true apart, sub_self] at opposite

/-! ## Events that depend on different variables -/

/-- A key of which one of two events does not know leaves them independent. -/
theorem likelihood_and_insert (new : key ∉ keys) {s t : Set Nat} (left : DependsOn e s)
    (right : DependsOn f t) (foreign : ∀ member ∈ group key, member ∉ s)
    (before : ∀ g : World → Bool, DependsOn g t → likelihood p V group keys (fun world => e world && g world) =
      likelihood p V group keys e * likelihood p V group keys g) :
    likelihood p V group (insert key keys) (fun world => e world && f world) =
      likelihood p V group (insert key keys) e * likelihood p V group (insert key keys) f := by
  rw [likelihood_insert_of_dependsOn apart new left foreign, likelihood_insert apart new,
    likelihood_insert apart new, before f right, mul_add, Finset.mul_sum]
  refine congrArg₂ (· + ·) (by ring) (Finset.sum_congr rfl fun member belongs => ?_)
  simp only [apply_choosing_of_dependsOn left (foreign member belongs)]
  rw [before _ (dependsOn_choosing right {member})]
  ring

/-- Events about different inputs and different keys are independent. -/
theorem likelihood_and {s t : Set Nat} (disjoint : Disjoint s t) (left : DependsOn e s)
    (right : DependsOn f t)
    (separate : ∀ key ∈ keys, (∀ member ∈ group key, member ∉ s) ∨ ∀ member ∈ group key, member ∉ t) :
    likelihood p V group keys (fun world => e world && f world) =
      likelihood p V group keys e * likelihood p V group keys f := by
  induction keys using Finset.induction generalizing e f with
  | empty =>
    rw [likelihood_empty, likelihood_empty, likelihood_empty]
    exact chance_and disjoint left right
  | insert key keys new ih =>
    have separate_rest := fun other listed => separate other (Finset.mem_insert_of_mem listed)
    rcases separate key (Finset.mem_insert_self key keys) with foreign | foreign
    · exact likelihood_and_insert apart new left right foreign fun g depends =>
        ih left depends separate_rest
    · have turned := likelihood_and_insert (p := p) (V := V) apart new right left foreign
        fun g depends => by
          simp only [Bool.and_comm (f _), ih depends right separate_rest, mul_comm]
      simpa only [Bool.and_comm (f _), mul_comm] using turned

/-- Alternatives of one key exclude each other, so their weights add up. -/
theorem likelihood_any (listed : key ∈ keys) {members : List Nat} (nodup : members.Nodup)
    (inside : ∀ member ∈ members, member ∈ group key) (noInput : ∀ member ∈ group key, member ∉ V) :
    likelihood p V group keys (fun world => members.any world) = (members.map p).sum := by
  have new : key ∉ keys.erase key := Finset.notMem_erase key keys
  -- without the key none of its members is true
  have untouched : ∀ N ⊆ V, ∀ chosen ∈ selections group (keys.erase key), ∀ member ∈ group key,
      choosing chosen (among N) member = false := by
    intro N subset chosen selected member belongs
    have off := Finset.disjoint_right.1 (disjoint_of_mem_selections apart new selected) belongs
    have out : member ∉ N := fun there => noInput member belongs (subset there)
    simp [choosing, among, off, out]
  have never : likelihood p V group (keys.erase key) (fun _ => false) = 0 := likelihood_false apart
  have certain : likelihood p V group (keys.erase key) (fun _ => true) = 1 := likelihood_true apart
  have none_ : likelihood p V group (keys.erase key) (fun world => members.any world) = 0 := by
    rw [← never]
    refine likelihood_congr fun N subset chosen selected => List.any_eq_false.2 fun member there => ?_
    simp [untouched N subset chosen selected member (inside member there)]
  have one : ∀ member ∈ group key, likelihood p V group (keys.erase key)
      (fun world => members.any (choosing {member} world)) = if member ∈ members then 1 else 0 := by
    intro member belongs
    split
    · rename_i there
      rw [← certain]
      refine likelihood_congr fun N _ chosen _ => List.any_eq_true.2 ⟨member, there, ?_⟩
      simp [choosing]
    · rename_i absent
      rw [← never]
      refine likelihood_congr fun N subset chosen selected => List.any_eq_false.2 fun other there => ?_
      have different : other ≠ member := fun same => absent (same ▸ there)
      have out := untouched N subset chosen selected other (inside other there)
      rw [choosing, out]
      simp [different]
  have picked : {member ∈ group key | member ∈ members} = members.toFinset := by
    ext member
    simpa using inside member
  rw [← Finset.insert_erase listed, likelihood_insert apart new, none_, mul_zero, zero_add,
    ← List.sum_toFinset p nodup, ← picked, Finset.sum_filter]
  refine Finset.sum_congr rfl fun member belongs => ?_
  rw [one member belongs, mul_ite, mul_one, mul_zero]

end Events

/-! ## A choice that is made by other inputs -/

/-- A choice is made by variables on which the events and the keys do not depend: then the likelihoods of
the events are weighed with those of the choices. -/
theorem likelihood_pick {ι : Type} [DecidableEq ι] (apart : Apart group) {choices : Finset ι}
    {pick : World → ι} (within : ∀ world, pick world ∈ choices) (events : ι → World → Bool)
    {s t : Set Nat} (disjoint : Disjoint s t) (left : DependsOn pick s)
    (right : ∀ choice ∈ choices, DependsOn (events choice) t)
    (foreign : ∀ key ∈ keys, ∀ member ∈ group key, member ∉ s) :
    likelihood p V group keys (fun world => events (pick world) world) =
      ∑ choice ∈ choices, chance p V (fun world => decide (pick world = choice)) *
        likelihood p V group keys (events choice) := by
  have picks : ∀ choice, DependsOn (fun world => decide (pick world = choice)) s :=
    fun choice _ _ same => congrArg (fun picked => decide (picked = choice)) (left same)
  have split : likelihood p V group keys (fun world => events (pick world) world) =
      ∑ choice ∈ choices, likelihood p V group keys fun world =>
        decide (pick world = choice) && events choice world := by
    simp only [likelihood]
    rw [Finset.sum_comm]
    refine Finset.sum_congr rfl fun chosen _ => ?_
    rw [← Finset.mul_sum, chance_partition fun world => within (choosing chosen world)]
    refine congrArg _ (Finset.sum_congr rfl fun choice _ => chance_congr fun N _ => ?_)
    by_cases picked : pick (choosing chosen (among N)) = choice
    · rw [picked]
    · simp [picked]
  rw [split]
  refine Finset.sum_congr rfl fun choice listed => ?_
  rw [likelihood_and apart disjoint (picks choice) (right choice listed)
      fun key member => Or.inl (foreign key member),
    likelihood_of_dependsOn apart (picks choice) foreign]

/-! ## Other data -/

/-- Inputs on which an event does not depend can be left out. -/
theorem likelihood_of_subset {A : Finset Nat} {s : Set Nat} (subset : V ⊆ A) (depends : DependsOn e s)
    (others : ∀ i ∈ A, i ∉ V → i ∉ s) : likelihood p A group keys e = likelihood p V group keys e := by
  refine Finset.sum_congr rfl fun chosen _ => congrArg _ ?_
  exact chance_of_subset subset (dependsOn_choosing depends chosen) others

/-- Only the probabilities of the inputs and of the members of the groups count. -/
theorem likelihood_congr_probs {p' : Nat → Rat} {group' : Nat → Finset Nat}
    (groups : ∀ key ∈ keys, group' key = group key) (probs : ∀ i ∈ V, p' i = p i)
    (weights : ∀ key ∈ keys, ∀ member ∈ group key, p' member = p member) :
    likelihood p' V group' keys e = likelihood p V group keys e := by
  have same : selections group' keys = selections group keys := by
    ext chosen
    rw [mem_selections, mem_selections, Finset.biUnion_congr rfl groups]
    exact and_congr_right fun _ => forall₂_congr fun key listed => by rw [groups key listed]
  have none_ : ∀ key ∈ keys, noneWeight p' group' key = noneWeight p group key := by
    intro key listed
    rw [noneWeight, noneWeight, groups key listed, Finset.sum_congr rfl (weights key listed)]
  rw [likelihood, same]
  refine Finset.sum_congr rfl fun chosen selected => ?_
  have inside := (mem_selections.1 selected).1
  have free : {key ∈ keys | Disjoint chosen (group' key)} = {key ∈ keys | Disjoint chosen (group key)} :=
    Finset.filter_congr fun key listed => by rw [groups key listed]
  rw [chance_congr_probs probs, selectionWeight, selectionWeight, free]
  refine congrArg (· * _) (congrArg₂ (· * ·) (Finset.prod_congr rfl fun member listed => ?_)
    (Finset.prod_congr rfl fun key listed => none_ key (Finset.mem_filter.1 listed).1))
  obtain ⟨key, there, belongs⟩ := Finset.mem_biUnion.1 (inside listed)
  exact weights key there member belongs

end Provenance
