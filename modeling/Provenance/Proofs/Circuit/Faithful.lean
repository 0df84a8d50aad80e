import Provenance.Proofs.Circuit.Expansion
import Provenance.Proofs.Circuit.Worlds

/-!
# The expansion of alternatives keeps likelihoods

The choice that decides among the alternatives of a key is independent of everything else, so a gate has
the likelihood that it had while the key selected the alternative (`Decides.likelihood_eq`).  Key after key
the alternatives disappear (`Settles`), and in the end the chance that the inputs give to a gate is its
likelihood before (`expandAlternatives_faithful`), which is what an enumeration of the worlds finds
(`possibleWorlds_expandAlternatives`).
-/

namespace Provenance.Circuit

open Provenance.Network

variable {c c' c'' : Circuit Rat} {group : List Nat} {key : Nat} {world : World}
  {pick : World → Option Nat}

/-! ## One key -/

/-- The world in which the alternatives of a group are as a choice says. -/
def choosingOf (group : List Nat) (pick : World → Option Nat) (world : World) : World :=
  fun gate => if gate ∈ group then decide (pick world = some gate) else world gate

namespace Decides

variable (decides : c.Decides group pick c')

include decides

theorem wellFormed (wellFormed : c.WellFormed) (expanded : c.Expanded group c') : c'.WellFormed :=
  ⟨decides.inStep, expanded.acyclic wellFormed.acyclic, expanded.within wellFormed.within⟩

/-- Gates are as they were when the choice tells which alternatives are true. -/
theorem takes_iff (wellFormed : c.WellFormed) (all : ∀ gate ∈ group, c.kind gate = .alternative)
    {gate : Nat} (small : gate < c.size) {value : Bool} :
    c'.Takes world gate value ↔ c.Takes (choosingOf group pick world) gate value := by
  have same : ∀ other < c.size, other ∉ group →
      c'.kind other = c.kind other ∧ c'.children other = c.children other ∧
        world other = choosingOf group pick world other ∧ ∀ child ∈ c.children other, child < c.size := by
    intro other inside outside
    refine ⟨?_, decides.children other inside outside, (if_neg outside).symm, wellFormed.within other⟩
    rw [decides.kind other inside, if_neg outside]
  have member : ∀ other ∈ group, c'.Takes world other (choosingOf group pick world other) ∧
      c.Takes (choosingOf group pick world) other (choosingOf group pick world other) := by
    intro other listed
    refine ⟨?_, .alternative (all other listed)⟩
    rw [choosingOf, if_pos listed]
    exact decides.takes world other listed
  constructor
  · intro takes
    refine takes.transfer {other | other < c.size} small fun other inside => ?_
    by_cases listed : other ∈ group
    · refine Or.inr fun value takes => ?_
      rw [takes.unique (member other listed).1]
      exact (member other listed).2
    · obtain ⟨kinds, children, worlds, below⟩ := same other inside listed
      exact Or.inl ⟨kinds.symm, children.symm, worlds.symm, fun child wire => below child (children ▸ wire)⟩
  · intro takes
    refine takes.transfer {other | other < c.size} small fun other inside => ?_
    by_cases listed : other ∈ group
    · refine Or.inr fun value takes => ?_
      rw [takes.unique (member other listed).2]
      exact (member other listed).1
    · exact Or.inl (same other inside listed)

theorem truth_eq (wellFormed : c.WellFormed) (all : ∀ gate ∈ group, c.kind gate = .alternative)
    {gate : Nat} (small : gate < c.size) :
    c'.truth world gate = c.truth (choosingOf group pick world) gate :=
  truth_congr fun _ => decides.takes_iff wellFormed all small

/-- Of the gates of the group at most one is true. -/
theorem exclusive {gate other : Nat} (listed : gate ∈ group) (listed' : other ∈ group)
    (both : c'.truth world gate = true ∧ c'.truth world other = true) : gate = other := by
  rw [(decides.takes world gate listed).truth_eq, (decides.takes world other listed').truth_eq] at both
  have first := of_decide_eq_true both.1
  rw [of_decide_eq_true both.2] at first
  exact (Option.some.inj first).symm

end Decides

/-! ## The keys that are left -/

section Left

variable (decides : c.Decides group pick c') (inStep : c.InStep)
  (members : ∀ gate, gate ∈ group ↔ gate ∈ c.alternativesOf key)

include decides inStep members

theorem Decides.mem_alternativesOf {gate other : Nat} :
    gate ∈ c'.alternativesOf other ↔ gate ∈ c.alternativesOf other ∧ other ≠ key := by
  rw [Circuit.mem_alternativesOf decides.inStep, Circuit.mem_alternativesOf inStep]
  rcases Nat.lt_or_ge gate c.size with small | new
  · rw [decides.kind gate small]
    by_cases listed : gate ∈ group
    · obtain ⟨_, keyed⟩ := (Circuit.mem_alternativesOf inStep).1 ((members gate).1 listed)
      rw [if_pos listed, keyed]
      constructor
      · exact fun is_and => absurd is_and.1 (by decide)
      · exact fun same => absurd (Option.some.inj same.1.2).symm same.2
    · rw [if_neg listed, decides.key? gate listed]
      constructor
      · intro there
        refine ⟨there, ?_⟩
        rintro rfl
        exact listed ((members gate).2 ((Circuit.mem_alternativesOf inStep).2 there))
      · exact And.left
  · have outside := decides.fresh gate new
    rw [kind_of_le new]
    simp [outside]

theorem Decides.keySet_eq : c'.keySet = c.keySet.erase key := by
  ext other
  rw [mem_keySet decides.inStep, Finset.mem_erase, mem_keySet inStep]
  simp only [decides.mem_alternativesOf inStep members]
  constructor
  · rintro ⟨gate, there, different⟩
    exact ⟨different, gate, there⟩
  · rintro ⟨different, gate, there⟩
    exact ⟨gate, there, different⟩

omit members in
/-- The inputs are the old ones and new gates. -/
theorem Decides.inputs (all : ∀ gate ∈ group, c.kind gate = .alternative) :
    c.inputs.toFinset ⊆ c'.inputs.toFinset ∧
      ∀ input ∈ c'.inputs.toFinset, input ∉ c.inputs.toFinset → c.size ≤ input := by
  refine ⟨fun input listed => ?_, fun input listed other => ?_⟩
  · have kind := (mem_inputs_toFinset inStep).1 listed
    have outside : input ∉ group := fun member => by
      rw [all input member] at kind
      exact absurd kind (by decide)
    rw [mem_inputs_toFinset decides.inStep, decides.kind input (lt_of_input kind), if_neg outside]
    exact kind
  · by_contra old
    have small := Nat.lt_of_not_le old
    have kind := (mem_inputs_toFinset decides.inStep).1 listed
    rw [decides.kind input small] at kind
    split at kind
    · exact absurd kind (by decide)
    · exact other ((mem_inputs_toFinset inStep).2 kind)

end Left

/-! ## Likelihoods -/

section Likelihood

variable (decides : c.Decides group pick c') (inStep : c.InStep)
  (members : ∀ gate, gate ∈ group ↔ gate ∈ c.alternativesOf key)

include decides

/-- The choice is one of the group, or none. -/
theorem Decides.pick_mem (members : ∀ gate, gate ∈ group ↔ gate ∈ c.alternativesOf key) (world : World) :
    pick world ∈ Finset.insertNone (c.alternativesOf key) := by
  rw [Finset.mem_insertNone]
  exact fun gate picked => (members gate).1 (decides.picks world gate picked)

/-- What the weights leave is the chance that there is no choice. -/
theorem Decides.chance_none (members : ∀ gate, gate ∈ group ↔ gate ∈ c.alternativesOf key) :
    Provenance.chance c'.prob c'.inputs.toFinset (fun world => decide (pick world = none)) =
      noneWeight c.prob c.alternativesOf key := by
  have all := chance_partition (p := c'.prob) (V := c'.inputs.toFinset) (e := fun _ => true)
    (decides.pick_mem members)
  simp only [Bool.and_true] at all
  rw [chance_true, Finset.sum_insertNone,
    Finset.sum_congr rfl fun gate listed => decides.chance gate ((members gate).2 listed)] at all
  rw [noneWeight, all, add_sub_cancel_right]

/-- The likelihoods of events that new inputs do not change are those in the circuit before, where the key
is left out. -/
theorem Decides.likelihood_old (inStep : c.InStep)
    (members : ∀ gate, gate ∈ group ↔ gate ∈ c.alternativesOf key) {event : World → Bool}
    (depends : DependsOn event {gate | gate < c.size}) :
    Provenance.likelihood c'.prob c'.inputs.toFinset c'.alternativesOf (c.keySet.erase key) event =
      Provenance.likelihood c.prob c.inputs.toFinset c.alternativesOf (c.keySet.erase key) event := by
  have all : ∀ gate ∈ group, c.kind gate = .alternative := fun gate listed =>
    kind_of_mem_alternativesOf inStep ((members gate).1 listed)
  obtain ⟨subset, new⟩ := decides.inputs inStep all
  rw [likelihood_of_subset subset depends fun input listed other old =>
    absurd old (Nat.not_lt_of_le (new input listed other))]
  refine likelihood_congr_probs (fun other listed => ?_) (fun input listed => ?_)
    fun other listed gate member => ?_
  · ext gate
    rw [decides.mem_alternativesOf inStep members]
    exact and_iff_left (Finset.ne_of_mem_erase listed)
  · have kind := (mem_inputs_toFinset inStep).1 listed
    refine decides.prob input (lt_of_input kind) fun there => ?_
    rw [all input there] at kind
    exact absurd kind (by decide)
  · obtain ⟨kind, keyed⟩ := (Circuit.mem_alternativesOf inStep).1 member
    refine decides.prob gate (lt_of_alternative kind) fun there => ?_
    obtain ⟨_, keyed'⟩ := (Circuit.mem_alternativesOf inStep).1 ((members gate).1 there)
    exact Finset.ne_of_mem_erase listed (Option.some.inj (keyed.symm.trans keyed'))

/-- In a world that tells nothing of the group the choice adds what it picks. -/
theorem Decides.choosingOf_eq (untouched : ∀ gate ∈ group, world gate = false) :
    choosingOf group pick world = choosing (pick world).toFinset world := by
  funext gate
  rw [choosingOf, choosing]
  split
  · rename_i listed
    simp [untouched gate listed]
  · rename_i outside
    have other : gate ∉ (pick world).toFinset := fun picked =>
      outside (decides.picks world gate (Option.mem_toFinset.1 picked))
    simp [other]

/-- The gates keep their likelihoods. -/
theorem Decides.likelihood_eq (wellFormed : c.WellFormed)
    (members : ∀ gate, gate ∈ group ↔ gate ∈ c.alternativesOf key) (present : key ∈ c.keySet)
    {gate : Nat} (small : gate < c.size) : c'.likelihood gate = c.likelihood gate := by
  have inStep := wellFormed.inStep
  have all : ∀ gate ∈ group, c.kind gate = .alternative := fun gate listed =>
    kind_of_mem_alternativesOf inStep ((members gate).1 listed)
  have depends : DependsOn (fun world => c.truth world gate) {gate | gate < c.size} :=
    (c.dependsOn_truth gate).mono fun leaf path => wellFormed.inside small leaf path
  have off : ∀ other ∈ c.keySet.erase key, ∀ member ∈ c'.alternativesOf other,
      member ∉ {gate | c.size ≤ gate} := by
    intro other _ member listed new
    exact decides.fresh member new (kind_of_mem_alternativesOf decides.inStep listed)
  -- where the world tells of inputs and of other keys only, the choice makes the difference
  have picked : ∀ N ⊆ c'.inputs.toFinset, ∀ chosen ∈ selections c'.alternativesOf (c.keySet.erase key),
      c'.truth (choosing chosen (among N)) gate =
        c.truth (choosing (pick (choosing chosen (among N))).toFinset (choosing chosen (among N))) gate := by
    intro N inside chosen selected
    rw [decides.truth_eq wellFormed all small, decides.choosingOf_eq]
    intro member listed
    have kind : c'.kind member = .and := by
      rw [decides.kind member (lt_of_alternative (all member listed)), if_pos listed]
    have noInput : member ∉ N := fun there => by
      rw [(mem_inputs_toFinset decides.inStep).1 (inside there)] at kind
      exact absurd kind (by decide)
    have unchosen : member ∉ chosen := fun there => by
      obtain ⟨_, _, there⟩ := Finset.mem_biUnion.1 ((mem_selections.1 selected).1 there)
      rw [kind_of_mem_alternativesOf decides.inStep there] at kind
      exact absurd kind (by decide)
    simp [choosing, among, noInput, unchosen]
  rw [likelihood, decides.keySet_eq inStep members,
    likelihood_congr (f := fun world => c.truth (choosing (pick world).toFinset world) gate) picked,
    likelihood_pick (apart_alternativesOf c') (decides.pick_mem members)
    (fun choice world => c.truth (choosing choice.toFinset world) gate)
    (Set.disjoint_left.2 fun _ new old => Nat.not_lt_of_le new old) decides.dependsOn
    (fun choice _ => dependsOn_choosing depends choice.toFinset) off]
  have before : c.likelihood gate = Provenance.likelihood c.prob c.inputs.toFinset c.alternativesOf
      (insert key (c.keySet.erase key)) fun world => c.truth world gate := by
    rw [likelihood, Finset.insert_erase present]
  rw [before, likelihood_insert (apart_alternativesOf c) (Finset.notMem_erase key c.keySet),
    Finset.sum_insertNone, decides.chance_none members]
  simp only [decides.likelihood_old inStep members (dependsOn_choosing depends _)]
  refine congrArg₂ (· + ·) ?_ (Finset.sum_congr rfl fun member listed => ?_)
  · simp
  · rw [decides.chance member ((members member).2 listed)]
    simp

end Likelihood

/-! ## All keys -/

/-- The alternatives have keys and weights that are not negative, and the weights of a key add up to one or
leave something. -/
structure Weighted (c : Circuit Rat) : Prop where
  keyed : ∀ gate, c.kind gate = .alternative → ∃ key, c.key? gate = some key
  nonneg : ∀ gate, c.kind gate = .alternative → 0 ≤ c.prob gate
  clear : ∀ key ∈ c.keySet, ClearTotal (∑ gate ∈ c.alternativesOf key, c.prob gate)

/-- The alternatives of some keys have been expanded. -/
structure Settles (c : Circuit Rat) (keys : Finset Nat) (c' : Circuit Rat) : Prop where
  wellFormed : c'.WellFormed
  size_le : c.size ≤ c'.size
  kept : ∀ gate < c.size, c.kind gate ≠ .alternative → c'.kind gate = c.kind gate ∧
    c'.children gate = c.children gate ∧ c'.name? gate = c.name? gate ∧ c'.prob gate = c.prob gate
  mem_alternativesOf : ∀ gate key,
    gate ∈ c'.alternativesOf key ↔ gate ∈ c.alternativesOf key ∧ key ∉ keys
  keyed : ∀ gate, c'.kind gate = .alternative → ∃ key, c'.key? gate = some key
  weight : ∀ key ∉ keys, ∀ gate ∈ c.alternativesOf key, c'.prob gate = c.prob gate
  exclusive : ∀ world, ∀ key ∈ keys, ∀ gate ∈ c.alternativesOf key, ∀ other ∈ c.alternativesOf key,
    c'.truth world gate = true ∧ c'.truth world other = true → gate = other
  likelihood : ∀ gate < c.size, c'.likelihood gate = c.likelihood gate

/-- The weight of the members of a set, listed in any order. -/
theorem sum_map_eq {members : Finset Nat} (nodup : group.Nodup) (listed : ∀ gate, gate ∈ group ↔ gate ∈ members)
    (weight : Nat → Rat) : (group.map weight).sum = ∑ gate ∈ members, weight gate := by
  have same : group.toFinset = members := by
    ext gate
    rw [List.mem_toFinset, listed]
  rw [← same, List.sum_toFinset weight nodup]

namespace Settles

theorem start (wellFormed : c.WellFormed) (weighted : c.Weighted) : c.Settles ∅ c where
  wellFormed := wellFormed
  size_le := Nat.le_refl _
  kept _ _ _ := ⟨rfl, rfl, rfl, rfl⟩
  mem_alternativesOf _ key := (and_iff_left (Finset.notMem_empty key)).symm
  keyed := weighted.keyed
  weight _ _ _ _ := rfl
  exclusive _ key none := absurd none (Finset.notMem_empty key)
  likelihood _ _ := rfl

/-- One more key is expanded. -/
theorem step {keys : Finset Nat} (settles : c.Settles keys c') (inStep : c.InStep)
    (weighted : c.Weighted) (present : key ∈ c.keySet) (new : key ∉ keys) (nodup : group.Nodup)
    (members : ∀ gate, gate ∈ group ↔ gate ∈ c.alternativesOf key) :
    c.Settles (insert key keys) (c'.expandGroup group) := by
  have members' : ∀ gate, gate ∈ group ↔ gate ∈ c'.alternativesOf key := fun gate => by
    rw [members, settles.mem_alternativesOf, and_iff_left new]
  have inStep' := settles.wellFormed.inStep
  have all : ∀ gate ∈ group, c.kind gate = .alternative := fun gate listed =>
    kind_of_mem_alternativesOf inStep ((members gate).1 listed)
  have all' : ∀ gate ∈ group, c'.kind gate = .alternative := fun gate listed =>
    kind_of_mem_alternativesOf inStep' ((members' gate).1 listed)
  obtain ⟨first, first_member⟩ := (mem_keySet inStep).1 present
  have some_gate : group ≠ [] := List.ne_nil_of_mem ((members first).2 first_member)
  have present' : key ∈ c'.keySet :=
    (mem_keySet inStep').2 ⟨first, (members' first).1 ((members first).2 first_member)⟩
  have weight : ∀ gate ∈ group, c'.prob gate = c.prob gate := fun gate listed =>
    settles.weight key new gate ((members gate).1 listed)
  have total : (group.map c'.prob).sum = ∑ gate ∈ c.alternativesOf key, c.prob gate := by
    rw [List.map_congr_left weight, sum_map_eq nodup members]
  obtain ⟨pick, decides⟩ := exists_decides inStep' some_gate nodup all'
    (fun gate listed => (weight gate listed).symm ▸ weighted.nonneg gate (all gate listed))
    (total ▸ weighted.clear key present)
  have expanded := (Expanded.start inStep').expandGroup some_gate all'
  have untouched : ∀ gate, c.kind gate ≠ .alternative → gate ∉ group := fun gate other listed =>
    other (all gate listed)
  refine
    { wellFormed := decides.wellFormed settles.wellFormed expanded
      size_le := settles.size_le.trans decides.size_le
      kept := fun gate small other => ?_
      mem_alternativesOf := fun gate other => ?_
      keyed := fun gate kind => ?_
      weight := fun other outside gate member => ?_
      exclusive := fun world other listed gate member gate' member' both => ?_
      likelihood := fun gate small => ?_ }
  · obtain ⟨kind, children, name, prob⟩ := settles.kept gate small other
    have small := small.trans_le settles.size_le
    have outside := untouched gate other
    rw [decides.kind gate small, if_neg outside, decides.children gate small outside,
      decides.name? gate small, decides.prob gate small outside]
    exact ⟨kind, children, name, prob⟩
  · rw [decides.mem_alternativesOf inStep' members', settles.mem_alternativesOf, Finset.mem_insert]
    tauto
  · have small : gate < c'.size := Nat.lt_of_not_le fun outside => decides.fresh gate outside kind
    rw [decides.kind gate small] at kind
    split at kind
    · exact absurd kind (by decide)
    · rename_i outside
      rw [decides.key? gate outside]
      exact settles.keyed gate kind
  · obtain ⟨different, outside⟩ := not_or.1 (mt Finset.mem_insert.2 outside)
    have kind := kind_of_mem_alternativesOf inStep member
    rw [decides.prob gate ((lt_of_alternative kind).trans_le settles.size_le) fun listed => ?_]
    · exact settles.weight other outside gate member
    · exact Finset.disjoint_left.1 (apart_alternativesOf c different) member ((members gate).1 listed)
  · rcases Finset.mem_insert.1 listed with rfl | listed
    · exact decides.exclusive ((members gate).2 member) ((members gate').2 member') both
    · have small : ∀ {gate}, gate ∈ c.alternativesOf other → gate < c'.size := fun member =>
        (lt_of_alternative (kind_of_mem_alternativesOf inStep member)).trans_le settles.size_le
      rw [decides.truth_eq settles.wellFormed all' (small member),
        decides.truth_eq settles.wellFormed all' (small member')] at both
      exact settles.exclusive _ other listed gate member gate' member' both
  · rw [decides.likelihood_eq settles.wellFormed members' present' (small.trans_le settles.size_le),
      settles.likelihood gate small]

end Settles

/-- The alternatives of a key, as they are listed. -/
def keyGroup (c : Circuit Rat) (key : Nat) : List Nat :=
  c.alternatives.toList.filter (c.key? · == some key)

theorem mem_keyGroup (c : Circuit Rat) (key gate : Nat) :
    gate ∈ c.keyGroup key ↔ gate ∈ c.alternativesOf key := by
  rw [keyGroup, List.mem_filter, alternativesOf, Finset.mem_filter, beq_iff_eq]
  exact Iff.rfl

/-- Where all alternatives have keys there is one group for each key. -/
theorem exists_keys (inStep : c.InStep)
    (keyed : ∀ gate, c.kind gate = .alternative → ∃ key, c.key? gate = some key) :
    ∃ keys : List Nat, keys.Nodup ∧ keys.toFinset = c.keySet ∧ c.keyGroups = keys.map c.keyGroup := by
  refine ⟨(GateSet.ofList (c.alternatives.toList.filterMap c.key?)).toList,
    GateSet.nodup_toList _, ?_, ?_⟩
  · ext key
    rw [List.mem_toFinset, ← GateSet.mem_def, GateSet.mem_ofList, keySet, List.mem_toFinset]
  · have none : c.alternatives.toList.filter (c.key? · |>.isNone) = [] := by
      refine List.filter_eq_nil_iff.2 fun gate listed => ?_
      obtain ⟨key, found⟩ := keyed gate ((inStep.alternatives gate).1 listed)
      simp [found]
    rw [keyGroups, none]
    rfl

theorem settles_foldl (wellFormed : c.WellFormed) (weighted : c.Weighted) {rest : List Nat}
    (nodup : rest.Nodup) {done : Finset Nat} (new : ∀ key ∈ rest, key ∈ c.keySet ∧ key ∉ done)
    (settles : c.Settles done c') :
    c.Settles (done ∪ rest.toFinset) ((rest.map c.keyGroup).foldl Circuit.expandGroup c') := by
  induction rest generalizing done c' with
  | nil => simpa using settles
  | cons key rest ih =>
    obtain ⟨first, nodup⟩ := List.nodup_cons.1 nodup
    obtain ⟨present, outside⟩ := new key List.mem_cons_self
    have step := settles.step wellFormed.inStep weighted present outside
      (c.alternatives.nodup_toList.filter _) (c.mem_keyGroup key)
    rw [List.toFinset_cons, ← Finset.insert_union_comm, List.map_cons, List.foldl_cons]
    refine ih nodup (fun other listed => ?_) step
    obtain ⟨present, outside⟩ := new other (List.mem_cons_of_mem key listed)
    refine ⟨present, fun member => ?_⟩
    rcases Finset.mem_insert.1 member with rfl | member
    · exact first listed
    · exact outside member

theorem settles_expandAlternatives (wellFormed : c.WellFormed) (weighted : c.Weighted) :
    c.Settles c.keySet c.expandAlternatives := by
  obtain ⟨keys, nodup, all, groups⟩ := exists_keys wellFormed.inStep weighted.keyed
  have settles := settles_foldl wellFormed weighted nodup
    (fun key listed => ⟨all ▸ List.mem_toFinset.2 listed, Finset.notMem_empty key⟩)
    (Settles.start wellFormed weighted)
  rwa [Finset.empty_union, all, ← groups] at settles

theorem Settles.boolean (settles : c.Settles c.keySet c') (inStep : c.InStep) (gate : Nat) :
    c'.kind gate ≠ .alternative := by
  intro kind
  obtain ⟨key, keyed⟩ := settles.keyed gate kind
  have member := (Circuit.mem_alternativesOf settles.wellFormed.inStep).2 ⟨kind, keyed⟩
  obtain ⟨former, absent⟩ := (settles.mem_alternativesOf gate key).1 member
  exact absent ((mem_keySet inStep).2 ⟨gate, former⟩)

/-- The expansion leaves no alternative and keeps the other gates; in each world at most one former
alternative of a key is true, and the chance of each gate is its likelihood before. -/
theorem expandAlternatives_faithful (wellFormed : c.WellFormed) (weighted : c.Weighted) :
    (∀ gate, c.expandAlternatives.kind gate ≠ .alternative) ∧
    (∀ gate < c.size, c.kind gate ≠ .alternative →
      c.expandAlternatives.kind gate = c.kind gate ∧
      c.expandAlternatives.children gate = c.children gate ∧
      c.expandAlternatives.name? gate = c.name? gate ∧
      c.expandAlternatives.prob gate = c.prob gate) ∧
    (∀ world key, ∀ gate ∈ c.alternativesOf key, ∀ other ∈ c.alternativesOf key,
      c.expandAlternatives.truth world gate = true ∧ c.expandAlternatives.truth world other = true →
        gate = other) ∧
    ∀ gate < c.size, Provenance.chance c.expandAlternatives.prob c.expandAlternatives.inputs.toFinset
      (fun world => c.expandAlternatives.truth world gate) = c.likelihood gate := by
  have settles := settles_expandAlternatives wellFormed weighted
  have boolean := settles.boolean wellFormed.inStep
  refine ⟨boolean, settles.kept, fun world key gate member => ?_, fun gate small => ?_⟩
  · exact settles.exclusive world key ((mem_keySet wellFormed.inStep).2 ⟨gate, member⟩) gate member
  · rw [← settles.likelihood gate small, likelihood_of_boolean settles.wellFormed.inStep boolean]

theorem weighted_choicePair : choicePair.Weighted where
  keyed gate kind := by
    have keys : ∀ gate < 3, choicePair.kind gate = .alternative → ∃ key, choicePair.key? gate = some key :=
      fun gate small kind => ⟨7, by revert gate; decide⟩
    exact keys gate (lt_of_alternative kind) kind
  nonneg gate kind := by
    have weights : ∀ gate < 3, 0 ≤ choicePair.prob gate := by decide +kernel
    exact weights gate (lt_of_alternative kind)
  clear key listed := by
    have keys : choicePair.keySet = {7} := by decide
    have members : choicePair.alternativesOf 7 = {0, 1} := by decide
    have first : choicePair.prob 0 = 1 / 10 := rfl
    have second : choicePair.prob 1 = 3 / 10 := rfl
    have tolerance : (Scalar.tolerance : Rat) = 1 / 1000000000 := rfl
    obtain rfl := Finset.mem_singleton.1 (keys ▸ listed)
    rw [members, Finset.sum_pair (by decide), first, second]
    refine Or.inr ⟨by norm_num, ?_⟩
    rw [tolerance]
    norm_num

/-- Weights that leave something: the disjunction of both alternatives keeps its likelihood. -/
theorem expandAlternatives_faithful_choicePair :
    choicePair.WellFormed ∧ choicePair.Weighted ∧
      Provenance.chance choicePair.expandAlternatives.prob choicePair.expandAlternatives.inputs.toFinset
        (fun world => choicePair.expandAlternatives.truth world 2) = choicePair.likelihood 2 :=
  ⟨wellFormed_choicePair, weighted_choicePair,
    (expandAlternatives_faithful wellFormed_choicePair weighted_choicePair).2.2.2 2 (by decide)⟩

/-- Enumerating the worlds of the expansion finds the likelihood of a gate before. -/
theorem possibleWorlds_expandAlternatives (wellFormed : c.WellFormed) (weighted : c.Weighted)
    (others : ∀ gate < c.size, c.kind gate ≠ .alternative → c.Evaluable gate) {root : Nat}
    (inside : root < c.size) {budget : Budget} {p : Rat}
    (found : c.expandAlternatives.possibleWorlds root budget = .ok p) : p = c.likelihood root := by
  have settles := settles_expandAlternatives wellFormed weighted
  have inStep := settles.wellFormed.inStep
  have formula := settles.wellFormed.isFormula
    (fun gate => evaluable_expandAlternatives wellFormed.inStep others) (inside.trans_le settles.size_le)
  rw [possibleWorlds_eq_chance inStep formula found,
    ← likelihood_eq_chance inStep (settles.boolean wellFormed.inStep) formula]
  exact settles.likelihood root inside

end Provenance.Circuit
