import Provenance.Proofs.Decomposition.Collect

/-!
# Merging the entries of two parts

The entries of two parts that a bag joins are merged pair by pair.  A conjunction of gates is true in
the worlds that some assignment fits which both entries describe (`exists_fits_of_pair`).  The gates of
one group are exclusive: assignments that fit the whole and are described by one entry are the same, and
so are the entries of the parts that describe them (`Joins.alike_of_describes`).  So the disjunction of
a group means what its entry says (`gathers_of_collecting`, `Gathers.close_spec`), and all groups list
what fits the whole (`lists_merge`).
-/

namespace Provenance.Compilation

open Provenance.Circuit Provenance.Network

variable {α : Type} [Scalar α] {k : Compilation α}

/-! ## The pairs of two parts -/

/-- The pairs of entries whose suspicious gates are in the bag above. -/
def pairsOf (bag : GateSet) (left right : List Entry) : List (Entry × Entry) :=
  (left.filter (·.suspicious.isSubset bag)).flatMap fun e =>
    (right.filter (·.suspicious.isSubset bag)).map (e, ·)

theorem mem_pairsOf {bag : GateSet} {left right : List Entry} {pair : Entry × Entry} :
    pair ∈ pairsOf bag left right ↔
      (pair.1 ∈ left ∧ ∀ gate ∈ pair.1.suspicious, gate ∈ bag) ∧
        pair.2 ∈ right ∧ ∀ gate ∈ pair.2.suspicious, gate ∈ bag := by
  obtain ⟨e, e'⟩ := pair
  simp only [pairsOf, List.mem_flatMap, List.mem_map, List.mem_filter, GateSet.isSubset_iff]
  constructor
  · rintro ⟨e, first, e', second, same⟩
    cases same
    exact ⟨first, second⟩
  · rintro ⟨first, second⟩
    exact ⟨e, first, e', second, rfl⟩

/-- The nested loops of a merge go through the pairs. -/
theorem foldl_pairsOf {σ : Type} (step : Entry → σ → Entry → σ) (bag : GateSet)
    (left right : List Entry) (start : σ) :
    (left.filter (·.suspicious.isSubset bag)).foldl
        (fun state e => (right.filter (·.suspicious.isSubset bag)).foldl (step e) state) start =
      (pairsOf bag left right).foldl (fun state pair => step pair.1 state pair.2) start := by
  rw [pairsOf, List.foldl_flatMap]
  simp only [List.foldl_map]

section Merge

variable {root b : Nat} {left right whole : Part k} {start : Circuit α} {entries₁ entries₂ : List Entry}
  (ready : k.Ready root) (joins : Joins b left right whole) (grown : k.Grown start)
  (first : k.Lists start left entries₁) (second : k.Lists start right entries₂)

omit [Scalar α] in
include first second in
/-- No two pairs are alike in both entries. -/
theorem pairwise_pairsOf (bag : GateSet) : (pairsOf bag entries₁ entries₂).Pairwise fun pair pair' =>
    ¬ (Alike pair.1 pair'.1 ∧ Alike pair.2 pair'.2) := by
  refine List.pairwise_flatMap.2 ⟨fun e _ => ?_, ?_⟩
  · rw [List.pairwise_map]
    exact (second.distinct.sublist List.filter_sublist).imp fun apart alike => apart alike.2
  · refine (first.distinct.sublist List.filter_sublist).imp fun apart pair member pair' member' => ?_
    obtain ⟨_, _, rfl⟩ := List.mem_map.1 member
    obtain ⟨_, _, rfl⟩ := List.mem_map.1 member'
    exact fun alike => apart alike.1

omit [Scalar α] in
include ready joins grown first second in
theorem combinable_pairsOf : Combinable start (BagWires.of k.source (k.tree.bag b))
    (pairsOf (k.tree.bag b) entries₁ entries₂) where
  left_lt pair member := (first.means _ (mem_pairsOf.1 member).1.1).inside
  right_lt pair member := (second.means _ (mem_pairsOf.1 member).2.1).inside
  apart pair member input reads := by
    obtain ⟨a, leaf, found, in_left, same⟩ :=
      (first.means _ (mem_pairsOf.1 member).1.1).reads input reads.1
    obtain ⟨a', leaf', found', in_right, same'⟩ :=
      (second.means _ (mem_pairsOf.1 member).2.1).reads input reads.2
    obtain rfl := grown.injective a a' (ready.leaf a leaf found).1 (ready.leaf a' leaf' found').1
      (same.trans same'.symm)
    obtain rfl := Option.some.inj (found.symm.trans found')
    exact joins.apart leaf in_left in_right
  keys pair member pair' member' e e' made made' same := by
    obtain ⟨zero, proper⟩ := joins.proper_of_combine (first.means _ (mem_pairsOf.1 member).1.1).proper
      (second.means _ (mem_pairsOf.1 member).2.1).proper made
    obtain ⟨zero', proper'⟩ := joins.proper_of_combine
      (first.means _ (mem_pairsOf.1 member').1.1).proper
      (second.means _ (mem_pairsOf.1 member').2.1).proper made'
    obtain ⟨values, suspicious⟩ := proper.alike_of_key proper' same
    cases e
    cases e'
    simp_all

omit [Scalar α] in
include ready joins first second in
/-- Where the gates of a pair are both true some assignment fits the whole that both entries and the
one that they make describe. -/
theorem exists_fits_of_pair {pair : Entry × Entry}
    (member : pair ∈ pairsOf (k.tree.bag b) entries₁ entries₂) {e : Entry}
    (made : (BagWires.of k.source (k.tree.bag b)).combine? pair.1 pair.2 = some e) {world : World}
    (left_true : start.value world pair.1.gate = true)
    (right_true : start.value world pair.2.gate = true) :
    ∃ s, whole.Fits (k.pull world) s ∧ left.Describes s pair.1 ∧ right.Describes s pair.2 ∧
      whole.Describes s e := by
  obtain ⟨⟨listed₁, alive₁⟩, listed₂, alive₂⟩ := mem_pairsOf.1 member
  have means₁ := first.means _ listed₁
  have means₂ := second.means _ listed₂
  obtain ⟨s₁, fits₁, describes₁⟩ := (means₁.value world).1 left_true
  obtain ⟨s₂, fits₂, describes₂⟩ := (means₂.value world).1 right_true
  obtain ⟨s, same₁, same₂, respected, describes⟩ :=
    joins.exists_of_combine ready describes₁ describes₂ means₂.proper made
  have describes₁ := describes₁.of_same same₁
  have describes₂ := describes₂.of_same same₂
  refine ⟨s, ?_, describes₁, describes₂, describes⟩
  refine joins.fits_whole (fits₁.of_same same₁ ready) (fits₂.of_same same₂ ready) respected ?_ ?_
  · exact fun gate top doubtful => alive₁ gate ((describes₁.suspicious gate).2 ⟨top, doubtful⟩)
  · exact fun gate top doubtful => alive₂ gate ((describes₂.suspicious gate).2 ⟨top, doubtful⟩)

omit [Scalar α] in
include ready joins first second in
/-- What fits the whole is described by a pair that combines. -/
theorem exists_pair_of_fits {world : World} {s : Nat → Bool} (fits : whole.Fits world s) :
    ∃ pair ∈ pairsOf (k.tree.bag b) entries₁ entries₂, ∃ e,
      (BagWires.of k.source (k.tree.bag b)).combine? pair.1 pair.2 = some e ∧
        left.Describes s pair.1 ∧ right.Describes s pair.2 ∧ whole.Describes s e := by
  obtain ⟨e₁, listed₁, describes₁⟩ := first.complete world s (joins.fits_left fits)
  obtain ⟨e₂, listed₂, describes₂⟩ := second.complete world s (joins.symm.fits_left fits)
  obtain ⟨e, made, describes⟩ := (joins.combine_eq ready describes₁ describes₂
    (second.means e₂ listed₂).proper).1 (joins.respected fits)
  refine ⟨(e₁, e₂), mem_pairsOf.2 ⟨⟨listed₁, fun gate member => ?_⟩, listed₂, fun gate member => ?_⟩,
    e, made, describes₁, describes₂, describes⟩
  · obtain ⟨top, doubtful⟩ := (describes₁.suspicious gate).1 member
    exact joins.mem_bag_of_doubtful fits top doubtful
  · obtain ⟨top, doubtful⟩ := (describes₂.suspicious gate).1 member
    exact joins.symm.mem_bag_of_doubtful fits top doubtful

omit [Scalar α] in
include ready joins in
/-- Assignments that fit the whole and are described by one entry are described by the same entries of
the parts. -/
theorem Joins.alike_of_describes {world : World} {s s' : Nat → Bool} {e e₁ e₁' : Entry}
    (fits : whole.Fits world s) (fits' : whole.Fits world s') (describes : whole.Describes s e)
    (describes' : whole.Describes s' e) (describes₁ : left.Describes s e₁)
    (describes₁' : left.Describes s' e₁') (proper : left.Proper e₁) (proper' : left.Proper e₁') :
    Alike e₁ e₁' := by
  have agree : ∀ gate ∈ whole.top, s gate = s' gate := by
    intro gate member
    have value := describes.values gate
    rw [if_pos member, describes'.values gate, if_pos member, Option.some.injEq] at value
    exact value.symm
  have same : left.Same s' s := fun gate holds =>
    (fits.unique ready fits' agree gate (joins.holds_iff.2 (Or.inl holds))).symm
  exact describes₁.alike (describes₁'.of_same same) proper proper'

end Merge

/-! ## Groups -/

/-- Exclusive gates of which one is true when an assignment that the entry describes fits the part. -/
structure Gathers (k : Compilation α) (target : Circuit α) (part : Part k)
    (group : Entry × List Nat) : Prop where
  proper : part.Proper group.1
  some_gate : group.2 ≠ []
  inside : ∀ gate ∈ group.2, gate < target.size
  exclusive : target.Exclusive group.2
  value : ∀ world, (∃ gate ∈ group.2, target.value world gate = true) ↔
    ∃ s, part.Fits (k.pull world) s ∧ part.Describes s group.1
  reads : ∀ gate ∈ group.2, ∀ input, target.Reads gate input → part.Decides input

theorem Gathers.of_extends {target target' : Circuit α} {part : Part k} {group : Entry × List Nat}
    (gathers : Gathers k target part group) (sound : target.Sound)
    (extends_ : target.Extends target') (sound' : target'.Sound) : Gathers k target' part group := by
  have value := fun {gate} (listed : gate ∈ group.2) world =>
    extends_.value_eq sound.wellFormed sound'.wellFormed (gathers.inside gate listed) world
  refine
    { proper := gathers.proper
      some_gate := gathers.some_gate
      inside := fun gate listed => (gathers.inside gate listed).trans_le extends_.size_le
      exclusive := fun world => ?_
      value := fun world => ?_
      reads := fun gate listed input reads => ?_ }
  · refine (gathers.exclusive world).imp_of_mem fun left right apart => ?_
    rwa [value left, value right]
  · rw [← gathers.value world]
    exact exists_congr fun gate => and_congr_right fun listed => by rw [value listed]
  · rw [extends_.reads_iff sound.wellFormed (gathers.inside gate listed)] at reads
    exact gathers.reads gate listed input reads

section Groups

variable {root b : Nat} {left right whole : Part k} {start : Circuit α} {entries₁ entries₂ : List Entry}
  (ready : k.Ready root) (joins : Joins b left right whole)
  (first : k.Lists start left entries₁) (second : k.Lists start right entries₂)
  {state : Collected α} {made : List Made}
  (collecting : Collecting k start (BagWires.of k.source (k.tree.bag b))
    (pairsOf (k.tree.bag b) entries₁ entries₂) state made)

include ready joins first second collecting in
/-- Where the gate made for a pair is true an assignment fits the whole. -/
theorem exists_fits_of_made {m : Made} (member : m ∈ made) {world : World}
    (is_true : state.target.value world m.gate = true) :
    ∃ s, whole.Fits (k.pull world) s ∧ left.Describes s m.left ∧ right.Describes s m.right ∧
      whole.Describes s m.entry := by
  have listed := collecting.sublist.subset (List.mem_map_of_mem member)
  rw [collecting.value m member, Bool.and_eq_true] at is_true
  exact exists_fits_of_pair ready joins first second listed (collecting.combine m member)
    is_true.1 is_true.2

include ready joins first second collecting in
/-- The gates made for one entry are exclusive. -/
theorem exclusive_of_made (entry : Entry) :
    state.target.Exclusive ((made.filter (·.entry = entry)).map Made.gate) := by
  intro world
  have distinct := (pairwise_pairsOf first second (k.tree.bag b)).sublist collecting.sublist
  rw [List.pairwise_map] at distinct ⊢
  refine (distinct.sublist List.filter_sublist).imp_of_mem fun {m m'} member member' apart both => ?_
  obtain ⟨member, same⟩ := List.mem_filter.1 member
  obtain ⟨member', same'⟩ := List.mem_filter.1 member'
  have same : m.entry = entry := by simpa using same
  have same' : m'.entry = entry := by simpa using same'
  obtain ⟨⟨listed₁, _⟩, listed₂, _⟩ :=
    mem_pairsOf.1 (collecting.sublist.subset (List.mem_map_of_mem member))
  obtain ⟨⟨listed₁', _⟩, listed₂', _⟩ :=
    mem_pairsOf.1 (collecting.sublist.subset (List.mem_map_of_mem member'))
  obtain ⟨s, fits, describes₁, describes₂, describes⟩ :=
    exists_fits_of_made ready joins first second collecting member both.1
  obtain ⟨s', fits', describes₁', describes₂', describes'⟩ :=
    exists_fits_of_made ready joins first second collecting member' both.2
  rw [same] at describes
  rw [same'] at describes'
  refine apart ⟨?_, ?_⟩
  · exact joins.alike_of_describes ready fits fits' describes describes' describes₁ describes₁'
      (first.means _ listed₁).proper (first.means _ listed₁').proper
  · exact joins.symm.alike_of_describes ready fits fits' describes describes' describes₂ describes₂'
      (second.means _ listed₂).proper (second.means _ listed₂').proper

include ready joins first second collecting in
/-- What fits the whole is described by the entry of a pair that was made. -/
theorem exists_made_of_fits {world : World} {s : Nat → Bool} (fits : whole.Fits world s) :
    ∃ m ∈ made, left.Describes s m.left ∧ right.Describes s m.right ∧
      whole.Describes s m.entry := by
  obtain ⟨pair, listed, e, combined, describes₁, describes₂, describes⟩ :=
    exists_pair_of_fits ready joins first second fits
  obtain ⟨m, member, same_left, same_right⟩ := collecting.all pair listed e combined
  have made_entry := collecting.combine m member
  rw [same_left, same_right, combined, Option.some.injEq] at made_entry
  exact ⟨m, member, same_left ▸ describes₁, same_right ▸ describes₂, made_entry ▸ describes⟩

include ready joins first second collecting in
/-- A group gathers the gates for its entry. -/
theorem gathers_of_collecting {key : List Nat} {group : Entry × List Nat}
    (found : state.groups[key]? = some group) : Gathers k state.target whole group := by
  obtain ⟨entry, gates⟩ := group
  have spec := collecting.groups key
  rw [found] at spec
  obtain ⟨-, some_gate, gates_eq⟩ := spec
  have listed : ∀ gate, gate ∈ gates ↔ ∃ m ∈ made, m.entry = entry ∧ m.gate = gate := by
    intro gate
    rw [gates_eq]
    simp only [List.mem_map, List.mem_filter, decide_eq_true_eq, and_assoc]
  have proper : ∀ m ∈ made, m.entry.gate = 0 ∧ whole.Proper m.entry := by
    intro m member
    obtain ⟨⟨listed₁, _⟩, listed₂, _⟩ :=
      mem_pairsOf.1 (collecting.sublist.subset (List.mem_map_of_mem member))
    exact joins.proper_of_combine (first.means _ listed₁).proper (second.means _ listed₂).proper
      (collecting.combine m member)
  obtain ⟨some_m, some_member, rfl, _⟩ :=
    (listed _).1 (List.exists_mem_of_ne_nil gates some_gate).choose_spec
  refine
    { proper := (proper some_m some_member).2
      some_gate := some_gate
      inside := fun gate member => ?_
      exclusive := ?_
      value := fun world => ?_
      reads := fun gate member input reads => ?_ }
  · obtain ⟨m, of_made, _, rfl⟩ := (listed gate).1 member
    exact collecting.inside m of_made
  · show state.target.Exclusive gates
    rw [gates_eq]
    exact exclusive_of_made ready joins first second collecting _
  · constructor
    · rintro ⟨gate, member, is_true⟩
      obtain ⟨m, of_made, same, rfl⟩ := (listed gate).1 member
      obtain ⟨s, fits, _, _, describes⟩ :=
        exists_fits_of_made ready joins first second collecting of_made is_true
      exact ⟨s, fits, same ▸ describes⟩
    · rintro ⟨s, fits, describes⟩
      obtain ⟨m, member, describes₁, describes₂, describes'⟩ :=
        exists_made_of_fits ready joins first second collecting fits
      obtain ⟨⟨listed₁, _⟩, listed₂, _⟩ :=
        mem_pairsOf.1 (collecting.sublist.subset (List.mem_map_of_mem member))
      have same : m.entry = some_m.entry := by
        obtain ⟨zero, proper_m⟩ := proper m member
        obtain ⟨zero', proper_some⟩ := proper some_m some_member
        have alike : Alike m.entry some_m.entry := describes'.alike describes proper_m proper_some
        exact alike.eq (zero.trans zero'.symm)
      refine ⟨m.gate, (listed _).2 ⟨m, member, same, rfl⟩, ?_⟩
      rw [collecting.value m member, Bool.and_eq_true]
      exact ⟨((first.means _ listed₁).value world).2 ⟨s, joins.fits_left fits, describes₁⟩,
        ((second.means _ listed₂).value world).2 ⟨s, joins.symm.fits_left fits, describes₂⟩⟩
  · obtain ⟨m, of_made, _, rfl⟩ := (listed gate).1 member
    obtain ⟨⟨listed₁, _⟩, listed₂, _⟩ :=
      mem_pairsOf.1 (collecting.sublist.subset (List.mem_map_of_mem of_made))
    rcases collecting.reads m of_made input reads with reads | reads
    · obtain ⟨origin, leaf, found, inside, same⟩ := (first.means _ listed₁).reads input reads
      exact ⟨origin, leaf, found, (joins.mem_bags leaf).2 (Or.inr (Or.inl inside)), same⟩
    · obtain ⟨origin, leaf, found, inside, same⟩ := (second.means _ listed₂).reads input reads
      exact ⟨origin, leaf, found, (joins.mem_bags leaf).2 (Or.inr (Or.inr inside)), same⟩

end Groups

/-! ## Closing groups -/

/-- What tells the entries of a part apart. -/
def shape (e : Entry) : Valuation × GateSet := (e.valuation, e.suspicious)

theorem shape_eq_iff {e e' : Entry} : shape e = shape e' ↔ Alike e e' := Prod.mk.injEq .. ▸ Iff.rfl

section Close

variable {part : Part k}

/-- The entry of a group means what the group gathers. -/
theorem Gathers.close_spec {target : Circuit α} {group : Entry × List Nat} (grown : k.Grown target)
    (gathers : Gathers k target part group) :
    let (e, target') := close group target
    target.Extends target' ∧ k.Grown target' ∧ k.Means target' part e ∧ shape e = shape group.1 := by
  have alike : ∀ {s e}, Alike group.1 e → (part.Describes s group.1 ↔ part.Describes s e) :=
    fun alike => ⟨fun describes => describes.of_alike alike,
      fun describes => describes.of_alike ⟨alike.1.symm, alike.2.symm⟩⟩
  obtain ⟨entry, gates⟩ := group
  by_cases single : ∃ only, gates = [only]
  · obtain ⟨only, rfl⟩ := single
    refine ⟨.refl target, grown, ?_, rfl⟩
    refine
      { inside := gathers.inside only (by simp)
        proper := gathers.proper.of_alike ⟨rfl, rfl⟩
        value := fun world => ?_
        reads := gathers.reads only (by simp) }
    simpa [alike (e := { entry with gate := only }) ⟨rfl, rfl⟩] using gathers.value world
  · have closed : close (entry, gates) target =
        ({ entry with gate := (target.addNode .or gates).1 }, (target.addNode .or gates).2) := by
      unfold close
      split
      · rename_i only same
        cases same
        exact absurd ⟨_, rfl⟩ single
      · rename_i same
        cases same
        rfl
    rw [closed]
    have sound := grown.sound.addNode .or gathers.inside trivial
      (fun is_and => absurd is_and (by decide)) fun _ => gathers.exclusive
    have extends_ := Extends.addNode grown.sound.inStep .or gates
    refine ⟨extends_, grown.addNode (by decide) sound, ?_, rfl⟩
    refine
      { inside := ?_
        proper := gathers.proper.of_alike ⟨rfl, rfl⟩
        value := fun world => ?_
        reads := fun input reads => ?_ }
    · show target.size < _
      rw [size_addNode]
      exact Nat.lt_succ_self _
    · show Circuit.value _ world target.size = true ↔ _
      rw [grown.sound.value_addNode_or sound gathers.inside, List.any_eq_true, gathers.value world]
      simp only [alike (e := { entry with gate := (target.addNode .or gates).1 }) ⟨rfl, rfl⟩]
    · obtain ⟨gate, listed, reads⟩ :=
        (grown.sound.reads_addNode (by decide) gathers.inside).1 reads
      exact gathers.reads gate listed input reads

/-- The entries of several groups mean what these gather. -/
theorem closeAll_spec {groups : List (Entry × List Nat)} {target : Circuit α}
    (grown : k.Grown target) (gathers : ∀ group ∈ groups, Gathers k target part group) :
    let (entries, target') := closeAll groups target
    target.Extends target' ∧ k.Grown target' ∧ (∀ e ∈ entries, k.Means target' part e) ∧
      entries.map shape = groups.map fun group => shape group.1 := by
  induction groups generalizing target with
  | nil => exact ⟨.refl target, grown, fun _ member => absurd member List.not_mem_nil, rfl⟩
  | cons group groups ih =>
    obtain ⟨first, others⟩ := List.forall_mem_cons.1 gathers
    have head := first.close_spec grown
    rw [closeAll]
    generalize close group target = result at head
    obtain ⟨entry, middle⟩ := result
    obtain ⟨extends_, grown', means, same⟩ := head
    have rest := ih grown' fun group listed =>
      (others group listed).of_extends grown.sound extends_ grown'.sound
    simp only
    generalize closeAll groups middle = result at rest
    obtain ⟨entries, target'⟩ := result
    obtain ⟨extends_', grown'', all, shapes⟩ := rest
    refine ⟨extends_.trans extends_', grown'', fun e listed => ?_, ?_⟩
    · rcases List.mem_cons.1 listed with rfl | listed
      · exact means.of_extends grown'.sound extends_' grown''.sound
      · exact all e listed
    · rw [List.map_cons, List.map_cons, same, shapes]

end Close

/-! ## The whole merge -/

/-- The key of an entry is told by what tells entries apart. -/
def keyOf (shape : Valuation × GateSet) : List Nat :=
  shape.1.map (·.2.toNat) ++ shape.2.toList

/-- The merged entries of two parts that a bag joins list what fits the whole. -/
theorem lists_merge {root b : Nat} {left right whole : Part k} {start : Circuit α}
    {entries₁ entries₂ : List Entry} (ready : k.Ready root) (joins : Joins b left right whole)
    (grown : k.Grown start) (first : k.Lists start left entries₁)
    (second : k.Lists start right entries₂) :
    let (entries, target) := k.merge b entries₁ entries₂ start
    start.Extends target ∧ k.Grown target ∧ k.Lists target whole entries := by
  obtain ⟨made, collecting⟩ := exists_collecting grown
    (combinable_pairsOf ready joins grown first second)
  unfold Compilation.merge
  simp only [foldl_pairsOf]
  generalize (pairsOf (k.tree.bag b) entries₁ entries₂).foldl _ _ = state at collecting
  have gathers : ∀ group ∈ state.groups.toList.map (·.2), Gathers k state.target whole group := by
    intro group listed
    obtain ⟨⟨key, _⟩, member, rfl⟩ := List.mem_map.1 listed
    exact gathers_of_collecting ready joins first second collecting
      (Std.TreeMap.mem_toList_iff_getElem?_eq_some.1 member)
  have closed := closeAll_spec collecting.grown gathers
  generalize closeAll (state.groups.toList.map (·.2)) state.target = result at closed
  obtain ⟨entries, target⟩ := result
  obtain ⟨extends_, grown', means, shapes⟩ := closed
  refine ⟨collecting.extends_.trans extends_, grown', means, ?_, fun world s fits => ?_⟩
  · have nodup : (entries.map shape).Nodup := by
      rw [shapes, List.map_map]
      refine List.Nodup.of_map keyOf ?_
      rw [List.map_map]
      have keys : state.groups.toList.map (keyOf ∘ (fun group => shape group.1) ∘ fun pair => pair.2) =
          state.groups.keys := by
        rw [← Std.TreeMap.map_fst_toList_eq_keys]
        refine List.map_congr_left fun pair member => ?_
        obtain ⟨key, entry, gates⟩ := pair
        have spec := collecting.groups key
        rw [Std.TreeMap.mem_toList_iff_getElem?_eq_some.1 member] at spec
        exact spec.1
      rw [keys]
      exact Std.TreeMap.nodup_keys
    rw [List.Nodup, List.pairwise_map] at nodup
    exact nodup.imp fun different alike => different (shape_eq_iff.2 alike)
  · obtain ⟨m, member, _, _, describes⟩ :=
      exists_made_of_fits ready joins first second collecting fits
    have found := collecting.group (combinable_pairsOf ready joins grown first second) member
    have listed : shape m.entry ∈ entries.map shape := by
      have group := Std.TreeMap.mem_toList_iff_getElem?_eq_some.2 found
      rw [shapes]
      exact List.mem_map.2 ⟨_, List.mem_map.2 ⟨_, group, rfl⟩, rfl⟩
    obtain ⟨e, listed, same⟩ := List.mem_map.1 listed
    exact ⟨e, listed, describes.of_alike (shape_eq_iff.1 same.symm)⟩

end Provenance.Compilation
