import Provenance.Proofs.Decomposition.Target

/-!
# Collecting pairs of entries

Each pair of entries that combines gets the conjunction of its gates, and the gates of the pairs that
make one entry are collected in order in one group (`Collecting`).  One more pair keeps this
(`Collecting.collect`), so it holds when all pairs are through (`exists_collecting`).
-/

namespace Provenance.Compilation

open Provenance.Circuit Provenance.Network

variable {α : Type} [Scalar α] {k : Compilation α}

/-! ## One conjunction -/

/-- A conjunction of gates that read different inputs, without the constant true. -/
theorem Grown.conjoin_spec {target : Circuit α} (grown : k.Grown target) {left right : Nat}
    (left_lt : left < target.size) (right_lt : right < target.size)
    (apart : ∀ input, ¬ (target.Reads left input ∧ target.Reads right input)) :
    let (gate, target') := k.conjoin target left right
    target.Extends target' ∧ k.Grown target' ∧ gate < target'.size ∧
      (∀ world, target'.value world gate =
        (target.value world left && target.value world right)) ∧
      ∀ input, target'.Reads gate input → target.Reads left input ∨ target.Reads right input := by
  have value := fun world => grown.value_truth world
  by_cases left_truth : left = k.truth
  · subst left_truth
    by_cases right_truth : right = k.truth
    · subst right_truth
      simp only [conjoin, bne_self_eq_false, Bool.false_eq_true, not_false_eq_true,
        List.filter_cons_of_neg, List.filter_nil]
      exact ⟨.refl target, grown, right_lt, fun world => by rw [value world]; rfl, fun input => Or.inl⟩
    · simp only [conjoin, List.filter_cons, bne_self_eq_false, Bool.false_eq_true, if_false,
        bne_iff_ne, ne_eq, right_truth, not_false_eq_true, if_true, List.filter_nil]
      exact ⟨.refl target, grown, right_lt, fun world => by rw [value world, Bool.true_and],
        fun input => Or.inr⟩
  · by_cases right_truth : right = k.truth
    · subst right_truth
      simp only [conjoin, List.filter_cons, bne_self_eq_false, Bool.false_eq_true, if_false,
        bne_iff_ne, ne_eq, left_truth, not_false_eq_true, if_true, List.filter_nil]
      exact ⟨.refl target, grown, left_lt, fun world => by rw [value world, Bool.and_true],
        fun input => Or.inl⟩
    · have parts : [left, right].filter (· != k.truth) = [left, right] := by
        simp [left_truth, right_truth]
      have inside : ∀ child ∈ [left, right], child < target.size := by
        simp [left_lt, right_lt]
      have sound := grown.sound.addNode .and inside trivial
        (fun _ => List.pairwise_pair.2 apart) (fun is_or => absurd is_or (by decide))
      have extends_ := Extends.addNode grown.sound.inStep .and [left, right]
      simp only [conjoin, parts]
      refine ⟨extends_, grown.addNode (by decide) sound, ?_, fun world => ?_, fun input reads => ?_⟩
      · rw [size_addNode, addNode_fst]
        exact Nat.lt_succ_self _
      · rw [addNode_fst, grown.sound.value_addNode_and sound inside]
        simp
      · rw [addNode_fst, grown.sound.reads_addNode (by decide) inside] at reads
        simpa using reads

/-! ## All pairs -/

/-- A pair of entries, the entry that it makes, and the conjunction of its gates. -/
structure Made where
  left : Entry
  right : Entry
  entry : Entry
  gate : Nat

/-- The group of a key has the gates that were made for its entry, in order. -/
def Grouped (groups : Std.TreeMap (List Nat) (Entry × List Nat)) (made : List Made) : Prop :=
  ∀ key, match groups[key]? with
    | none => ∀ m ∈ made, m.entry.key ≠ key
    | some (entry, gates) => entry.key = key ∧ gates ≠ [] ∧
        gates = (made.filter (·.entry = entry)).map Made.gate

section Grouped

variable {groups : Std.TreeMap (List Nat) (Entry × List Nat)} {made : List Made} {key : List Nat}
  {entry : Entry} {gates : List Nat}

/-- The entry of a group was made. -/
theorem Grouped.exists_made (grouped : Grouped groups made) (found : groups[key]? = some (entry, gates)) :
    ∃ m ∈ made, m.entry = entry := by
  have spec := grouped key
  rw [found] at spec
  obtain ⟨_, some_gate, gates_eq⟩ := spec
  obtain ⟨gate, listed⟩ := List.exists_mem_of_ne_nil gates some_gate
  rw [gates_eq] at listed
  obtain ⟨m, filtered, _⟩ := List.mem_map.1 listed
  obtain ⟨member, entry_eq⟩ := List.mem_filter.1 filtered
  exact ⟨m, member, of_decide_eq_true entry_eq⟩

/-- When no other entry with its key is made, an entry finds the gates made for it. -/
theorem Grouped.getD_eq (grouped : Grouped groups made)
    (apart : ∀ m ∈ made, m.entry.key = entry.key → m.entry = entry) :
    (groups[entry.key]?.map (·.2)).getD [] = (made.filter (·.entry = entry)).map Made.gate := by
  have spec := grouped entry.key
  cases found : groups[entry.key]? with
  | none =>
    rw [found] at spec
    have none_made : made.filter (·.entry = entry) = [] := by
      refine List.filter_eq_nil_iff.2 fun m member => ?_
      have other := spec m member
      simp only [decide_eq_true_eq]
      rintro rfl
      exact other rfl
    simp [none_made]
  | some group =>
    obtain ⟨former, gates⟩ := group
    obtain ⟨m, member, rfl⟩ := grouped.exists_made found
    rw [found] at spec
    obtain ⟨key_eq, _, gates_eq⟩ := spec
    rw [← apart m member key_eq]
    exact gates_eq

/-- A gate made for an entry goes to the end of the group of the entry. -/
theorem Grouped.insert (grouped : Grouped groups made) (m : Made)
    (apart : ∀ m' ∈ made, m'.entry.key = m.entry.key → m'.entry = m.entry) :
    Grouped (groups.insert m.entry.key
      (m.entry, (groups[m.entry.key]?.map (·.2)).getD [] ++ [m.gate])) (made ++ [m]) := by
  intro key
  rw [Std.TreeMap.getElem?_insert]
  simp only [Std.compare_eq_iff_eq]
  by_cases same : m.entry.key = key
  · rw [if_pos same]
    refine ⟨same, List.append_ne_nil_of_right_ne_nil _ (List.cons_ne_nil _ _), ?_⟩
    rw [List.filter_append, List.map_append, grouped.getD_eq apart]
    simp
  · rw [if_neg same]
    have spec := grouped key
    cases found : groups[key]? with
    | none =>
      rw [found] at spec
      intro m' member
      rcases List.mem_append.1 member with member | last
      · exact spec m' member
      · rw [List.mem_singleton.1 last]
        exact same
    | some group =>
      obtain ⟨former, gates⟩ := group
      rw [found] at spec
      obtain ⟨key_eq, some_gate, gates_eq⟩ := spec
      refine ⟨key_eq, some_gate, ?_⟩
      have other : m.entry ≠ former := by
        rintro rfl
        exact same key_eq
      rw [List.filter_append, List.map_append, gates_eq]
      simp [other]

end Grouped

/-- Pairs whose gates read different inputs, and that make one entry for each key. -/
structure Combinable (start : Circuit α) (wires : BagWires) (pairs : List (Entry × Entry)) : Prop where
  left_lt : ∀ pair ∈ pairs, pair.1.gate < start.size
  right_lt : ∀ pair ∈ pairs, pair.2.gate < start.size
  apart : ∀ pair ∈ pairs, ∀ input, ¬ (start.Reads pair.1.gate input ∧ start.Reads pair.2.gate input)
  keys : ∀ pair ∈ pairs, ∀ pair' ∈ pairs, ∀ e e', wires.combine? pair.1 pair.2 = some e →
    wires.combine? pair'.1 pair'.2 = some e' → e.key = e'.key → e = e'

/-- What holds when some of the pairs are collected: what was made of them, and how it is grouped. -/
structure Collecting (k : Compilation α) (start : Circuit α) (wires : BagWires)
    (pairs : List (Entry × Entry)) (state : Collected α) (made : List Made) : Prop where
  extends_ : start.Extends state.target
  grown : k.Grown state.target
  sublist : (made.map fun m => (m.left, m.right)).Sublist pairs
  combine : ∀ m ∈ made, wires.combine? m.left m.right = some m.entry
  all : ∀ pair ∈ pairs, ∀ e, wires.combine? pair.1 pair.2 = some e →
    ∃ m ∈ made, m.left = pair.1 ∧ m.right = pair.2
  inside : ∀ m ∈ made, m.gate < state.target.size
  value : ∀ m ∈ made, ∀ world, state.target.value world m.gate =
    (start.value world m.left.gate && start.value world m.right.gate)
  reads : ∀ m ∈ made, ∀ input, state.target.Reads m.gate input →
    start.Reads m.left.gate input ∨ start.Reads m.right.gate input
  groups : Grouped state.groups made

theorem collecting_start {start : Circuit α} (grown : k.Grown start) (wires : BagWires) :
    Collecting k start wires [] ⟨start, ∅⟩ [] where
  extends_ := .refl start
  grown := grown
  sublist := List.Sublist.slnil
  combine _ member := absurd member List.not_mem_nil
  all _ member := absurd member List.not_mem_nil
  inside _ member := absurd member List.not_mem_nil
  value _ member := absurd member List.not_mem_nil
  reads _ member := absurd member List.not_mem_nil
  groups key := by
    simp

section Collect

variable {start : Circuit α} {wires : BagWires} {pairs : List (Entry × Entry)} {state : Collected α}
  {made : List Made}

/-- The group of a made entry is that entry with the gates made for it. -/
theorem Collecting.group (collecting : Collecting k start wires pairs state made)
    (combinable : Combinable start wires pairs) {m : Made} (member : m ∈ made) :
    state.groups[m.entry.key]? =
      some (m.entry, (made.filter (·.entry = m.entry)).map Made.gate) := by
  have listed : ∀ {m}, m ∈ made → (m.left, m.right) ∈ pairs := fun member =>
    collecting.sublist.subset (List.mem_map_of_mem member)
  have spec := collecting.groups m.entry.key
  cases found : state.groups[m.entry.key]? with
  | none =>
    rw [found] at spec
    exact absurd rfl (spec m member)
  | some group =>
    obtain ⟨entry, gates⟩ := group
    obtain ⟨m', member', rfl⟩ := collecting.groups.exists_made found
    rw [found] at spec
    obtain ⟨same, _, gates_eq⟩ := spec
    have unique : m'.entry = m.entry := combinable.keys _ (listed member') _ (listed member) _ _
      (collecting.combine m' member') (collecting.combine m member) same
    rw [← unique, ← gates_eq]

omit [Scalar α] in
theorem Combinable.mono {more : List (Entry × Entry)} (combinable : Combinable start wires more)
    (subset : ∀ pair ∈ pairs, pair ∈ more) : Combinable start wires pairs where
  left_lt pair member := combinable.left_lt pair (subset pair member)
  right_lt pair member := combinable.right_lt pair (subset pair member)
  apart pair member := combinable.apart pair (subset pair member)
  keys pair member pair' member' := combinable.keys pair (subset pair member) pair' (subset pair' member')

/-- A pair that makes no entry changes nothing. -/
theorem Collecting.skip {pair : Entry × Entry} (combined : wires.combine? pair.1 pair.2 = none)
    (collecting : Collecting k start wires pairs state made) :
    Collecting k start wires (pairs ++ [pair]) state made :=
  { collecting with
    sublist := collecting.sublist.trans (List.sublist_append_left ..)
    all := by
      intro pair' member e made_e
      rcases List.mem_append.1 member with member | last
      · exact collecting.all pair' member e made_e
      · rw [List.mem_singleton.1 last, combined] at made_e
        cases made_e }

/-- Collecting one more pair keeps what holds. -/
theorem Collecting.collect (sound : start.Sound) {pair : Entry × Entry}
    (combinable : Combinable start wires (pairs ++ [pair]))
    (collecting : Collecting k start wires pairs state made) :
    ∃ made, Collecting k start wires (pairs ++ [pair]) (k.collect wires pair.1 state pair.2) made := by
  have old : ∀ pair' ∈ pairs, pair' ∈ pairs ++ [pair] := fun _ => List.mem_append_left _
  have new : pair ∈ pairs ++ [pair] := by simp
  cases combined : wires.combine? pair.1 pair.2 with
  | none =>
    refine ⟨made, ?_⟩
    simp only [Compilation.collect, combined]
    exact collecting.skip combined
  | some entry =>
    have left_lt := combinable.left_lt pair new
    have right_lt := combinable.right_lt pair new
    have sound' := collecting.grown.sound
    have extends_ := collecting.extends_
    have spec := collecting.grown.conjoin_spec
      (left_lt.trans_le extends_.size_le) (right_lt.trans_le extends_.size_le)
      (fun input reads => combinable.apart pair new input
        ⟨(extends_.reads_iff sound.wellFormed left_lt).1 reads.1, (extends_.reads_iff sound.wellFormed right_lt).1 reads.2⟩)
    simp only [Compilation.collect, combined]
    generalize k.conjoin state.target pair.1.gate pair.2.gate = result at spec
    obtain ⟨gate, target⟩ := result
    obtain ⟨more, grown, gate_lt, value, reads⟩ := spec
    have apart : ∀ m ∈ made, m.entry.key = entry.key → m.entry = entry := by
      intro m member same
      have listed := old _ (collecting.sublist.subset (List.mem_map_of_mem member))
      exact combinable.keys _ listed pair new _ _ (collecting.combine m member) combined same
    refine ⟨made ++ [⟨pair.1, pair.2, entry, gate⟩], ?_⟩
    refine
      { extends_ := extends_.trans more
        grown := grown
        sublist := ?sublist
        combine := ?combine
        all := ?all
        inside := ?inside
        value := ?value
        reads := ?reads
        groups := collecting.groups.insert ⟨pair.1, pair.2, entry, gate⟩ apart }
    case sublist =>
      rw [List.map_append]
      exact collecting.sublist.append (List.Sublist.refl _)
    case combine =>
      intro m member
      rcases List.mem_append.1 member with member | last
      · exact collecting.combine m member
      · rw [List.mem_singleton.1 last]
        exact combined
    case all =>
      intro pair' member e made_e
      rcases List.mem_append.1 member with member | last
      · obtain ⟨m, listed, sides⟩ := collecting.all pair' member e made_e
        exact ⟨m, List.mem_append_left _ listed, sides⟩
      · rw [List.mem_singleton.1 last]
        exact ⟨_, List.mem_append_right _ (List.mem_singleton.2 rfl), rfl, rfl⟩
    case inside =>
      intro m member
      rcases List.mem_append.1 member with member | last
      · exact (collecting.inside m member).trans_le more.size_le
      · rw [List.mem_singleton.1 last]
        exact gate_lt
    case value =>
      intro m member world
      rcases List.mem_append.1 member with member | last
      · rw [more.value_eq sound'.wellFormed grown.sound.wellFormed (collecting.inside m member), collecting.value m member]
      · rw [List.mem_singleton.1 last, value, extends_.value_eq sound.wellFormed sound'.wellFormed left_lt,
          extends_.value_eq sound.wellFormed sound'.wellFormed right_lt]
    case reads =>
      intro m member input there
      rcases List.mem_append.1 member with member | last
      · rw [more.reads_iff sound'.wellFormed (collecting.inside m member)] at there
        exact collecting.reads m member input there
      · rw [List.mem_singleton.1 last] at there ⊢
        exact (reads input there).imp (extends_.reads_iff sound.wellFormed left_lt).1
          (extends_.reads_iff sound.wellFormed right_lt).1

/-- What holds when all pairs are collected. -/
theorem exists_collecting (grown : k.Grown start) (combinable : Combinable start wires pairs) :
    ∃ made, Collecting k start wires pairs
      (pairs.foldl (fun state pair => k.collect wires pair.1 state pair.2) ⟨start, ∅⟩) made := by
  induction pairs using List.reverseRecOn with
  | nil => exact ⟨[], collecting_start grown wires⟩
  | append_singleton pairs pair ih =>
    obtain ⟨made, collecting⟩ := ih (combinable.mono fun _ => List.mem_append_left _)
    rw [List.foldl_append]
    exact collecting.collect grown.sound combinable

end Collect

end Provenance.Compilation
