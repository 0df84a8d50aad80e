import Provenance.Decomposition.Text
import Provenance.Proofs.Decomposition.Parents
import Provenance.Proofs.Outcome
import Provenance.Proofs.Text.Numbers

/-!
# Decompositions as lists of numbers

What the reader takes off a list of numbers is said as an equation between lists: numbers, a bag with its
gates, its parent and its children, and the bags of a whole decomposition (`takeNumbers_eq_ok`,
`takeBag_eq_ok`, `takeBags_eq_ok`).  A list of parents has a root when exactly one of them is its own
(`findRoot_eq_ok`).  So a list of numbers is read when it begins with bags whose parents make a tree
(`ofNumbers_eq_ok`), and all that is read is a tree (`isTree_ofNumbers`).  A text is read when the numbers are
that it is laid out as (`ofText_eq_ok`).
-/

namespace Provenance.Decomposition

open Provenance.Outcome

/-! ## Taking numbers -/

section Taking

variable {what : String} {numbers rest : List Nat}

theorem takeNumber_eq_ok {number : Nat} :
    takeNumber what numbers = .ok (number, rest) ↔ numbers = number :: rest := by
  cases numbers with
  | nil => simp [takeNumber]
  | cons first others => simp [takeNumber]

theorem takeNumbers_eq_ok {count : Nat} {taken : List Nat} :
    takeNumbers what count numbers = .ok (taken, rest) ↔ numbers = taken ++ rest ∧ taken.length = count := by
  induction count generalizing numbers rest taken with
  | zero =>
    simp only [takeNumbers, Except.ok.injEq, Prod.mk.injEq, List.length_eq_zero_iff]
    constructor
    · rintro ⟨rfl, rfl⟩
      exact ⟨rfl, rfl⟩
    · rintro ⟨rfl, rfl⟩
      exact ⟨rfl, rfl⟩
  | succ count ih =>
    simp only [takeNumbers, bind_eq_ok, Prod.exists, takeNumber_eq_ok, ih, Except.ok.injEq, Prod.mk.injEq]
    constructor
    · rintro ⟨first, _, rfl, others, _, ⟨rfl, length⟩, rfl, rfl⟩
      exact ⟨rfl, by simp [length]⟩
    · rintro ⟨rfl, length⟩
      obtain ⟨first, others, rfl⟩ := List.exists_of_length_succ taken length
      exact ⟨first, others ++ rest, rfl, others, rest, ⟨rfl, by simpa using length⟩, rfl, rfl⟩

/-- The numbers of a bag. -/
def bagNumbers (b : Nat) (gates : List Nat) (parent : Nat) (children : List Nat) : List Nat :=
  [b, gates.length] ++ gates ++ [parent, children.length] ++ children

/-- What is taken as a bag are its number, its gates, its parent and its children. -/
theorem takeBag_eq_ok {b parent : Nat} {bag : GateSet} :
    takeBag b numbers = .ok ((bag, parent), rest) ↔
      ∃ gates children, numbers = bagNumbers b gates parent children ++ rest ∧ bag = .ofList gates := by
  simp only [takeBag, bind_eq_ok, Prod.exists, takeNumber_eq_ok, takeNumbers_eq_ok, require_eq_ok,
    beq_iff_eq, Except.ok.injEq, Prod.mk.injEq, exists_const, bagNumbers]
  constructor
  · rintro ⟨id, _, rfl, rfl, size, _, rfl, gates, _, ⟨rfl, rfl⟩, above, _, rfl, count, _, rfl, children, _,
      ⟨rfl, rfl⟩, ⟨rfl, rfl⟩, rfl⟩
    exact ⟨gates, children, by simp, rfl⟩
  · rintro ⟨gates, children, rfl, rfl⟩
    refine ⟨b, _, by simp only [List.cons_append, List.append_assoc]; rfl, rfl, gates.length, _, rfl, gates, _,
      ⟨rfl, rfl⟩, parent, _, rfl, children.length, _, rfl, children, _, ⟨rfl, rfl⟩, ⟨rfl, rfl⟩, rfl⟩

/-- What a text says of a bag. -/
structure BagRecord where
  gates : List Nat
  parent : Nat
  children : List Nat

/-- What is kept of a record: the set of its gates and its parent. -/
def BagRecord.kept (record : BagRecord) : GateSet × Nat := (.ofList record.gates, record.parent)

/-- The numbers of bags, the first of which is the bag `b`. -/
def recordNumbers (b : Nat) : List BagRecord → List Nat
  | [] => []
  | record :: records =>
    bagNumbers b record.gates record.parent record.children ++ recordNumbers (b + 1) records

/-- What is taken as bags are the numbers of records; what stands behind them is not looked at. -/
theorem takeBags_eq_ok {count b : Nat} {bags : List (GateSet × Nat)} :
    takeBags count b numbers = .ok bags ↔ ∃ records extra, records.length = count ∧
      numbers = recordNumbers b records ++ extra ∧ bags = records.map BagRecord.kept := by
  induction count generalizing b numbers bags with
  | zero =>
    simp only [takeBags, Except.ok.injEq]
    constructor
    · rintro rfl
      exact ⟨[], numbers, rfl, rfl, rfl⟩
    · rintro ⟨records, extra, none_, -, rfl⟩
      rw [List.length_eq_zero_iff.1 none_, List.map_nil]
  | succ count ih =>
    simp only [takeBags, bind_eq_ok, Prod.exists, Except.ok.injEq, takeBag_eq_ok, ih]
    constructor
    · rintro ⟨_, parent, _, ⟨gates, children, rfl, rfl⟩, _, ⟨records, extra, rfl, rfl, rfl⟩, rfl⟩
      exact ⟨⟨gates, parent, children⟩ :: records, extra, rfl, by rw [recordNumbers, List.append_assoc], rfl⟩
    · rintro ⟨records, extra, length, rfl, rfl⟩
      obtain ⟨record, records, rfl⟩ := List.exists_of_length_succ records length
      exact ⟨_, record.parent, _, ⟨record.gates, record.children, by rw [recordNumbers, List.append_assoc], rfl⟩,
        _, ⟨records, extra, Nat.succ.inj length, rfl, rfl⟩, rfl⟩

/-- The gates of records, and how many each record has, are among their numbers. -/
theorem mem_recordNumbers {b : Nat} {records : List BagRecord} {record : BagRecord} (listed : record ∈ records) :
    (∀ gate ∈ record.gates, gate ∈ recordNumbers b records) ∧ record.gates.length ∈ recordNumbers b records := by
  induction records generalizing b with
  | nil => exact absurd listed List.not_mem_nil
  | cons first records ih =>
    rw [recordNumbers]
    rcases List.mem_cons.1 listed with rfl | listed
    · exact ⟨fun gate member => by simp [bagNumbers, member], by simp [bagNumbers]⟩
    · obtain ⟨gates, length⟩ := ih (b := b + 1) listed
      exact ⟨fun gate member => List.mem_append_right _ (gates gate member), List.mem_append_right _ length⟩

/-- The numbers of records that are made for bags one after the other. -/
theorem recordNumbers_map (record : Nat → BagRecord) (b count : Nat) :
    recordNumbers b ((List.range' b count).map record) = (List.range' b count).flatMap fun b =>
      bagNumbers b (record b).gates (record b).parent (record b).children := by
  induction count generalizing b with
  | zero => rfl
  | succ count ih => rw [List.range'_succ, List.map_cons, recordNumbers, ih, List.flatMap_cons]

end Taking

/-! ## The root -/

/-- A root is found when all parents are there and one bag, in front or among the pairs, is its own parent. -/
theorem findRoot_pairs_eq_ok {count found : Nat} {pairs : List (Nat × Nat)} {root : Option Nat} :
    findRoot count pairs root = .ok found ↔ (∀ pair ∈ pairs, pair.1 < count) ∧
      root.toList ++ (pairs.filter fun pair => pair.1 = pair.2).map Prod.snd = [found] := by
  induction pairs generalizing root with
  | nil =>
    rw [findRoot, ofOption_eq_ok]
    cases root <;> simp
  | cons pair pairs ih =>
    obtain ⟨parent, b⟩ := pair
    simp only [findRoot, bind_eq_ok, require_eq_ok, decide_eq_true_eq, exists_const, List.forall_mem_cons,
      List.filter_cons, and_assoc]
    refine and_congr_right fun _ => ?_
    by_cases own : parent = b
    · cases root with
      | none => simp [own, ih]
      | some other => simp [own]
    · simp [own, ih]

/-- A list of parents has a root when all parents are there and one bag is its own parent. -/
theorem findRoot_eq_ok {parents : List Nat} {root : Nat} :
    findRoot parents.length parents.zipIdx none = .ok root ↔
      (∀ parent ∈ parents, parent < parents.length) ∧ ∀ b, parents[b]? = some b ↔ b = root := by
  have owns : ∀ b, b ∈ (parents.zipIdx.filter fun pair => pair.1 = pair.2).map Prod.snd ↔
      parents[b]? = some b := by
    intro b
    simp only [List.mem_map, List.mem_filter, decide_eq_true_eq, Prod.exists, List.mem_zipIdx_iff_getElem?]
    constructor
    · rintro ⟨parent, _, ⟨found, rfl⟩, rfl⟩
      exact found
    · exact fun found => ⟨b, b, ⟨found, rfl⟩, rfl⟩
  have sorted : ((parents.zipIdx.filter fun pair => pair.1 = pair.2).map Prod.snd).Pairwise (· < ·) := by
    refine List.Pairwise.sublist (List.filter_sublist.map Prod.snd) ?_
    rw [List.zipIdx_map_snd, ← List.range_eq_range']
    exact List.pairwise_lt_range
  rw [findRoot_pairs_eq_ok, Option.toList_none, List.nil_append]
  refine and_congr ?_ ?_
  · constructor
    · intro small parent member
      obtain ⟨b, found⟩ := List.mem_iff_getElem?.1 member
      exact small (parent, b) (List.mem_zipIdx_iff_getElem?.2 found)
    · rintro small ⟨parent, b⟩ member
      exact small parent (List.mem_of_getElem? (List.mem_zipIdx_iff_getElem?.1 member))
  · constructor
    · intro only b
      rw [← owns, only, List.mem_singleton]
    · intro only
      refine sorted.eq_of_mem_iff (List.pairwise_singleton ..) fun b => ?_
      rw [owns, only, List.mem_singleton]

/-! ## Whole decompositions -/

variable {d : Decomposition} {numbers : List Nat}

/-- The numbers of a decomposition with these records. -/
def serialized (width : Nat) (records : List BagRecord) : List Nat :=
  width :: records.length :: recordNumbers 0 records

/-- The decomposition with the bags and the parents of records. -/
def ofRecords (records : List BagRecord) (root width : Nat) : Decomposition :=
  ofParents (records.map fun record => .ofList record.gates) (records.map BagRecord.parent) root width

/-- A list of numbers is read when it begins with those of records whose parents have a root and lead there. -/
theorem ofNumbers_eq_ok : ofNumbers numbers = .ok d ↔ ∃ width records extra root,
    numbers = serialized width records ++ extra ∧
      findRoot records.length (records.map BagRecord.parent).zipIdx none = .ok root ∧
      d = ofRecords records root width ∧ ∀ b < d.size, d.isBelowRoot b = true := by
  have gates : ∀ records : List BagRecord, (records.map BagRecord.kept).map Prod.fst =
      records.map fun record => .ofList record.gates := fun _ => List.map_map
  have parents : ∀ records : List BagRecord, (records.map BagRecord.kept).map Prod.snd =
      records.map BagRecord.parent := fun _ => List.map_map
  simp only [ofNumbers, bind_eq_ok, Prod.exists, takeNumber_eq_ok, takeBags_eq_ok]
  constructor
  · rintro ⟨width, _, rfl, _, _, rfl, _, ⟨records, extra, rfl, rfl, rfl⟩, root, found, made⟩
    rw [gates, parents] at made
    rw [parents] at found
    refine ⟨width, records, extra, root, rfl, found, ?_⟩
    split at made
    · exact absurd made fail_eq_ok.1
    · rename_i none
      obtain rfl := Except.ok.inj made
      refine ⟨rfl, fun b small => ?_⟩
      have reached := List.find?_eq_none.1 none b (List.mem_range.2 small)
      simpa using reached
  · rintro ⟨width, records, extra, root, rfl, found, rfl, below⟩
    refine ⟨width, _, rfl, records.length, _, rfl, _, ⟨records, extra, rfl, rfl, rfl⟩, root, ?_⟩
    rw [gates, parents]
    refine ⟨found, ?_⟩
    split
    · rename_i b unreached
      have small := List.mem_range.1 (List.mem_of_find?_eq_some unreached)
      have off := List.find?_some unreached
      have reached := below b small
      rw [ofRecords] at reached
      rw [reached] at off
      exact absurd off (by decide)
    · rfl

/-- What is read from numbers is a tree. -/
theorem isTree_ofNumbers (read : ofNumbers numbers = .ok d) : d.IsTree := by
  obtain ⟨width, records, extra, root, -, found, rfl, below⟩ := ofNumbers_eq_ok.1 read
  rw [← List.length_map BagRecord.parent] at found
  obtain ⟨small, own⟩ := findRoot_eq_ok.1 found
  have at_root := (own root).2 rfl
  have inside := (List.getElem?_eq_some_iff.1 at_root).1
  rw [List.length_map] at inside
  refine isTree_ofParents_of_below _ _ _ _ (by simp) (by simpa using inside) ?_ (fun b inside => ?_)
    fun b inside => ?_
  · rw [List.getD_eq_getElem?_getD, at_root]
    rfl
  · rw [List.length_map] at inside
    have there : b < (records.map BagRecord.parent).length := by rwa [List.length_map]
    have parent := small _ (List.getElem_mem there)
    rw [List.getD_eq_getElem?_getD, List.getElem?_eq_getElem there, Option.getD_some]
    rwa [List.length_map] at parent ⊢
  · have reached := below b (by rwa [ofRecords, size_ofParents])
    exact ⟨_, beq_iff_eq.1 reached⟩

/-- A text is read as the numbers are that it is laid out as. -/
theorem ofText_eq_ok {text : String} :
    ofText text = .ok d ↔ ∃ numbers, Text.LaidOut text.toList numbers ∧ ofNumbers numbers = .ok d := by
  unfold ofText
  constructor
  · intro read
    dsimp only at read
    split at read
    · rename_i white
      exact ⟨_, Text.laidOut_of_naturals rfl white, read⟩
    · exact absurd read fail_eq_ok.1
  · rintro ⟨numbers, laid, read⟩
    obtain ⟨rest, taken, white⟩ := Text.laidOut_iff.1 laid
    simpa only [taken, white, if_true] using read

end Provenance.Decomposition
