import Provenance.Proofs.Decomposition.Decompose
import Provenance.Proofs.Decomposition.Friendly
import Provenance.Proofs.Decomposition.Text

/-!
# Decompositions written and read back

A decomposition comes from a circuit or from a text, and may be made friendly any number of times (`Obtained`).
It is a tree all of whose numbers are words (`Storable`): elimination and the reader make such trees, and no
pass that makes a tree friendly has a larger bag, another gate or another width.  A tree of words is printed as
numbers that the reader takes apart again (`toList_text`, `ofText_text`).  Lists of children are not read but
made anew, so they come back by increasing index.
-/

namespace Provenance.Decomposition

open Provenance.Text (wordLimit spelled isLayout)

variable {d : Decomposition}

/-! ## Making a tree friendly keeps its width -/

section Width

variable (d) (b gate : Nat)

theorem width_withRootBag : (d.withRootBag gate).width = d.width := by
  have turned : ∀ (path : List Nat) (d : Decomposition), (d.reverseLinks path).width = d.width := by
    intro path
    induction path with
    | nil => exact fun _ => rfl
    | cons child rest ih =>
      intro d
      cases rest with
      | nil => rfl
      | cons parent rest => exact ih _
  exact turned _ _

theorem width_spread : (d.spread b).width = d.width := by
  have hung : ∀ (d : Decomposition) (b : Nat) (children : List Nat), (d.hang b children).width = d.width := by
    intro d b children
    fun_induction hang d b children with
    | case1 d b first second third rest linked ih => exact ih
    | case2 d b few _ => exact width_linkAll
  unfold spread
  dsimp only
  split
  · exact hung _ _ _
  · rfl

theorem width_cutLeaf : (d.cutLeaf b).width = d.width := by
  unfold cutLeaf
  dsimp only
  split
  · split <;> rfl
  · rfl

theorem width_cover : (d.cover b).width = d.width := by
  have peeled : ∀ (gates : List Nat) (d : Decomposition) (b : Nat), (d.peel b gates).width = d.width := by
    intro gates
    induction gates with
    | nil => exact fun _ _ => rfl
    | cons gate rest ih => exact fun d b => (ih _ _).trans width_linkAll
  unfold cover
  split
  · rfl
  · exact peeled _ _ _

theorem width_friendly : (d.friendly gate).width = d.width := by
  have pass : ∀ {step : Decomposition → Nat → Decomposition}, (∀ d b, (step d b).width = d.width) →
      ∀ (bags : List Nat) (d : Decomposition), (bags.foldl step d).width = d.width := by
    intro step kept bags
    induction bags with
    | nil => exact fun _ => rfl
    | cons b bags ih => exact fun d => (ih _).trans (kept d b)
  exact (((pass width_cover _ _).trans (pass width_cutLeaf _ _)).trans (pass width_spread _ _)).trans
    (d.width_withRootBag gate)

end Width

/-! ## Decompositions that one comes to -/

/-- The decompositions made from circuits, read from texts and made friendly.  Indices of gates are words. -/
inductive Obtained : Decomposition → Prop where
  | decompose {α : Type} {c : Circuit α} {maxWidth : Nat} {d : Decomposition} (words : c.size < wordLimit)
      (made : c.decompose maxWidth = .ok d) : Obtained d
  | ofText {text : String} {d : Decomposition} (read : ofText text = .ok d) : Obtained d
  | friendly {d : Decomposition} {gate : Nat} (obtained : Obtained d) (word : gate < wordLimit) :
      Obtained (d.friendly gate)

/-- A tree whose width, gates and sizes of bags are words. -/
structure Storable (d : Decomposition) : Prop where
  tree : d.IsTree
  gate_lt : ∀ b, ∀ gate ∈ d.bag b, gate < wordLimit
  size_bag_lt : ∀ b, (d.bag b).size < wordLimit
  width_lt : d.width < wordLimit

/-- Elimination makes trees of words. -/
theorem storable_decompose {α : Type} {c : Circuit α} {maxWidth : Nat} (words : c.size < wordLimit)
    (made : c.decompose maxWidth = .ok d) : d.Storable := by
  rw [Circuit.decompose, Outcome.map_eq_ok] at made
  obtain ⟨e, ran, rfl⟩ := made
  obtain ⟨here, -⟩ := Elimination.run_spec
    (Elimination.eliminating_start (PrimalGraph.simple_ofCircuit c) maxWidth) (Nat.le_refl _) ran
  have tree := Elimination.isTree_decomposition here
  have inside : ∀ b, ∀ gate ∈ e.decomposition.bag b, gate < c.size := fun b gate member =>
    Circuit.lt_of_kind (PrimalGraph.mem_vertices_ofCircuit.1
      ((Elimination.mem_bags_decomposition here gate).1 ⟨b, member⟩))
  have few : ∀ b, (e.decomposition.bag b).size ≤ c.size := by
    intro b
    rw [← GateSet.card_toFinset, ← Finset.card_range c.size]
    exact Finset.card_le_card fun gate member =>
      Finset.mem_range.2 (inside b gate (GateSet.mem_toFinset.1 member))
  obtain ⟨b, -, largest⟩ := exists_bag_largest (Nat.zero_lt_of_lt tree.root_lt)
  refine ⟨tree, fun b gate member => (inside b gate member).trans words, fun b => (few b).trans_lt words, ?_⟩
  rw [e.width_decomposition, ← largest]
  exact (Nat.sub_le _ _).trans_lt ((few b).trans_lt words)

/-- The reader makes trees of words. -/
theorem storable_ofText {text : String} (read : ofText text = .ok d) : d.Storable := by
  obtain ⟨numbers, laid, read⟩ := ofText_eq_ok.1 read
  have tree := isTree_ofNumbers read
  obtain ⟨width, records, extra, root, rfl, -, rfl, -⟩ := ofNumbers_eq_ok.1 read
  have words := laid.lt_wordLimit
  have later : ∀ number ∈ recordNumbers 0 records, number < wordLimit := fun number member =>
    words number (List.mem_append_left _ (List.mem_cons_of_mem _ (List.mem_cons_of_mem _ member)))
  have cases : ∀ b, (ofRecords records root width).bag b = ∅ ∨
      ∃ record ∈ records, (ofRecords records root width).bag b = .ofList record.gates := by
    intro b
    rw [ofRecords, bag_ofParents, List.getD_eq_getElem?_getD, List.getElem?_map]
    cases found : records[b]? with
    | none => exact Or.inl rfl
    | some record => exact Or.inr ⟨record, List.mem_of_getElem? found, rfl⟩
  refine ⟨tree, fun b gate member => ?_, fun b => ?_, words width List.mem_cons_self⟩
  · rcases cases b with empty | ⟨record, listed, same⟩
    · rw [empty] at member
      exact absurd member GateSet.not_mem_emptyCollection
    · rw [same, GateSet.mem_ofList] at member
      exact later gate ((mem_recordNumbers listed).1 gate member)
  · rcases cases b with empty | ⟨record, listed, same⟩
    · rw [empty]
      exact Nat.pow_pos (by decide)
    · rw [same]
      exact (GateSet.size_ofList_le record.gates).trans_lt (later _ (mem_recordNumbers listed).2)

/-- A tree of words stays one when it is made friendly for a word. -/
theorem Storable.friendly (storable : d.Storable) {gate : Nat} (word : gate < wordLimit) :
    (d.friendly gate).Storable := by
  have grows := storable.tree.grows_friendly gate
  refine ⟨grows.tree, fun b other member => ?_, fun b => ?_, by rw [width_friendly]; exact storable.width_lt⟩
  · obtain ⟨a, within⟩ := grows.within b
    have member := within other member
    rw [bag_withRootBag] at member
    split at member
    · rw [GateSet.mem_singleton.1 member]
      exact word
    · exact storable.gate_lt a other member
  · obtain ⟨a, within⟩ := grows.within b
    refine (GateSet.size_le_size within).trans_lt ?_
    rw [bag_withRootBag]
    split
    · rw [GateSet.size_singleton]
      decide
    · exact storable.size_bag_lt a

theorem Obtained.storable (obtained : Obtained d) : d.Storable := by
  induction obtained with
  | decompose words made => exact storable_decompose words made
  | ofText read => exact storable_ofText read
  | friendly _ word ih => exact ih.friendly word

/-! ## The numbers of a text -/

/-- The numbers of a line: a blank behind each but the last one, which ends the line. -/
def lined : List Nat → List (Nat × Char)
  | [] => []
  | [last] => [(last, '\n')]
  | number :: rest => (number, ' ') :: lined rest

theorem map_fst_lined (numbers : List Nat) : (lined numbers).map Prod.fst = numbers := by
  fun_induction lined numbers with
  | case1 => rfl
  | case2 => rfl
  | case3 number rest _ ih => rw [List.map_cons, ih]

theorem isLayout_of_mem_lined {numbers : List Nat} {entry : Nat × Char} (member : entry ∈ lined numbers) :
    isLayout entry.2 = true := by
  fun_induction lined numbers with
  | case1 => exact absurd member List.not_mem_nil
  | case2 last =>
    rw [List.mem_singleton.1 member]
    show isLayout '\n' = true
    decide
  | case3 number rest _ ih =>
    rcases List.mem_cons.1 member with rfl | later
    · show isLayout ' ' = true
      decide
    · exact ih later

/-- A line spells its numbers. -/
theorem toList_line {numbers : List Nat} (some_number : numbers ≠ []) :
    (" ".intercalate (numbers.map toString) ++ "\n").toList = spelled (lined numbers) := by
  fun_induction lined numbers with
  | case1 => exact absurd rfl some_number
  | case2 last => simp [spelled]
  | case3 number rest more ih =>
    obtain ⟨next, rest, rfl⟩ := List.exists_cons_of_ne_nil (l := rest) more
    have tail := ih (List.cons_ne_nil _ _)
    rw [List.map_cons, List.map_cons, String.intercalate_cons_cons, String.append_assoc, String.append_assoc,
      String.toList_append, String.toList_append, ← List.map_cons, tail]
    simp [spelled]

/-- The numbers of a decomposition, as they are printed. -/
def printed (d : Decomposition) : List (Nat × Char) :=
  (d.width, '\n') :: (d.size, '\n') :: (List.range d.size).flatMap fun b =>
    lined (bagNumbers b (d.bag b).toList (d.parent b) (d.children b))

/-- The text of a decomposition spells its numbers. -/
theorem toList_text (d : Decomposition) : d.text.toList = spelled d.printed := by
  have line : ∀ b, (d.bagLine b).toList =
      spelled (lined (bagNumbers b (d.bag b).toList (d.parent b) (d.children b))) := fun b =>
    toList_line (List.cons_ne_nil _ _)
  have lines : (String.join ((List.range d.size).map d.bagLine)).toList =
      spelled ((List.range d.size).flatMap fun b =>
      lined (bagNumbers b (d.bag b).toList (d.parent b) (d.children b))) := by
    rw [String.toList_join, List.flatMap_map, spelled, List.flatMap_assoc]
    exact List.flatMap_congr fun b _ => line b
  simp only [text, String.toList_append, lines]
  simp [spelled, printed]

/-- The numbers of a tree of words are words, when there are not too many bags. -/
theorem Storable.printed_lt (storable : d.Storable) (words : d.size < wordLimit) :
    ∀ entry ∈ d.printed, entry.1 < wordLimit := by
  have tree := storable.tree
  have bag : ∀ b < d.size, ∀ number ∈ bagNumbers b (d.bag b).toList (d.parent b) (d.children b),
      number < wordLimit := by
    intro b small number member
    have few : (d.children b).length ≤ d.size := by
      have within : (d.children b).toFinset ⊆ Finset.range d.size := fun child member =>
        Finset.mem_range.2 (tree.child_lt (List.mem_toFinset.1 member))
      have card := Finset.card_le_card within
      rwa [List.toFinset_card_of_nodup (tree.nodup_children b), Finset.card_range] at card
    simp only [bagNumbers, List.mem_append, List.mem_cons, List.not_mem_nil, or_false] at member
    rcases member with (((rfl | rfl) | gate) | (rfl | rfl)) | child
    · exact small.trans words
    · exact storable.size_bag_lt b
    · exact storable.gate_lt b number gate
    · exact (tree.parent_lt b small).trans words
    · exact few.trans_lt words
    · exact (tree.child_lt child).trans words
  refine List.forall_mem_cons.2 ⟨storable.width_lt, List.forall_mem_cons.2 ⟨words, fun entry member => ?_⟩⟩
  obtain ⟨b, inside, member⟩ := List.mem_flatMap.1 member
  refine bag b (List.mem_range.1 inside) entry.1 ?_
  rw [← map_fst_lined (bagNumbers _ _ _ _)]
  exact List.mem_map_of_mem member

theorem isLayout_of_mem_printed {entry : Nat × Char} (member : entry ∈ d.printed) :
    isLayout entry.2 = true := by
  simp only [printed, List.mem_cons, List.mem_flatMap] at member
  rcases member with rfl | rfl | ⟨b, -, member⟩
  · show isLayout '\n' = true
    decide
  · show isLayout '\n' = true
    decide
  · exact isLayout_of_mem_lined member

/-! ## Reading back -/

theorem ancestor_congr {d' : Decomposition} (same : d'.parents = d.parents) (b steps : Nat) :
    d'.ancestor b steps = d.ancestor b steps := by
  induction steps generalizing b with
  | zero => rfl
  | succ steps ih =>
    rw [ancestor, ancestor, ih]
    simp only [parent, same]

/-- What is read back: the same tables, and the lists of children made from the parents. -/
def reread (d : Decomposition) : Decomposition := ofParents d.bags.toList d.parents.toList d.root d.width

theorem IsTree.map_parent (tree : d.IsTree) : (List.range d.size).map d.parent = d.parents.toList := by
  refine List.ext_getElem (by simp [tree.parents]) fun b _ inside => ?_
  have inside : b < d.parents.size := by simpa using inside
  simp [parent, Array.getD_eq_getD_getElem?, inside]

theorem map_bag (d : Decomposition) : (List.range d.size).map d.bag = d.bags.toList := by
  refine List.ext_getElem (by simp [size]) fun b _ inside => ?_
  have inside : b < d.bags.size := by simpa using inside
  simp [bag, Array.getD_eq_getD_getElem?, inside]

section Reread

variable (d)

@[simp] theorem bags_reread : d.reread.bags = d.bags := Array.toArray_toList

@[simp] theorem parents_reread : d.reread.parents = d.parents := Array.toArray_toList

@[simp] theorem size_reread : d.reread.size = d.size := by rw [size, bags_reread, size]

end Reread

/-- The parents of a tree have its root. -/
theorem IsTree.findRoot_parents (tree : d.IsTree) : findRoot d.size d.parents.toList.zipIdx none = .ok d.root := by
  have length : d.parents.toList.length = d.size := tree.parents
  rw [← length, findRoot_eq_ok]
  refine ⟨fun parent member => ?_, fun b => ?_⟩
  · rw [← tree.map_parent] at member
    obtain ⟨b, inside, rfl⟩ := List.mem_map.1 member
    rw [length]
    exact tree.parent_lt b (List.mem_range.1 inside)
  · rw [← tree.map_parent]
    by_cases small : b < d.size
    · simpa [small] using tree.parent_eq_self_iff b small
    · have apart : b ≠ d.root := fun same => small (same ▸ tree.root_lt)
      simp [small, apart]

/-- What a tree is printed as. -/
def records (d : Decomposition) : List BagRecord :=
  (List.range' 0 d.size).map fun b => ⟨(d.bag b).toList, d.parent b, d.children b⟩

theorem map_fst_printed (d : Decomposition) : d.printed.map Prod.fst = serialized d.width d.records := by
  simp only [printed, serialized, records, recordNumbers_map, List.map_cons, List.map_flatMap, map_fst_lined,
    List.range_eq_range', List.length_map, List.length_range']

/-- The numbers of a tree are read back. -/
theorem IsTree.ofNumbers_printed (tree : d.IsTree) : ofNumbers (d.printed.map Prod.fst) = .ok d.reread := by
  have same : ∀ b, GateSet.ofList (d.bag b).toList = d.bag b := fun b =>
    GateSet.ext fun gate => by rw [GateSet.mem_ofList, GateSet.mem_def]
  have parents : d.records.map BagRecord.parent = d.parents.toList := by
    rw [records, List.map_map, ← List.range_eq_range']
    exact tree.map_parent
  have bags : d.records.map (fun record => GateSet.ofList record.gates) = d.bags.toList := by
    rw [records, List.map_map, ← List.range_eq_range', ← d.map_bag]
    exact List.map_congr_left fun b _ => same b
  refine ofNumbers_eq_ok.2 ⟨d.width, d.records, [], d.root, ?numbers, ?root, ?tables, fun b small => ?below⟩
  case numbers => rw [map_fst_printed, List.append_nil]
  case root =>
    rw [parents, records, List.length_map, List.length_range']
    exact tree.findRoot_parents
  case tables => rw [ofRecords, parents, bags, reread]
  case below =>
    rw [Decomposition.isBelowRoot, ancestor_congr d.parents_reread, size_reread]
    exact tree.isBelowRoot (size_reread d ▸ small)

/-- The lists of children are read back by increasing index. -/
theorem IsTree.children_reread (tree : d.IsTree) (b : Nat) :
    (d.reread.children b).Perm (d.children b) ∧ (d.reread.children b).Pairwise (· < ·) := by
  have length : d.parents.toList.length = d.size := tree.parents
  by_cases small : b < d.size
  · have listed := children_ofParents d.bags.toList d.parents.toList d.root d.width (b := b)
      (length.symm ▸ small)
    rw [reread, listed, length]
    refine ⟨(List.perm_ext_iff_of_nodup (List.nodup_range.filter _) (tree.nodup_children b)).2
      fun child => ?_, List.pairwise_lt_range.filter _⟩
    rw [tree.mem_children_iff, List.mem_filter, List.mem_range, decide_eq_true_eq, ← tree.map_parent]
    refine and_congr_right fun inside => ?_
    rw [and_comm]
    simp [inside]
  · have outside := Nat.le_of_not_lt small
    rw [reread, children_ofParents_of_le _ _ _ _ (length.symm ▸ outside), tree.children_of_le outside]
    exact ⟨.refl _, .nil⟩

/-- The text of a tree of words is read back. -/
theorem Storable.ofText_text (storable : d.Storable) (words : d.size < wordLimit) :
    ofText d.text = .ok d.reread := by
  have laid := Text.laidOut_spelled (storable.printed_lt words) (fun _ member => isLayout_of_mem_printed member)
    [] fun _ none => absurd none List.not_mem_nil
  rw [List.nil_append, ← d.toList_text] at laid
  exact ofText_eq_ok.2 ⟨_, laid, storable.tree.ofNumbers_printed⟩

/-- A decomposition that fits into memory is read back from its text with the same bags, parents, root and
width and with its lists of children by increasing index.  Whatever text is read, the lists of children are
those of the parents, one bag is its own parent, and the lists of children lead from it to all bags. -/
theorem ofText_text_spec :
    (∀ d, Obtained d → d.size < wordLimit → ∃ d', ofText d.text = .ok d' ∧ d'.bags = d.bags ∧
      d'.parents = d.parents ∧ d'.root = d.root ∧ d'.width = d.width ∧
      ∀ b, (d'.children b).Perm (d.children b) ∧ (d'.children b).Pairwise (· < ·)) ∧
    ∀ text d, ofText text = .ok d →
      (∀ b child, child ∈ d.children b ↔ child < d.size ∧ child ≠ b ∧ d.parent child = b) ∧
      (∀ b, (d.children b).Nodup) ∧
      (∀ b < d.size, d.parent b < d.size) ∧
      (∃! b, b < d.size ∧ d.parent b = b) ∧
      d.parent d.root = d.root ∧
      ∀ b < d.size, Relation.ReflTransGen (fun bag child => child ∈ d.children bag) d.root b := by
  refine ⟨fun d obtained words => ?_, fun text d read => ?_⟩
  · have storable := obtained.storable
    exact ⟨d.reread, storable.ofText_text words, d.bags_reread, d.parents_reread, rfl, rfl,
      storable.tree.children_reread⟩
  · have tree := (storable_ofText read).tree
    have own : ∃! b, b < d.size ∧ d.parent b = b :=
      ⟨d.root, ⟨tree.root_lt, tree.parent_root⟩, fun b own => (tree.parent_eq_self_iff b own.1).1 own.2⟩
    exact ⟨tree.mem_children_iff, tree.nodup_children, tree.parent_lt, own, tree.parent_root,
      fun b inside => tree.reachable inside⟩

/-- The decomposition of a conjunction, made friendly, and a text of two bags whose second one is the root. -/
theorem ofText_text_conjunction :
    (∃ d d', Circuit.conjunction.decompose 1 = .ok d ∧ ofText (d.friendly 2).text = .ok d' ∧
      d'.bags = (d.friendly 2).bags ∧ d'.parents = (d.friendly 2).parents ∧ d'.root = 2 ∧ d'.width = 1) ∧
    ∃ d, ofText "1\n2\n0 1 3 1 0\n1 1 4 1 0\n" = .ok d ∧ d.root = 1 ∧
      Relation.ReflTransGen (fun bag child => child ∈ d.children bag) d.root 0 := by
  obtain ⟨written, read⟩ := ofText_text_spec
  refine ⟨?written, ofParents [.singleton 3, .singleton 4] [1, 1] 1 1, ?read⟩
  case written =>
    have words : Circuit.conjunction.size < wordLimit := show 3 < Nat.pow 2 64 by decide
    obtain ⟨d', back, bags, parents, root, width, _⟩ := written
      (Decomposition.friendly _ 2) (.friendly (.decompose words
        (show Circuit.conjunction.decompose 1 = .ok _ from rfl)) (show 2 < Nat.pow 2 64 by decide))
      (by decide +kernel)
    exact ⟨_, d', rfl, back, bags, parents, root.trans (by decide +kernel), width.trans (by decide +kernel)⟩
  case read =>
    have two : ofText "1\n2\n0 1 3 1 0\n1 1 4 1 0\n" =
        .ok (ofParents [.singleton 3, .singleton 4] [1, 1] 1 1) := by
      decide +kernel
    obtain ⟨_, _, _, _, _, reachable⟩ := read _ _ two
    exact ⟨two, rfl, reachable 0 (by decide)⟩

end Provenance.Decomposition
