import Provenance.Proofs.Circuit.Classes
import Provenance.Proofs.Decomposition.Combine

/-!
# Entries and their gates

While a circuit is compiled the gates of the result grow behind the literals and the constant true
(`Grown`).  The gate of an entry is true in the worlds that some assignment fits which the entry
describes, and reads inputs only whose leaves are in its part (`Means`).  The entries of a part are told
apart by their values and suspicious gates, and every assignment that fits the part is described by one
of them (`Lists`).
-/

namespace Provenance.Compilation

open Provenance.Circuit Provenance.Network

variable {α : Type} {k : Compilation α}

/-- The gate of an input in the result. -/
def positive (k : Compilation α) (input : Nat) : Nat := (k.literals.getD input (0, 0)).1

/-- What a world of the result says about the inputs of the circuit. -/
def pull (k : Compilation α) (world : World) : World := fun input => world (k.positive input)

/-- The result so far is sound and has the literals, no other inputs, and the constant true. -/
structure Grown (k : Compilation α) (target : Circuit α) : Prop where
  sound : target.Sound
  literal : ∀ input, k.source.kind input = .input →
    ∃ negative, k.literals[input]? = some (k.positive input, negative) ∧
      negative < target.size ∧ k.positive input < negative ∧
      target.kind (k.positive input) = .input ∧ target.children (k.positive input) = [] ∧
      target.kind negative = .not ∧ target.children negative = [k.positive input]
  injective : ∀ a b, k.source.kind a = .input → k.source.kind b = .input →
    k.positive a = k.positive b → a = b
  origin : ∀ gate, target.kind gate = .input →
    ∃ input, k.source.kind input = .input ∧ k.positive input = gate
  truth_lt : k.truth < target.size
  kind_truth : target.kind k.truth = .and
  children_truth : target.children k.truth = []

namespace Grown

variable {target : Circuit α}

theorem value_positive (grown : k.Grown target) {input : Nat}
    (kind : k.source.kind input = .input) (world : World) :
    target.value world (k.positive input) = k.pull world input := by
  obtain ⟨negative, _, small, earlier, is_input, _⟩ := grown.literal input kind
  exact (grown.sound.isFormula (earlier.trans small)).value_input world is_input

theorem value_truth (grown : k.Grown target) (world : World) :
    target.value world k.truth = true := by
  rw [(grown.sound.isFormula grown.truth_lt).value_and world grown.kind_truth, grown.children_truth]
  rfl

/-- The constant true reads nothing. -/
theorem not_reads_truth (grown : k.Grown target) (input : Nat) : ¬ target.Reads k.truth input := by
  rintro ⟨path, kind⟩
  rw [Reaches.eq_of_children_nil grown.children_truth path, grown.kind_truth] at kind
  exact absurd kind (by decide)

/-- A literal reads its input. -/
theorem eq_of_reads_positive (grown : k.Grown target) {input other : Nat}
    (kind : k.source.kind input = .input) (reads : target.Reads (k.positive input) other) :
    other = k.positive input := by
  obtain ⟨_, _, _, _, _, childless, _⟩ := grown.literal input kind
  exact Reaches.eq_of_children_nil childless reads.1

theorem addNode [Scalar α] {kind : Kind} {children : List Nat} (grown : k.Grown target)
    (other : kind ≠ .input) (sound : (target.addNode kind children).2.Sound) :
    k.Grown (target.addNode kind children).2 := by
  have extends_ := Extends.addNode grown.sound.inStep kind children
  refine
    { sound := sound
      literal := fun input is_input => ?_
      injective := grown.injective
      origin := fun gate is_input => ?_
      truth_lt := grown.truth_lt.trans_le extends_.size_le
      kind_truth := (extends_.kind _ grown.truth_lt).trans grown.kind_truth
      children_truth := (extends_.children _ grown.truth_lt).trans grown.children_truth }
  · obtain ⟨negative, found, small, earlier, rest⟩ := grown.literal input is_input
    refine ⟨negative, found, small.trans_le extends_.size_le, earlier, ?_⟩
    rw [extends_.kind _ small, extends_.children _ small, extends_.kind _ (earlier.trans small),
      extends_.children _ (earlier.trans small)]
    exact rest
  · rw [kind_addNode] at is_input
    split at is_input
    · exact absurd is_input other
    · exact grown.origin gate is_input

end Grown

/-! ## The meaning of an entry -/

/-- The inputs of the result that belong to the inputs decided in a part. -/
def Part.Decides (part : Part k) (input : Nat) : Prop :=
  ∃ origin leaf : Nat, k.responsible[origin]? = some leaf ∧ leaf ∈ part.bags ∧
    k.positive origin = input

/-- The gate of the entry is true when an assignment that the entry describes fits the part, and reads
only what the part decides. -/
structure Means (k : Compilation α) (target : Circuit α) (part : Part k) (e : Entry) : Prop where
  inside : e.gate < target.size
  proper : part.Proper e
  value : ∀ world, target.value world e.gate = true ↔
    ∃ s, part.Fits (k.pull world) s ∧ part.Describes s e
  reads : ∀ input, target.Reads e.gate input → part.Decides input

/-- Entries with the same values and the same suspicious gates. -/
def Alike (e e' : Entry) : Prop := e.valuation = e'.valuation ∧ e.suspicious = e'.suspicious

theorem Alike.eq {e e' : Entry} (alike : Alike e e') (gate : e.gate = e'.gate) : e = e' := by
  cases e
  cases e'
  obtain ⟨values, suspicious⟩ := alike
  cases gate
  cases values
  cases suspicious
  rfl

/-- All that fits a part is described by one of the entries. -/
structure Lists (k : Compilation α) (target : Circuit α) (part : Part k) (entries : List Entry) :
    Prop where
  means : ∀ e ∈ entries, k.Means target part e
  distinct : entries.Pairwise fun e e' => ¬ Alike e e'
  complete : ∀ world s, part.Fits world s → ∃ e ∈ entries, part.Describes s e

theorem Part.Describes.of_alike {part : Part k} {s : Nat → Bool} {e e' : Entry}
    (describes : part.Describes s e) (alike : Alike e e') : part.Describes s e' where
  values gate := by rw [← alike.1, describes.values]
  suspicious gate := by rw [← alike.2, describes.suspicious]

theorem Part.Proper.of_alike {part : Part k} {e e' : Entry} (proper : part.Proper e)
    (alike : Alike e e') : part.Proper e' where
  gates := by rw [← alike.1, proper.gates]
  suspicious gate member := proper.suspicious gate (alike.2 ▸ member)

section Extends

variable [Scalar α] {target target' : Circuit α} {part : Part k}

theorem Means.of_extends {e : Entry} (means : k.Means target part e) (sound : target.Sound)
    (extends_ : target.Extends target') (sound' : target'.Sound) : k.Means target' part e where
  inside := means.inside.trans_le extends_.size_le
  proper := means.proper
  value world := by
    rw [extends_.value_eq sound.wellFormed sound'.wellFormed means.inside]
    exact means.value world
  reads input reads :=
    means.reads input ((extends_.reads_iff sound.wellFormed means.inside).1 reads)

theorem Lists.of_extends {entries : List Entry} (lists : k.Lists target part entries)
    (sound : target.Sound) (extends_ : target.Extends target') (sound' : target'.Sound) :
    k.Lists target' part entries where
  means e member := (lists.means e member).of_extends sound extends_ sound'
  distinct := lists.distinct
  complete := lists.complete

end Extends

/-! ## Leaves -/

section Leaf

variable {root b gate : Nat} (ready : k.Ready root) (inside : b < k.tree.size)
  (childless : k.tree.children b = []) (bag : k.tree.bag b = .singleton gate)

include inside childless in
/-- A leaf is alone below itself. -/
theorem Ready.below_leaf_iff {x : Nat} : x ∈ (Part.below ready b).bags ↔ x = b := by
  have tree := ready.arranged.tree
  constructor
  · intro below
    refine ((tree.below_iff (tree.lt_of_below_lt inside below)).1 below).resolve_right ?_
    rintro ⟨child, member, _⟩
    rw [childless] at member
    exact List.not_mem_nil member
  · rintro rfl
    exact .refl x

include ready bag in
theorem Ready.not_wire_leaf {parent child : Nat} (left : parent ∈ k.tree.bag b)
    (right : child ∈ k.tree.bag b) : child ∉ k.source.children parent := by
  rw [bag, GateSet.mem_singleton] at left right
  rw [left, right]
  exact ready.acyclic.not_mem_children gate

include inside childless bag in
/-- An assignment fits a leaf when the leaf leaves its input open or it has the value of the world
there. -/
theorem Ready.fits_leaf_iff {world : World} {s : Nat → Bool} :
    (Part.below ready b).Fits world s ↔
      (k.responsible[gate]? = some b → s gate = world gate) := by
  have only := fun {x} => ready.below_leaf_iff inside childless (x := x)
  constructor
  · intro fits found
    exact fits.inputs gate b found (.refl b)
  · intro tied
    refine ⟨fun input leaf found lower => ?_, fun x lower parent left child right wire => ?_,
      fun other holds outside => ?_⟩
    · obtain rfl := only.1 lower
      have same := (ready.leaf input leaf found).2.2.2
      rw [bag] at same
      obtain rfl : gate = input := GateSet.mem_singleton.1 (same ▸ GateSet.mem_singleton.2 rfl)
      exact tied found
    · obtain rfl := only.1 lower
      exact absurd wire (ready.not_wire_leaf bag left right)
    · obtain ⟨x, lower, held⟩ := holds
      obtain rfl := only.1 lower
      exact absurd held outside

include inside childless bag in
theorem Ready.describes_leaf_iff {s : Nat → Bool} {node : Nat} {value : Bool}
    {suspicious : GateSet} (doubts : ∀ other, other ∈ suspicious ↔
      other = gate ∧ (k.source.kind gate).isStrong value = true) :
    (Part.below ready b).Describes s ⟨node, [(gate, value)], suspicious⟩ ↔ s gate = value := by
  have top : ∀ other, other ∈ (Part.below ready b).top ↔ other = gate := by
    intro other
    show other ∈ k.tree.bag b ↔ _
    rw [bag, GateSet.mem_singleton]
  constructor
  · intro describes
    have values := describes.values gate
    rw [if_pos ((top gate).2 rfl)] at values
    simpa [Valuation.value?, eq_comm] using values
  · rintro rfl
    refine ⟨fun other => ?_, fun other => ?_⟩
    · by_cases same : gate = other
      · subst same
        rw [if_pos ((top gate).2 rfl)]
        simp [Valuation.value?]
      · rw [if_neg (fun member => same ((top other).1 member).symm)]
        simp [Valuation.value?, same]
    · rw [doubts, top]
      refine and_congr_right ?_
      rintro rfl
      refine (and_iff_left fun x lower justified => ?_).symm
      obtain ⟨held, child, child_held, wire, _⟩ := justified
      obtain rfl := (ready.below_leaf_iff inside childless).1 lower
      exact ready.not_wire_leaf bag held child_held wire

omit inside childless in
include bag in
theorem Ready.proper_leaf {node : Nat} {value : Bool} {suspicious : GateSet}
    (doubts : ∀ other ∈ suspicious, other = gate) :
    (Part.below ready b).Proper ⟨node, [(gate, value)], suspicious⟩ where
  gates := by
    show [gate] = (k.tree.bag b).toList
    rw [bag]
    rfl
  suspicious other member := by
    show other ∈ k.tree.bag b
    rw [bag, GateSet.mem_singleton]
    exact doubts other member

include inside childless bag in
/-- What the gate of an entry of a leaf has to say: the value in the world, where the leaf decides it. -/
theorem Ready.exists_leaf_iff {world : World} {node : Nat} {value : Bool} {suspicious : GateSet}
    (doubts : ∀ other, other ∈ suspicious ↔
      other = gate ∧ (k.source.kind gate).isStrong value = true) :
    (∃ s, (Part.below ready b).Fits world s ∧
        (Part.below ready b).Describes s ⟨node, [(gate, value)], suspicious⟩) ↔
      (k.responsible[gate]? = some b → value = world gate) := by
  simp only [ready.fits_leaf_iff inside childless bag,
    ready.describes_leaf_iff inside childless bag doubts]
  constructor
  · rintro ⟨s, tied, rfl⟩
    exact tied
  · intro tied
    exact ⟨fun _ => value, tied, rfl⟩

include inside childless bag in
/-- Two entries of a leaf, one for each value, list what fits it. -/
theorem Ready.lists_of_values {target : Circuit α} (nodes : Bool → Nat) (suspicious : Bool → GateSet)
    (doubts : ∀ value other, other ∈ suspicious value ↔
      other = gate ∧ (k.source.kind gate).isStrong value = true)
    (small : ∀ value, nodes value < target.size)
    (true_iff : ∀ value world, target.value world (nodes value) = true ↔
      (k.responsible[gate]? = some b → value = k.pull world gate))
    (reads : ∀ value input, target.Reads (nodes value) input →
      (Part.below ready b).Decides input) :
    k.Lists target (Part.below ready b)
      ([true, false].map fun value => ⟨nodes value, [(gate, value)], suspicious value⟩) where
  means e member := by
    obtain ⟨value, _, rfl⟩ := List.mem_map.1 member
    exact
      { inside := small value
        proper := ready.proper_leaf bag fun other held => ((doubts value other).1 held).1
        value := fun world => by
          rw [ready.exists_leaf_iff inside childless bag (doubts value)]
          exact true_iff value world
        reads := reads value }
  distinct := by
    simp [Alike]
  complete world s _ := by
    refine ⟨_, List.mem_map.2 ⟨s gate, by cases s gate <;> simp, rfl⟩, ?_⟩
    exact (ready.describes_leaf_iff inside childless bag (doubts (s gate))).2 rfl

end Leaf

/-- The entries of a leaf that is not empty list what fits it. -/
theorem Ready.lists_leaf {root b : Nat} (ready : k.Ready root) {target : Circuit α}
    (grown : k.Grown target) (inside : b < k.tree.size) (childless : k.tree.children b = [])
    (filled : k.tree.bag b ≠ ∅) :
    ∃ entries, k.leaf b = .ok entries ∧ k.Lists target (Part.below ready b) entries := by
  obtain ⟨gate, only⟩ := List.length_eq_one_iff.1 (Nat.le_antisymm
    (ready.arranged.leaf b inside childless) (GateSet.size_pos_of_ne_empty filled))
  have bag := GateSet.eq_singleton_of_toList only
  unfold Compilation.leaf
  rw [only]
  simp only
  by_cases tied : k.source.kind gate = .input ∧ k.responsible[gate]? = some b
  · obtain ⟨kind, found⟩ := tied
    obtain ⟨negative, literals, small, earlier, is_input, childless_pos, is_not, only_pos⟩ :=
      grown.literal gate kind
    rw [if_pos ⟨kind, found⟩, literals]
    refine ⟨_, rfl, ?_⟩
    have decides : (Part.below ready b).Decides (k.positive gate) :=
      ⟨gate, b, found, .refl b, rfl⟩
    refine ready.lists_of_values inside childless bag
      (fun value => if value then k.positive gate else negative)
      (fun _ => ∅) (fun value other => ?_) (fun value => ?_) (fun value world => ?_)
      (fun value input reads => ?_)
    · simp [kind, Kind.isStrong]
    · cases value
      · exact small
      · exact earlier.trans small
    · have at_pos := grown.value_positive kind world
      cases value with
      | true =>
        simp only [if_true, at_pos, found, true_implies]
        exact eq_comm
      | false =>
        have at_neg := (grown.sound.isFormula small).value_not world is_not only_pos
        simp only [Bool.false_eq_true, if_false, at_neg, at_pos, found, true_implies,
          Bool.not_eq_true']
        exact eq_comm
    · cases value with
      | true =>
        rw [grown.eq_of_reads_positive kind reads]
        exact decides
      | false =>
        obtain ⟨path, input_kind⟩ := reads
        rcases Reaches.cases_iff.1 path with same | ⟨child, wire, path⟩
        · rw [same] at input_kind
          exact absurd (input_kind.symm.trans is_not) (by decide)
        · have wire : child ∈ target.children negative := wire
          rw [only_pos, List.mem_singleton] at wire
          rw [grown.eq_of_reads_positive kind ⟨wire ▸ path, input_kind⟩]
          exact decides
  · rw [if_neg tied]
    refine ⟨_, rfl, ?_⟩
    have untied : k.responsible[gate]? ≠ some b := fun found =>
      tied ⟨(ready.leaf gate b found).1, found⟩
    refine ready.lists_of_values inside childless bag (fun _ => k.truth)
      (fun value => if (k.source.kind gate).isStrong value then .singleton gate else ∅)
      (fun value other => ?_) (fun _ => grown.truth_lt) (fun value world => ?_)
      (fun _ input reads => absurd reads (grown.not_reads_truth input))
    · by_cases strong : (k.source.kind gate).isStrong value = true <;> simp [strong]
    · simp [grown.value_truth, untied]

end Provenance.Compilation
