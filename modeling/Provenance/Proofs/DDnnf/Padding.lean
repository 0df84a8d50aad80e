import Provenance.Proofs.Circuit.Regroup

/-!
# Padded children

A tautology is a disjunction of an input and its negation; it reads the input and is always true.  A child
that is put under a conjunction with tautologies for inputs that it misses reads these as well and keeps its
value (`Filled`).  So the children of a disjunction can be replaced by others that read all that the
disjunction reads (`replaces_padded`), and the disjunction is smooth then.
-/

namespace Provenance.Circuit

open Provenance.Network

variable {α : Type} {c c' : Circuit α} {base input gate negation child pad : Nat}

/-! ## Tautologies -/

/-- An input without children. -/
def IsLeaf (c : Circuit α) (input : Nat) : Prop := c.kind input = .input ∧ c.children input = []

theorem IsLeaf.of_extends [Scalar α] (leaf : c.IsLeaf input) (extends_ : c.Extends c') : c'.IsLeaf input :=
  have small := lt_of_input leaf.1
  ⟨(extends_.kind input small).trans leaf.1, (extends_.children input small).trans leaf.2⟩

/-- A disjunction of an input and its negation; both gates come behind those below `base`. -/
structure Tautology (c : Circuit α) (base input gate negation : Nat) : Prop where
  leaf : c.IsLeaf input
  kind : c.kind gate = .or
  children : c.children gate = [input, negation]
  kind_negation : c.kind negation = .not
  children_negation : c.children negation = [input]
  behind : base ≤ gate
  behind_negation : base ≤ negation

namespace Tautology

variable (tautology : c.Tautology base input gate negation)

include tautology

/-- Whether a gate is a tautology depends on three gates. -/
theorem of_same (same : ∀ other, other = gate ∨ other = negation ∨ other = input →
    c'.kind other = c.kind other ∧ c'.children other = c.children other) :
    c'.Tautology base input gate negation := by
  have here := same gate (Or.inl rfl)
  have middle := same negation (Or.inr (Or.inl rfl))
  have below := same input (Or.inr (Or.inr rfl))
  exact
    { leaf := ⟨below.1.trans tautology.leaf.1, below.2.trans tautology.leaf.2⟩
      kind := here.1.trans tautology.kind
      children := here.2.trans tautology.children
      kind_negation := middle.1.trans tautology.kind_negation
      children_negation := middle.2.trans tautology.children_negation
      behind := tautology.behind
      behind_negation := tautology.behind_negation }

theorem lt : gate < c.size := lt_of_kind (by rw [tautology.kind]; decide)

theorem of_extends [Scalar α] (extends_ : c.Extends c') : c'.Tautology base input gate negation := by
  refine tautology.of_same fun other listed => ?_
  have inside : other < c.size := by
    rcases listed with rfl | rfl | rfl
    · exact tautology.lt
    · exact lt_of_kind (by rw [tautology.kind_negation]; decide)
    · exact lt_of_input tautology.leaf.1
  exact ⟨extends_.kind other inside, extends_.children other inside⟩

theorem reaches_negation {other : Nat} (path : c.Reaches negation other) :
    other = negation ∨ other = input := by
  rcases Reaches.cases_iff.1 path with same | ⟨lower, wire, path⟩
  · exact Or.inl same
  · rw [tautology.children_negation] at wire
    obtain rfl := List.mem_singleton.1 wire
    exact Or.inr (Reaches.eq_of_children_nil tautology.leaf.2 path)

theorem reaches {other : Nat} (path : c.Reaches gate other) :
    other = gate ∨ other = negation ∨ other = input := by
  rcases Reaches.cases_iff.1 path with same | ⟨lower, wire, path⟩
  · exact Or.inl same
  · rw [tautology.children, List.mem_pair] at wire
    rcases wire with rfl | rfl
    · exact Or.inr (Or.inr (Reaches.eq_of_children_nil tautology.leaf.2 path))
    · exact Or.inr (tautology.reaches_negation path)

theorem reads_input {other : Nat} : c.Reads input other ↔ other = input := by
  constructor
  · exact fun reads => Reaches.eq_of_children_nil tautology.leaf.2 reads.1
  · rintro rfl
    exact ⟨.refl other, tautology.leaf.1⟩

theorem reads_negation {other : Nat} : c.Reads negation other ↔ other = input := by
  rw [reads_iff_of_ne_input (by rw [tautology.kind_negation]; decide), tautology.children_negation]
  simp only [List.mem_singleton, exists_eq_left, tautology.reads_input]

theorem reads {other : Nat} : c.Reads gate other ↔ other = input := by
  rw [reads_iff_of_ne_input (by rw [tautology.kind]; decide), tautology.children]
  simp only [List.mem_pair, or_and_right, exists_or, exists_eq_left, tautology.reads_input,
    tautology.reads_negation, or_self]

theorem isFormula (wellFormed : c.WellFormed) : c.IsFormula gate := by
  refine ⟨wellFormed.inStep.even, wellFormed.acyclic, fun other path => ?_⟩
  unfold Evaluable
  rcases tautology.reaches path with rfl | rfl | rfl
  · simp only [tautology.kind]
  · simp only [tautology.kind_negation]
    exact ⟨input, tautology.children_negation⟩
  · simp only [tautology.leaf.1]

theorem value_negation (wellFormed : c.WellFormed) (world : World) :
    c.value world negation = !c.value world input := by
  have wire : negation ∈ c.children gate := by
    rw [tautology.children]
    exact List.mem_pair.2 (Or.inr rfl)
  exact ((tautology.isFormula wellFormed).child wire).value_not world tautology.kind_negation
    tautology.children_negation

/-- A tautology is true. -/
theorem value (wellFormed : c.WellFormed) (world : World) : c.value world gate = true := by
  rw [(tautology.isFormula wellFormed).value_or world tautology.kind, tautology.children]
  simp [tautology.value_negation wellFormed]

theorem decomposable : c.Decomposable gate := by
  intro other path is_and
  rcases tautology.reaches path with rfl | rfl | rfl
  · rw [tautology.kind] at is_and; cases is_and
  · rw [tautology.kind_negation] at is_and; cases is_and
  · rw [tautology.leaf.1] at is_and; cases is_and

/-- The disjunction is the only one that it reaches. -/
theorem eq_of_or {other : Nat} (path : c.Reaches gate other) (is_or : c.kind other = .or) : other = gate := by
  rcases tautology.reaches path with same | rfl | rfl
  · exact same
  · rw [tautology.kind_negation] at is_or; cases is_or
  · rw [tautology.leaf.1] at is_or; cases is_or

theorem deterministic (wellFormed : c.WellFormed) : c.Deterministic gate := by
  intro other path is_or world
  obtain rfl := tautology.eq_of_or path is_or
  rw [tautology.children, List.pairwise_pair, tautology.value_negation wellFormed]
  simp

theorem smooth : c.Smooth gate := by
  intro other path is_or left listed right listed' i
  obtain rfl := tautology.eq_of_or path is_or
  have reads : ∀ lower ∈ c.children other, c.Reads lower i ↔ i = input := by
    intro lower wire
    rw [tautology.children, List.mem_pair] at wire
    rcases wire with rfl | rfl
    · exact tautology.reads_input
    · exact tautology.reads_negation
  rw [reads left listed, reads right listed']

end Tautology

/-! ## A child with tautologies -/

/-- A new conjunction of a child and tautologies, which are listed with their inputs. -/
structure Filled (c : Circuit α) (base child : Nat) (tautologies : List (Nat × Nat)) (pad : Nat) : Prop where
  behind : base ≤ pad
  kind : c.kind pad = .and
  children : c.children pad = child :: tautologies.map Prod.snd
  tautology : ∀ entry ∈ tautologies, ∃ negation, c.Tautology base entry.1 entry.2 negation

namespace Filled

variable {tautologies : List (Nat × Nat)} (filled : c.Filled base child tautologies pad)

include filled

theorem lt : pad < c.size := lt_of_kind (by rw [filled.kind]; decide)

theorem of_extends [Scalar α] (extends_ : c.Extends c') : c'.Filled base child tautologies pad where
  behind := filled.behind
  kind := (extends_.kind pad filled.lt).trans filled.kind
  children := (extends_.children pad filled.lt).trans filled.children
  tautology entry listed :=
    have ⟨negation, tautology⟩ := filled.tautology entry listed
    ⟨negation, tautology.of_extends extends_⟩

theorem reads {i : Nat} : c.Reads pad i ↔ c.Reads child i ∨ i ∈ tautologies.map Prod.fst := by
  have others : (∃ lower ∈ tautologies.map Prod.snd, c.Reads lower i) ↔ i ∈ tautologies.map Prod.fst := by
    simp only [List.mem_map, exists_exists_and_eq_and]
    refine exists_congr fun entry => and_congr_right fun listed => ?_
    obtain ⟨negation, tautology⟩ := filled.tautology entry listed
    rw [tautology.reads, eq_comm]
  rw [reads_iff_of_ne_input (by rw [filled.kind]; decide), filled.children]
  simp only [List.mem_cons, or_and_right, exists_or, exists_eq_left]
  rw [others]

theorem forall_children {P : Nat → Prop} (tautologies_all : ∀ input gate negation,
    c.Tautology base input gate negation → P gate) :
    (∀ lower ∈ c.children pad, P lower) ↔ P child := by
  rw [filled.children, List.forall_mem_cons, and_iff_left_iff_imp]
  intro _ lower listed
  obtain ⟨entry, member, rfl⟩ := List.mem_map.1 listed
  obtain ⟨negation, tautology⟩ := filled.tautology entry member
  exact tautologies_all entry.1 entry.2 negation tautology

theorem isFormula_iff (wellFormed : c.WellFormed) : c.IsFormula pad ↔ c.IsFormula child := by
  rw [Circuit.isFormula_iff wellFormed.inStep.even wellFormed.acyclic,
    and_iff_right (evaluable_of_connective (Or.inl filled.kind)),
    filled.forall_children fun _ _ _ tautology => tautology.isFormula wellFormed]

theorem value_eq (wellFormed : c.WellFormed) (inside : child < c.size) (world : World) :
    c.value world pad = c.value world child := by
  have formulas := filled.isFormula_iff wellFormed
  by_cases formula : c.IsFormula child
  · rw [(formulas.2 formula).value_and world filled.kind, Bool.eq_iff_iff, List.all_eq_true,
      filled.forall_children fun _ _ _ tautology => tautology.value wellFormed world]
  · rw [wellFormed.value_eq_false inside formula,
      wellFormed.value_eq_false filled.lt (mt formulas.1 formula)]

/-- The conjunction is decomposable when the tautologies are for different inputs that the child misses. -/
theorem decomposable (nodup : (tautologies.map Prod.fst).Nodup)
    (missed : ∀ i ∈ tautologies.map Prod.fst, ¬ c.Reads child i) (below : c.Decomposable child) :
    c.Decomposable pad := by
  refine decomposable_iff.2 ⟨fun _ => ?_,
    (filled.forall_children fun _ _ _ tautology => tautology.decomposable).2 below⟩
  rw [filled.children]
  refine List.pairwise_cons.2 ⟨fun lower listed i both => ?_, List.pairwise_map.2 ?_⟩
  · obtain ⟨entry, member, rfl⟩ := List.mem_map.1 listed
    obtain ⟨negation, tautology⟩ := filled.tautology entry member
    obtain same := tautology.reads.1 both.2
    exact missed i (same ▸ List.mem_map_of_mem member) both.1
  · refine (List.pairwise_map.1 nodup).imp_of_mem fun {left right} listed listed' different i both => ?_
    obtain ⟨_, tautology⟩ := filled.tautology left listed
    obtain ⟨_, tautology'⟩ := filled.tautology right listed'
    exact different ((tautology.reads.1 both.1).symm.trans (tautology'.reads.1 both.2))

theorem deterministic (wellFormed : c.WellFormed) (below : c.Deterministic child) : c.Deterministic pad := by
  refine deterministic_iff.2 ⟨fun is_or => ?_,
    (filled.forall_children fun _ _ _ tautology => tautology.deterministic wellFormed).2 below⟩
  rw [filled.kind] at is_or
  cases is_or

theorem smooth (below : c.Smooth child) : c.Smooth pad := by
  refine smooth_iff.2 ⟨fun is_or => ?_,
    (filled.forall_children fun _ _ _ tautology => tautology.smooth).2 below⟩
  rw [filled.kind] at is_or
  cases is_or

/-- Gates below `base` that are no inputs are reached through the child only. -/
theorem reaches {other : Nat} (small : other < base) (no_input : c.kind other ≠ .input)
    (path : c.Reaches pad other) : c.Reaches child other := by
  rcases Reaches.cases_iff.1 path with rfl | ⟨lower, wire, path⟩
  · exact absurd filled.behind (Nat.not_le_of_lt small)
  · have wire : lower ∈ c.children pad := wire
    rw [filled.children] at wire
    rcases List.mem_cons.1 wire with rfl | listed
    · exact path
    · obtain ⟨entry, member, rfl⟩ := List.mem_map.1 listed
      obtain ⟨negation, tautology⟩ := filled.tautology entry member
      rcases tautology.reaches path with rfl | rfl | rfl
      · exact absurd tautology.behind (Nat.not_le_of_lt small)
      · exact absurd tautology.behind_negation (Nat.not_le_of_lt small)
      · exact absurd tautology.leaf.1 no_input

end Filled

/-! ## Padded children -/

/-- What reads the missing inputs beside those of a child: the child itself when none is missing, or a
conjunction of it and tautologies. -/
def Padded (c : Circuit α) (base child : Nat) (missing : List Nat) (pad : Nat) : Prop :=
  missing = [] ∧ pad = child ∨
    ∃ tautologies, tautologies.map Prod.fst = missing ∧ c.Filled base child tautologies pad

namespace Padded

variable {missing : List Nat} (padded : c.Padded base child missing pad)

include padded

theorem of_extends [Scalar α] (extends_ : c.Extends c') : c'.Padded base child missing pad :=
  padded.imp_right fun ⟨tautologies, listed, filled⟩ =>
    ⟨tautologies, listed, filled.of_extends extends_⟩

theorem lt (inside : child < c.size) : pad < c.size := by
  rcases padded with ⟨-, rfl⟩ | ⟨_, -, filled⟩
  · exact inside
  · exact filled.lt

theorem reads {i : Nat} : c.Reads pad i ↔ c.Reads child i ∨ i ∈ missing := by
  rcases padded with ⟨rfl, rfl⟩ | ⟨_, rfl, filled⟩
  · exact (or_iff_left List.not_mem_nil).symm
  · exact filled.reads

theorem isFormula_iff (wellFormed : c.WellFormed) : c.IsFormula pad ↔ c.IsFormula child := by
  rcases padded with ⟨-, rfl⟩ | ⟨_, -, filled⟩
  · rfl
  · exact filled.isFormula_iff wellFormed

theorem value_eq (wellFormed : c.WellFormed) (inside : child < c.size) (world : World) :
    c.value world pad = c.value world child := by
  rcases padded with ⟨-, rfl⟩ | ⟨_, -, filled⟩
  · rfl
  · exact filled.value_eq wellFormed inside world

theorem decomposable (nodup : missing.Nodup) (missed : ∀ i ∈ missing, ¬ c.Reads child i)
    (below : c.Decomposable child) : c.Decomposable pad := by
  rcases padded with ⟨-, rfl⟩ | ⟨_, rfl, filled⟩
  · exact below
  · exact filled.decomposable nodup missed below

theorem deterministic (wellFormed : c.WellFormed) (below : c.Deterministic child) : c.Deterministic pad := by
  rcases padded with ⟨-, rfl⟩ | ⟨_, -, filled⟩
  · exact below
  · exact filled.deterministic wellFormed below

theorem smooth (below : c.Smooth child) : c.Smooth pad := by
  rcases padded with ⟨-, rfl⟩ | ⟨_, -, filled⟩
  · exact below
  · exact filled.smooth below

theorem reaches {other : Nat} (small : other < base) (no_input : c.kind other ≠ .input)
    (path : c.Reaches pad other) : c.Reaches child other := by
  rcases padded with ⟨-, rfl⟩ | ⟨_, -, filled⟩
  · exact path
  · exact filled.reaches small no_input path

end Padded

section Pads

variable {pads : List (Nat × Nat)} (missing : Nat → List Nat)
  (padded : ∀ pad ∈ pads, c.Padded base pad.1 (missing pad.1) pad.2)
  (lacks : ∀ pad ∈ pads, ∀ i, i ∈ missing pad.1 ↔
    (∃ other ∈ pads.map Prod.fst, c.Reads other i) ∧ ¬ c.Reads pad.1 i)

include padded lacks

/-- Padded with what each of them lacks the children read what all of them read. -/
theorem reads_padded {pad : Nat} (listed : pad ∈ pads.map Prod.snd) {i : Nat} :
    c.Reads pad i ↔ ∃ other ∈ pads.map Prod.fst, c.Reads other i := by
  obtain ⟨pair, member, rfl⟩ := List.mem_map.1 listed
  rw [(padded pair member).reads, lacks pair member]
  constructor
  · rintro (reads | ⟨found, -⟩)
    · exact ⟨pair.1, List.mem_map_of_mem member, reads⟩
    · exact found
  · intro found
    by_cases reads : c.Reads pair.1 i
    · exact Or.inl reads
    · exact Or.inr ⟨found, reads⟩

/-- The padded children stand for the children of a disjunction. -/
theorem replaces_padded (wellFormed : c.WellFormed) (within : ∀ pad ∈ pads, pad.1 < c.size)
    (nodup : ∀ pad ∈ pads, (missing pad.1).Nodup) :
    c.Replaces .or (pads.map Prod.fst) (pads.map Prod.snd) := by
  have no_and : Kind.or ≠ .and := by decide
  have value : ∀ pad ∈ pads, ∀ world, c.value world pad.2 = c.value world pad.1 := fun pad listed =>
    (padded pad listed).value_eq wellFormed (within pad listed)
  have pass : ∀ {P : Nat → Prop}, (∀ pad ∈ pads, P pad.1 → P pad.2) →
      (∀ child ∈ pads.map Prod.fst, P child) → ∀ child ∈ pads.map Prod.snd, P child := by
    intro P each all
    rw [List.forall_mem_map] at all ⊢
    exact fun pad listed => each pad listed (all pad listed)
  refine
    { within := List.forall_mem_map.2 fun pad listed => (padded pad listed).lt (within pad listed)
      nonempty := fun some_pad => by simpa using some_pad
      reads_iff := fun i => ?_
      isFormula_iff := ?_
      value := fun _ world => ?_
      true_of := fun _ world => List.forall_mem_map.2 fun pad listed holds => ?_
      disjoint := fun is_and => absurd is_and no_and
      exclusive := fun _ exclusive world => ?_
      readAlike := fun _ _ => ?_
      decomposable := fun _ => pass fun pad listed => (padded pad listed).decomposable (nodup pad listed)
        fun i member => ((lacks pad listed i).1 member).2
      deterministic := fun _ => pass fun pad listed => (padded pad listed).deterministic wellFormed
      smooth := fun _ => pass fun pad listed => (padded pad listed).smooth }
  · constructor
    · rintro ⟨pad, listed, reads⟩
      exact (reads_padded missing padded lacks listed).1 reads
    · rintro ⟨child, listed, reads⟩
      obtain ⟨pad, member, rfl⟩ := List.mem_map.1 listed
      exact ⟨pad.2, List.mem_map_of_mem member, (padded pad member).reads.2 (Or.inl reads)⟩
  · rw [List.forall_mem_map, List.forall_mem_map]
    exact forall₂_congr fun pad listed => (padded pad listed).isFormula_iff wellFormed
  · rw [Kind.combine, Kind.combine, if_neg no_and, if_neg no_and, List.any_map, List.any_map,
      Bool.eq_iff_iff, List.any_eq_true, List.any_eq_true]
    refine exists_congr fun pad => and_congr_right fun listed => ?_
    exact (value pad listed world).congr_left
  · exact ⟨pad.1, List.mem_map_of_mem listed, (value pad listed world).symm.trans holds⟩
  · refine List.pairwise_map.2 ((List.pairwise_map.1 (exclusive world)).imp_of_mem ?_)
    intro left right listed listed' apart
    rwa [value left listed, value right listed']
  · intro left listed right listed' i
    rw [reads_padded missing padded lacks listed, reads_padded missing padded lacks listed']

end Pads

end Provenance.Circuit
