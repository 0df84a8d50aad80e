import Provenance.Proofs.DDnnf.Folding

/-!
# Simplification

A circuit is simplified when its constants are folded and what the root reaches then is numbered anew.  The
counterparts of its inputs are inputs of the circuit of before, and in worlds that say the same of them the new
root has the value of the old one.  The new circuit is normal (`normal_simplify`), so nothing is folded in it, and
what was numbered is numbered again in the same way: simplifying once more gives the same d-DNNF
(`simplify_simplify`).  All of it is said of the operation in `simplify_faithful`.
-/

namespace Provenance

open Provenance.Circuit Provenance.Network Provenance.Order

/-! ## Embedded circuits -/

section

variable {α : Type} [Scalar α] {c c' : Circuit α} {number : Nat → Nat} {root : Nat}

theorem Circuit.Embeds.constant? (embeds : c.Embeds c' number root) :
    c'.constant? (number root) = c.constant? root := by
  unfold Circuit.constant?
  rw [embeds.kind root (.refl root), embeds.children root (.refl root)]
  cases c.kind root <;> cases c.children root <;> rfl

theorem Circuit.Embeds.normal (embeds : c.Embeds c' number root) (normal : c.Normal root) :
    c'.Normal (number root) := by
  intro gate' path
  obtain ⟨gate, lower, rfl⟩ := embeds.exists_reaches path
  obtain ⟨varied, several⟩ := normal gate lower
  rw [embeds.kind gate lower, embeds.children gate lower, List.length_map]
  refine ⟨fun child' wire => ?_, several⟩
  obtain ⟨child, listed, rfl⟩ := List.mem_map.1 wire
  rw [(embeds.of_reaches (lower.child listed)).constant?, varied child listed]

end

namespace DDnnf

variable {α : Type} {d : DDnnf α}

/-- The circuit with its constants folded. -/
def folding (d : DDnnf α) : Folding α :=
  d.order.foldl Folding.foldGate ⟨d.circuit, (List.range d.circuit.size).toArray⟩

/-- The gate to which the root comes down when constants are folded. -/
def core (d : DDnnf α) : Nat := d.folding.standIn d.root

/-- Inputs keep their names and probabilities while constants are folded. -/
theorem labels_folding (d : DDnnf α) :
    d.folding.circuit.naming = d.circuit.naming ∧ d.folding.circuit.probs = d.circuit.probs :=
  Folding.labels_foldl_foldGate _ d.order

/-- Below the root of a normal circuit there is nothing to fold. -/
theorem folding_of_normal (even : d.circuit.Even) (within : d.circuit.Inside d.root)
    (normal : d.circuit.Normal d.root) : d.folding = ⟨d.circuit, (List.range d.circuit.size).toArray⟩ :=
  Folding.foldl_foldGate_of_normal (Folding.standIn_start d.circuit) normal fun _ => (mem_postOrder even within).1

section

variable (plain : d.circuit.Plain) (inside : d.root < d.circuit.size)

include plain inside

theorem folded_folding : Folding.Folded d.circuit d.folding d.order := by
  have even := plain.even
  have within := plain.wellFormed.inside inside
  exact Folding.folded_foldl_foldGate plain
    (fun gate listed => within gate ((mem_postOrder even within).1 listed)) (nodup_postOrder even within)
    (childrenFirst_postOrder even within plain.acyclic)

theorem wellFormed_folding : d.folding.circuit.WellFormed ∧ d.core < d.folding.circuit.size := by
  have folded := folded_folding plain inside
  exact ⟨folded.descending.wellFormed, folded.size_eq ▸ (folded.standIn d.root inside).1⟩

theorem closed_order : ∀ gate ∈ d.order, ∀ child ∈ d.circuit.children gate, child ∈ d.order := by
  intro gate listed child wire
  have path := (plain.mem_postOrder inside).1 listed
  exact (plain.mem_postOrder inside).2 (path.child wire)

theorem stands_core : Stands d.circuit d.folding.circuit d.root d.core :=
  (folded_folding plain inside).stands (closed_order plain inside) plain
    (fun _ listed => plain.wellFormed.inside inside _ ((plain.mem_postOrder inside).1 listed))
    ((plain.mem_postOrder inside).2 (.refl d.root))

theorem normal_core : d.folding.circuit.Normal d.core :=
  (folded_folding plain inside).normal (closed_order plain inside) plain.acyclic
    ((plain.mem_postOrder inside).2 (.refl d.root))

end

/-! ## The simplified circuit -/

section

variable [Scalar α]

theorem simplify_eq (d : DDnnf α) : d.simplify = extract d.folding.circuit d.core := rfl

variable (plain : d.circuit.Plain) (inside : d.root < d.circuit.size)

include plain inside

/-- The folded circuit is embedded in the simplified one. -/
theorem embeds_simplify : ∃ number, d.folding.circuit.Embeds d.simplify.circuit number d.core ∧
    d.simplify.root = number d.core ∧
    ∀ gate < d.simplify.circuit.size, ∃ old, d.folding.circuit.Reaches d.core old ∧ number old = gate := by
  obtain ⟨wellFormed, small⟩ := wellFormed_folding plain inside
  obtain ⟨_, _, root⟩ := copied_extract wellFormed small
  rw [simplify_eq]
  exact ⟨_, embeds_extract wellFormed small, root, fun _ => exists_of_lt_extract wellFormed small⟩

theorem normal_simplify : d.simplify.circuit.Normal d.simplify.root := by
  obtain ⟨number, embeds, root, -⟩ := embeds_simplify plain inside
  exact root ▸ embeds.normal (normal_core plain inside)

/-- All gates of a simplified circuit are needed. -/
theorem reaches_simplify {gate : Nat} (small : gate < d.simplify.circuit.size) :
    d.simplify.circuit.Reaches d.simplify.root gate := by
  obtain ⟨number, embeds, root, all⟩ := embeds_simplify plain inside
  obtain ⟨old, path, rfl⟩ := all gate small
  exact root ▸ embeds.reaches path

/-- What is simple stays as it is. -/
theorem simplify_simplify : d.simplify.simplify = d.simplify := by
  obtain ⟨wellFormed, small⟩ := wellFormed_folding plain inside
  obtain ⟨wellFormed', small'⟩ := wellFormed_simplify plain.wellFormed inside
  have nothing := folding_of_normal wellFormed'.inStep.even (wellFormed'.inside small')
    (normal_simplify plain inside)
  -- so the root stands for itself, and the copy is copied
  have core : d.simplify.core = d.simplify.root := by
    rw [DDnnf.core, nothing, Folding.standIn_start]
  have again : d.simplify.simplify = extract d.simplify.circuit d.simplify.root := by
    rw [simplify_eq d.simplify, core, nothing]
  rw [again, simplify_eq]
  exact extract_extract wellFormed small

/-- The inputs of the simplified circuit are inputs of before, and determine the value of the root as those do. -/
theorem exists_origin : ∃ origin : Nat → Nat, Set.InjOn origin {input | input ∈ d.simplify.circuit.inputs} ∧
    (∀ input ∈ d.simplify.circuit.inputs, origin input ∈ d.circuit.inputs ∧
      d.simplify.circuit.name? input = d.circuit.name? (origin input) ∧
      d.simplify.circuit.prob input = d.circuit.prob (origin input)) ∧
    ∀ world world' : World, (∀ input ∈ d.simplify.circuit.inputs, world' input = world (origin input)) →
      ∃ value, d.circuit.evaluate d.root world = .ok value ∧
        d.simplify.circuit.evaluate d.simplify.root world' = .ok value := by
  obtain ⟨wellFormed, small⟩ := wellFormed_folding plain inside
  obtain ⟨wellFormed', small'⟩ := wellFormed_simplify plain.wellFormed inside
  obtain ⟨naming, probs⟩ := labels_folding d
  obtain ⟨number, embeds, root, all⟩ := embeds_simplify plain inside
  have stands := stands_core plain inside
  generalize d.simplify = result at *
  choose! origin path same using all
  have of_input : ∀ {input}, input ∈ result.circuit.inputs →
      d.folding.circuit.Reads d.core (origin input) ∧ number (origin input) = input := by
    intro input listed
    have is_input := (wellFormed'.inStep.inputs input).1 listed
    have inside' := lt_of_input is_input
    refine ⟨⟨path input inside', ?_⟩, same input inside'⟩
    rw [← embeds.kind _ (path input inside'), same input inside', is_input]
  refine ⟨origin, fun input listed input' listed' equal => ?_, fun input listed => ?_,
    fun world world' agree => ?_⟩
  · rw [← (of_input listed).2, equal, (of_input listed').2]
  · obtain ⟨reads, counterpart⟩ := of_input listed
    refine ⟨(plain.wellFormed.inStep.inputs _).2 (stands.reads _ reads).2, ?_, ?_⟩
    · have name := embeds.name? _ reads.1
      rw [counterpart] at name
      exact name.trans (congrArg (Naming.name? · (origin input)) naming)
    · have prob := embeds.prob _ reads.1
      rw [counterpart] at prob
      exact prob.trans (congrArg (Array.getD · (origin input) Scalar.one) probs)
  · have formula' : result.circuit.IsFormula result.root := by
      rw [root]
      exact (embeds.isFormula_iff wellFormed.inStep.even wellFormed.acyclic wellFormed'.inStep.even
        wellFormed'.acyclic).2 stands.formula
    have value : result.circuit.value world' result.root = d.circuit.value world d.root := by
      rw [root] at formula' ⊢
      refine (embeds.value stands.formula formula' fun input reads => ?_).trans (stands.value world)
      have listed : number input ∈ result.circuit.inputs :=
        (wellFormed'.inStep.inputs _).2 ((embeds.kind input reads.1).trans reads.2)
      obtain ⟨reads', counterpart⟩ := of_input listed
      rw [agree _ listed, embeds.injOn reads'.1 reads.1 counterpart]
    exact ⟨_, (plain.isFormula inside).evaluate world, value ▸ formula'.evaluate world'⟩

/-- Simplifying a plain circuit leaves the root with its value, in terms of inputs of before with their names and
probabilities.  Gates come behind their children, the root last, and all are reached from it.  Only the root may
be a constant, and no conjunction or disjunction has one child.  The circuit is decomposable and deterministic if
it was, and simplifying it once more changes nothing. -/
theorem simplify_faithful :
    (∃ origin : Nat → Nat, Set.InjOn origin {input | input ∈ d.simplify.circuit.inputs} ∧
      (∀ input ∈ d.simplify.circuit.inputs, origin input ∈ d.circuit.inputs ∧
        d.simplify.circuit.name? input = d.circuit.name? (origin input) ∧
        d.simplify.circuit.prob input = d.circuit.prob (origin input)) ∧
      ∀ world world' : World, (∀ input ∈ d.simplify.circuit.inputs, world' input = world (origin input)) →
        ∃ value, d.circuit.evaluate d.root world = .ok value ∧
          d.simplify.circuit.evaluate d.simplify.root world' = .ok value) ∧
    (∀ gate, ∀ child ∈ d.simplify.circuit.children gate, child < gate) ∧
    d.simplify.root + 1 = d.simplify.circuit.size ∧
    (∀ gate < d.simplify.circuit.size, d.simplify.circuit.Reaches d.simplify.root gate) ∧
    (∀ gate < d.simplify.circuit.size, gate ≠ d.simplify.root → d.simplify.circuit.constant? gate = none) ∧
    (∀ gate, d.simplify.circuit.kind gate = .and ∨ d.simplify.circuit.kind gate = .or →
      (d.simplify.circuit.children gate).length ≠ 1) ∧
    (d.circuit.Decomposable d.root → d.simplify.circuit.Decomposable d.simplify.root) ∧
    (d.circuit.Deterministic d.root → d.simplify.circuit.Deterministic d.simplify.root) ∧
    d.simplify.simplify = d.simplify := by
  obtain ⟨wellFormed, small⟩ := wellFormed_folding plain inside
  obtain ⟨wellFormed', small'⟩ := wellFormed_simplify plain.wellFormed inside
  obtain ⟨number, embeds, root, -⟩ := embeds_simplify plain inside
  have stands := stands_core plain inside
  have normal := normal_simplify plain inside
  have formula' : d.simplify.circuit.IsFormula (number d.core) :=
    (embeds.isFormula_iff wellFormed.inStep.even wellFormed.acyclic wellFormed'.inStep.even wellFormed'.acyclic).2
      stands.formula
  have layered : ∀ gate, ∀ child ∈ d.simplify.circuit.children gate, child < gate := by
    rw [simplify_eq]
    exact layered_extract wellFormed small
  have last : d.simplify.root + 1 = d.simplify.circuit.size := by
    rw [simplify_eq]
    exact root_extract wellFormed small
  have decomposable : d.circuit.Decomposable d.root → d.simplify.circuit.Decomposable d.simplify.root := by
    rw [root]
    exact fun decomposable => embeds.decomposable (stands.decomposable decomposable)
  have deterministic : d.circuit.Deterministic d.root → d.simplify.circuit.Deterministic d.simplify.root := by
    rw [root]
    exact fun deterministic => embeds.deterministic stands.formula formula' (stands.deterministic deterministic)
  have constants : ∀ gate < d.simplify.circuit.size, gate ≠ d.simplify.root →
      d.simplify.circuit.constant? gate = none := by
    intro gate inside' different
    -- what is not the root is the child of a gate
    have path := reaches_simplify plain inside inside'
    rcases Relation.ReflTransGen.cases_tail path with same | ⟨parent, path, wire⟩
    · exact absurd same different
    · exact (normal parent path).1 gate wire
  have junctions : ∀ gate, d.simplify.circuit.kind gate = .and ∨ d.simplify.circuit.kind gate = .or →
      (d.simplify.circuit.children gate).length ≠ 1 := by
    intro gate junction
    have defined : d.simplify.circuit.kind gate ≠ .undetermined := by
      rcases junction with kind | kind <;> simp [kind]
    have inside' : gate < d.simplify.circuit.size := lt_of_kind defined
    exact (normal gate (reaches_simplify plain inside inside')).2 junction
  exact ⟨exists_origin plain inside, layered, last, fun gate small => reaches_simplify plain inside small,
    constants, junctions, decomposable, deterministic, simplify_simplify plain inside⟩

end

/-! ## A circuit with constants -/

/-- An input or else another one, written with constants, a conjunction of one input and one that is false. -/
def cluttered : Circuit Rat :=
  let inputs := (((Circuit.empty.addInput (1 / 2)).2.setName 0 "x").addInput (1 / 3)).2
  let constants := ((((inputs.addNode .not [0]).2.addNode .and []).2.addNode .or []).2.addNode .not [4]).2
  ((((constants.addNode .and [2, 3, 1, 5]).2.addNode .and [1, 4]).2.addNode .and [0, 3]).2.addNode .or
    [8, 6, 7]).2

theorem plain_cluttered : cluttered.Plain := by
  have inputs : (((Circuit.empty.addInput (1 / 2 : Rat)).2.setName 0 "x").addInput (1 / 3)).2.InStep :=
    ((inStep_empty.addInput _).setName _).addInput _
  have constants := InStep.addNode _ .not [4] (InStep.addNode _ .or [] (InStep.addNode _ .and []
    (InStep.addNode _ .not [0] inputs)))
  have inStep : cluttered.InStep := InStep.addNode _ _ _ (InStep.addNode _ _ _ (InStep.addNode _ _ _
    (InStep.addNode _ _ _ constants)))
  exact plain_of_table inStep (by decide +kernel)

theorem decomposable_cluttered : cluttered.Decomposable 9 :=
  plain_cluttered.decomposable_of_table 9 (by decide +kernel)

theorem deterministic_cluttered : cluttered.Deterministic 9 := by
  intro gate _ is_or world
  have disjunctions : ∀ gate < cluttered.size, cluttered.kind gate = .or → gate = 4 ∨ gate = 9 := by
    decide +kernel
  have formula : ∀ gate < cluttered.size, cluttered.IsFormula gate := fun gate => plain_cluttered.isFormula
  have small : gate < cluttered.size := lt_of_kind (is_or ▸ by decide)
  have falsum : cluttered.value world 4 = [].any (cluttered.value world) :=
    (formula 4 (by decide)).value_or world rfl
  have negation : cluttered.value world 2 = !cluttered.value world 0 :=
    (formula 2 (by decide)).value_not world rfl rfl
  have second : cluttered.value world 6 = [2, 3, 1, 5].all (cluttered.value world) :=
    (formula 6 (by decide)).value_and world rfl
  have dead : cluttered.value world 7 = [1, 4].all (cluttered.value world) :=
    (formula 7 (by decide)).value_and world rfl
  have first : cluttered.value world 8 = [0, 3].all (cluttered.value world) :=
    (formula 8 (by decide)).value_and world rfl
  rcases disjunctions gate small is_or with rfl | rfl
  · exact List.Pairwise.nil
  · show [8, 6, 7].Pairwise _
    simp +contextual [first, second, dead, falsum, negation]

/-- Five gates are left: the inputs, a negation, a conjunction and the root. -/
theorem simplify_faithful_cluttered :
    cluttered.Plain ∧ 9 < cluttered.size ∧ cluttered.Decomposable 9 ∧ cluttered.Deterministic 9 ∧
    (ofCircuit cluttered 9).simplify.circuit.kinds = #[.input, .not, .input, .and, .or] ∧
    (ofCircuit cluttered 9).simplify.circuit.wires = #[[], [0], [], [1, 2], [0, 3]] ∧
    (ofCircuit cluttered 9).simplify.circuit.name? 0 = some "x" ∧
    (ofCircuit cluttered 9).simplify.circuit.prob 2 = 1 / 3 ∧
    (∃ origin : Nat → Nat, ∀ world : World, ∃ value, cluttered.evaluate 9 world = .ok value ∧
      (ofCircuit cluttered 9).simplify.circuit.evaluate (ofCircuit cluttered 9).simplify.root
        (world ∘ origin) = .ok value) ∧
    (ofCircuit cluttered 9).simplify.root + 1 = (ofCircuit cluttered 9).simplify.circuit.size ∧
    (ofCircuit cluttered 9).simplify.circuit.Decomposable (ofCircuit cluttered 9).simplify.root ∧
    (ofCircuit cluttered 9).simplify.circuit.Deterministic (ofCircuit cluttered 9).simplify.root ∧
    (ofCircuit cluttered 9).simplify.simplify = (ofCircuit cluttered 9).simplify := by
  have inside : 9 < cluttered.size := by decide
  obtain ⟨⟨origin, _, _, values⟩, _, last, _, _, _, decomposable, deterministic, again⟩ :=
    simplify_faithful (d := ofCircuit cluttered 9) plain_cluttered inside
  exact ⟨plain_cluttered, inside, decomposable_cluttered, deterministic_cluttered, by decide +kernel,
    by decide +kernel, by decide +kernel, by decide +kernel,
    ⟨origin, fun world => values world (world ∘ origin) fun _ _ => rfl⟩, last,
    decomposable decomposable_cluttered, deterministic deterministic_cluttered, again⟩

end DDnnf

end Provenance
