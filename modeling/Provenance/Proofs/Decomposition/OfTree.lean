import Provenance.Proofs.DDnnf.Probability
import Provenance.Proofs.Decomposition.Compile
import Provenance.Proofs.Decomposition.Decompose
import Provenance.Proofs.Outcome

/-!
# From the circuit to its probability along a decomposition

A circuit in which all gates have values is compiled along the decomposition that elimination makes of it,
so the compilation fails only when the circuit is too wide (`ofTree_cases`).  The compiled circuit has the
same inputs under other numbers, and the chance of its root, which products and sums find, is that of the
gate (`probability_of_compiled`).
-/

namespace Provenance

open Provenance.Network

variable {α : Type} {c : Circuit α}

/-! ## Elimination -/

/-- An elimination fails only at a vertex with too many neighbours. -/
theorem Elimination.run_eq_error {maxWidth remaining : Nat} {e : Elimination} {failure : Failure}
    (failed : run maxWidth remaining e = .error failure) :
    ∃ width, maxWidth < width ∧ failure = .of (.treewidthExceeded width maxWidth) := by
  have visits := run_visits (.first : Visits maxWidth e e) remaining
  simp only [failed] at visits
  obtain ⟨last, vertex, _, _, _, wide, rfl⟩ := visits
  exact ⟨_, wide, rfl⟩

/-- No bag of an elimination is empty, unless nothing was there to eliminate. -/
theorem Elimination.bag_decomposition_ne_empty {e : Elimination}
    (some_gate : (∃ gate, gate ∈ e.graph.vertices) ∨ 0 < e.done.size) {b : Nat}
    (inside : b < e.decomposition.size) : e.decomposition.bag b ≠ ∅ := by
  have nonempty : ∃ gate, gate ∈ e.decomposition.bag b := by
    have inside : b < e.bags.length := inside
    by_cases eliminated : b < e.done.size
    · refine ⟨e.done[b].vertex, mem_bag_decomposition.2 (Or.inl ⟨e.done[b], ?_, ?_⟩)⟩
      · exact Array.getElem?_eq_getElem eliminated
      · exact GateSet.mem_insert.2 (Or.inl rfl)
    · rcases e.root_cases with ⟨root, length⟩ | ⟨root, length, _⟩
      · -- the last bag is what is left, and it was kept
        have last : b = e.done.size := by omega
        by_contra none
        have empty : e.graph.vertices.isEmpty = true := GateSet.isEmpty_iff.2 fun gate left =>
          none ⟨gate, mem_bag_decomposition.2 (Or.inr ⟨last, left⟩)⟩
        rcases some_gate with ⟨gate, left⟩ | some_bag
        · exact GateSet.isEmpty_iff.1 empty gate left
        · have some_bag : (e.done.toList.map Eliminated.bag).isEmpty = false := by
            rw [List.isEmpty_eq_false_iff, ne_eq, ← List.length_eq_zero_iff, List.length_map,
              Array.length_toList]
            omega
          simp only [Elimination.bags, empty, some_bag] at length
          simp at length
      · omega
  obtain ⟨gate, member⟩ := nonempty
  exact fun none => GateSet.not_mem_emptyCollection (none ▸ member)

namespace Circuit

/-- A decomposition fails only when the circuit is too wide. -/
theorem decompose_eq_error {maxWidth : Nat} {failure : Failure}
    (failed : c.decompose maxWidth = .error failure) :
    ∃ width, maxWidth < width ∧ failure = .of (.treewidthExceeded width maxWidth) := by
  rw [decompose] at failed
  cases ran : Elimination.run maxWidth (PrimalGraph.ofCircuit c).vertexCount
      (.start (PrimalGraph.ofCircuit c)) with
  | error other =>
    simp only [ran, Except.map, Except.error.injEq] at failed
    exact failed ▸ Elimination.run_eq_error ran
  | ok e => simp [ran, Except.map] at failed

/-- A circuit in which all gates have values can be compiled along the decomposition made of it. -/
theorem compilable_decompose (wellFormed : c.WellFormed)
    (evaluable : ∀ gate < c.size, c.Evaluable gate) {root maxWidth : Nat} (inside : root < c.size)
    {tree : Decomposition} (made : c.decompose maxWidth = .ok tree) :
    Compilation.Compilable c root tree := by
  rw [decompose, Outcome.map_eq_ok] at made
  obtain ⟨e, ran, rfl⟩ := made
  obtain ⟨here, _⟩ := Elimination.run_spec
    (Elimination.eliminating_start (PrimalGraph.simple_ofCircuit c) maxWidth) (Nat.le_refl _) ran
  have defined : ∀ {gate}, gate < c.size → c.kind gate ≠ .undetermined := by
    intro gate small kind
    have evaluable := evaluable gate small
    simp [Evaluable, kind] at evaluable
  have held : ∀ gate, (∃ b, gate ∈ e.decomposition.bag b) ↔ c.kind gate ≠ .undetermined :=
    fun gate => (Elimination.mem_bags_decomposition here gate).trans PrimalGraph.mem_vertices_ofCircuit
  have covers : ∀ gate, ∀ child ∈ c.children gate,
      ∃ b, gate ∈ e.decomposition.bag b ∧ child ∈ e.decomposition.bag b := by
    intro gate child wire
    have left := defined (wellFormed.inStep.even.lt_of_wire wire)
    have right := defined (wellFormed.within gate child wire)
    have different : gate ≠ child := by
      rintro rfl
      exact wellFormed.acyclic.not_mem_children gate wire
    refine Elimination.exists_bag_of_joined here (here.edges gate child ?_)
    exact (PrimalGraph.mem_neighbours_ofCircuit left right).2 ⟨different, Or.inl wire⟩
  have some_gate : (∃ gate, gate ∈ e.graph.vertices) ∨ 0 < e.done.size := by
    have vertex := PrimalGraph.mem_vertices_ofCircuit.2 (defined inside)
    refine ((here.vertices root).1 vertex).imp (fun left => ⟨root, left⟩) ?_
    rintro ⟨gone, member, _⟩
    exact Array.size_pos_of_mem member
  exact
    { inStep := wellFormed.inStep
      acyclic := wellFormed.acyclic
      evaluable := evaluable
      root_lt := inside
      decomposes := ⟨Elimination.isTree_decomposition here, covers,
        Elimination.connected_decomposition here⟩
      filled := fun b small => Elimination.bag_decomposition_ne_empty some_gate small
      lt_of_mem := fun b gate member => lt_of_kind ((held gate).1 ⟨b, member⟩)
      held := fun gate small => (held gate).2 (defined small) }

end Circuit

/-! ## Probabilities -/

namespace Circuit

variable {c target : Circuit Rat} {root top : Nat} {number : Nat → Nat}

section Renumbered

variable (inStep : c.InStep) (same : Compilation.SameInputs c target number)

include inStep same

theorem injOn_of_sameInputs : Set.InjOn number c.inputs.toFinset := fun a left b right equal =>
  same.injective a b ((inStep.inputs a).1 left) ((inStep.inputs b).1 right) equal

theorem prob_of_sameInputs : ∀ input ∈ c.inputs.toFinset, target.prob (number input) = c.prob input :=
  fun input member => same.prob input ((inStep.inputs input).1 member)

theorem inputs_eq_image (inStep' : target.InStep) :
    target.inputs.toFinset = c.inputs.toFinset.image number := by
  ext gate
  rw [GateSet.mem_toFinset, inStep'.inputs, Finset.mem_image]
  constructor
  · intro kind
    obtain ⟨input, is_input, rfl⟩ := same.onto gate kind
    exact ⟨input, (inStep.inputs input).2 is_input, rfl⟩
  · rintro ⟨input, member, rfl⟩
    exact same.kind input ((inStep.inputs input).1 member)

/-- A gate has in a world the value that one has in the same world of the same inputs. -/
theorem value_among_image (formula : c.IsFormula root)
    (value : ∀ world, target.value world top = c.value (fun input => world (number input)) root)
    {N : Finset Nat} (inside : N ⊆ c.inputs.toFinset) :
    target.value (among (N.image number)) top = c.value (among N) root := by
  rw [value]
  refine value_congr formula fun input reads => decide_eq_decide.2 ?_
  have listed : input ∈ c.inputs.toFinset := (inStep.inputs input).2 reads.2
  refine ⟨fun member => ?_, fun member => Finset.mem_image_of_mem number member⟩
  obtain ⟨other, there, equal⟩ := Finset.mem_image.1 member
  exact injOn_of_sameInputs inStep same (inside there) listed equal ▸ there

/-- A gate has the same chance as one that has its value when the inputs get other numbers. -/
theorem chance_eq_of_sameInputs (inStep' : target.InStep) (formula : c.IsFormula root)
    (value : ∀ world, target.value world top = c.value (fun input => world (number input)) root) :
    target.chance top = c.chance root := by
  rw [chance, inputs_eq_image inStep same inStep', chance]
  exact chance_image (injOn_of_sameInputs inStep same) (prob_of_sameInputs inStep same)
    fun N inside => value_among_image inStep same formula value inside

end Renumbered

end Circuit

namespace DDnnf

variable {c : Circuit Rat} {root : Nat}

/-- A circuit in which all gates have values is too wide, or products and sums on what is compiled along
a decomposition of it give the chance of the gate. -/
theorem ofTree_cases (wellFormed : c.WellFormed) (evaluable : ∀ gate < c.size, c.Evaluable gate)
    (inside : root < c.size) :
    (∃ width, Circuit.widthLimit < width ∧
      c.decompose Circuit.widthLimit = .error (.of (.treewidthExceeded width Circuit.widthLimit)) ∧
      ofTree c root = .error (.of (.treewidthExceeded width Circuit.widthLimit))) ∨
    ∃ d : DDnnf Rat, ofTree c root = .ok d ∧ d.probability.1 = .ok (c.chance root) := by
  cases made : c.decompose Circuit.widthLimit with
  | error failure =>
    obtain ⟨width, wide, rfl⟩ := Circuit.decompose_eq_error made
    exact Or.inl ⟨width, wide, rfl, by rw [ofTree, made]; rfl⟩
  | ok tree =>
    have compilable := Circuit.compilable_decompose wellFormed evaluable inside made
    obtain ⟨target, top, number, compiled, sound, small, same, -, value⟩ := compilable.exists_compiled
    refine Or.inr ⟨ofCircuit target top, by rw [ofTree, made]; exact compiled, ?_⟩
    rw [probability_eq_chance sound.inStep (sound.isFormula small) (sound.decomposable top)
      (sound.deterministic top)]
    exact congrArg Except.ok (Circuit.chance_eq_of_sameInputs wellFormed.inStep same sound.inStep
      (wellFormed.isFormula evaluable inside) value)

end DDnnf

end Provenance
