import Provenance.Proofs.Circuit.Plain
import Provenance.Proofs.DDnnf.Smooth

/-!
# Smooth circuits stay as they are

Nothing is missing from the children of a disjunction below a smooth root, so smoothing adds no gate and changes
no wire there (`smooth_of_smooth`).  With what is known of a circuit that was made smooth, the second time leaves
it as it is (`smooth_faithful`).
-/

namespace Provenance

open Provenance.Order Provenance.Network Provenance.Circuit

namespace DDnnf

variable {α : Type} [Scalar α]

namespace Smoothing

variable {s : Smoothing α} {reads : Std.TreeMap Nat GateSet} {gate : Nat}

/-- Children from which nothing is missing are not padded. -/
theorem padAll_of_complete {all : GateSet} {children : List Nat}
    (complete : ∀ child ∈ children, (all.diff (reads.getD child ∅)).toList = []) :
    s.padAll reads all children = (children, s) := by
  induction children with
  | nil => rfl
  | cons child children ih =>
    obtain ⟨first, others⟩ := List.forall_mem_cons.1 complete
    rw [padAll, first]
    show (child :: (s.padAll reads all children).1, (s.padAll reads all children).2) = _
    rw [ih others]

/-- A disjunction with such children stays as it is. -/
theorem smoothGate_of_complete (complete : s.circuit.kind gate = .or → ∀ child ∈ s.circuit.children gate,
    lacking reads gate child = []) : smoothGate reads s gate = s := by
  unfold smoothGate
  split
  · rename_i is_or
    rw [padAll_of_complete (complete is_or)]
    show { s with circuit := s.circuit.setChildren gate (s.circuit.children gate) } = s
    rw [setChildren_self]
  · rfl

theorem foldl_smoothGate_of_complete {order : List Nat} (complete : ∀ gate ∈ order,
    s.circuit.kind gate = .or → ∀ child ∈ s.circuit.children gate, lacking reads gate child = []) :
    order.foldl (smoothGate reads) s = s := by
  induction order with
  | nil => rfl
  | cons gate order ih =>
    obtain ⟨first, others⟩ := List.forall_mem_cons.1 complete
    rw [List.foldl_cons, smoothGate_of_complete first, ih others]

end Smoothing

variable {d : DDnnf α}

/-- A smooth d-DNNF is what it is made to be. -/
theorem smooth_of_smooth (wellFormed : d.circuit.WellFormed) (inside : d.root < d.circuit.size)
    (smooth : d.circuit.Smooth d.root) : d.smooth = d.fresh := by
  have even := wellFormed.inStep.even
  have within := wellFormed.inside inside
  have reached : ∀ {gate}, gate ∈ d.order ↔ d.circuit.Reaches d.root gate := mem_postOrder even within
  have table := mem_readsInOrder wellFormed.inStep (childrenFirst_postOrder even within wellFormed.acyclic)
  have complete : ∀ gate ∈ d.order, d.circuit.kind gate = .or → ∀ child ∈ d.circuit.children gate,
      Smoothing.lacking (readsInOrder d.circuit d.order) gate child = [] := by
    intro gate listed is_or child wire
    have path := reached.1 listed
    refine List.eq_nil_iff_forall_not_mem.2 fun input lacked => ?_
    obtain ⟨own, missing⟩ := GateSet.mem_diff.1 (GateSet.mem_def.2 lacked)
    have reads := (smooth.reads_child path is_or wire input).2 ((table gate listed input).1 own)
    exact missing ((table child (reached.2 (path.child wire)) input).2 reads)
  have same := Smoothing.foldl_smoothGate_of_complete (s := ⟨d.circuit, ∅⟩) complete
  exact congrArg (fun s : Smoothing α => d.withCircuit s.circuit) same

/-- Smoothing a plain circuit leaves the gates of before with their values and what they read, the conjunctions
decomposable and the disjunctions deterministic below the root, and the inputs, names and probabilities as they
are.  The children of each disjunction below the root then read what the disjunction reads, and smoothing once
more changes nothing. -/
theorem smooth_faithful (plain : d.circuit.Plain) (inside : d.root < d.circuit.size) :
    d.smooth.root = d.root ∧
    (∀ gate < d.circuit.size,
      (∀ world, ∃ value, d.circuit.evaluate gate world = .ok value ∧
        d.smooth.circuit.evaluate gate world = .ok value) ∧
      ∀ input, d.smooth.circuit.Reads gate input ↔ d.circuit.Reads gate input) ∧
    (∀ gate, d.smooth.circuit.Reaches d.root gate → d.smooth.circuit.kind gate = .or →
      ∀ child ∈ d.smooth.circuit.children gate, ∀ input,
        d.smooth.circuit.Reads child input ↔ d.smooth.circuit.Reads gate input) ∧
    (d.circuit.Decomposable d.root → d.smooth.circuit.Decomposable d.root) ∧
    (d.circuit.Deterministic d.root → d.smooth.circuit.Deterministic d.root) ∧
    (d.smooth.circuit.inputs = d.circuit.inputs ∧ d.smooth.circuit.naming = d.circuit.naming ∧
      d.smooth.circuit.prob = d.circuit.prob) ∧
    d.smooth.smooth = d.smooth := by
  obtain ⟨c, made, refines, smooth⟩ := smooth_spec plain.wellFormed inside fun input reads =>
    plain.childless input reads.2
  rw [made]
  have same_inputs : c.inputs = d.circuit.inputs := GateSet.ext fun input => by
    rw [refines.wellFormed.inStep.inputs, plain.wellFormed.inStep.inputs, refines.input_iff]
  have again : (ofCircuit c d.root).smooth = ofCircuit c d.root :=
    smooth_of_smooth refines.wellFormed (inside.trans_le refines.size_le) smooth
  refine ⟨rfl, fun gate small => ⟨fun world => ?_, refines.reads_iff gate small⟩,
    fun gate path is_or child wire => smooth.reads_child path is_or wire, refines.decomposable d.root inside,
    refines.deterministic d.root inside, ⟨same_inputs, refines.naming, refines.prob⟩, again⟩
  have evaluated := (plain.isFormula small).evaluate world
  exact ⟨_, evaluated, (refines.evaluate_iff plain.wellFormed small world _).2 evaluated⟩

/-- In a circuit for an input or else another one, the first child of the root is padded with the second input. -/
theorem smooth_faithful_fallback :
    fallback.Plain ∧ 4 < fallback.size ∧ fallback.Deterministic 4 ∧ fallback.Decomposable 4 ∧
    (ofCircuit fallback 4).smooth.circuit.children 4 = [5, 3] ∧
    (ofCircuit fallback 4).smooth.circuit.children 5 = [0, 7] ∧
    (∀ input, (ofCircuit fallback 4).smooth.circuit.Reads 5 input ↔
      (ofCircuit fallback 4).smooth.circuit.Reads 4 input) ∧
    (ofCircuit fallback 4).smooth.circuit.Decomposable 4 ∧ (ofCircuit fallback 4).smooth.circuit.Deterministic 4 ∧
    (ofCircuit fallback 4).smooth.smooth = (ofCircuit fallback 4).smooth := by
  have inside : 4 < fallback.size := by decide
  have children : (ofCircuit fallback 4).smooth.circuit.children 4 = [5, 3] := by decide +kernel
  have is_or : (ofCircuit fallback 4).smooth.circuit.kind 4 = .or := by decide +kernel
  obtain ⟨_, _, alike, decomposable, deterministic, _, again⟩ :=
    smooth_faithful (d := ofCircuit fallback 4) plain_fallback inside
  have first : 5 ∈ (ofCircuit fallback 4).smooth.circuit.children 4 := by
    rw [children]
    exact List.mem_cons_self
  exact ⟨plain_fallback, inside, deterministic_fallback, decomposable_fallback, children, by decide +kernel,
    alike 4 (.refl 4) is_or 5 first, decomposable decomposable_fallback, deterministic deterministic_fallback,
    again⟩

end DDnnf

end Provenance
