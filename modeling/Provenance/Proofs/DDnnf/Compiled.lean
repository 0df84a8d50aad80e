import Provenance.Proofs.DDnnf.Dialect
import Provenance.Proofs.DDnnf.Probability
import Provenance.Proofs.DDnnf.Projection
import Provenance.Proofs.Nnf.DecisionText
import Provenance.Proofs.Nnf.Forget
import Provenance.Proofs.Nnf.Text

/-!
# Compiled formulas that are read back

A text that a compiler may give for the encoding of a circuit (`Answers`) is taken, and the circuit made of
it has the value of the root in each world.  Its disjunctions need not be deterministic, because terms of the
formula may differ in variables that were forgotten; but each gate weighs what the node weighs when these
variables weigh nothing (`Projects.weight_eq`), so products and sums still find the probability of the root.
-/

namespace Provenance

open Provenance.Circuit Provenance.Nnf

/-! ## What the gates compute -/

namespace Projection

variable {nodes : List NnfNode} {position : Nat}

/-- The gate of a node has its value, as far as inputs go. -/
theorem Projects.value_eq {α : Type} [Scalar α] {source : Circuit α} {p : Projection α}
    (projects : p.Projects source nodes) (ordered : Ordered nodes) {world world' : World}
    (agrees : ∀ input gate : Nat, p.inputs[input]? = some gate → world' gate = world input)
    (inside : position < nodes.length) : p.target.value world' (p.gates.getD position 0) =
      reading (Nnf.truth (inputHolds source world)) nodes position := by
  have proper := projects.proper
  have defined : ∀ {gate kind}, p.target.kind gate = kind → kind ≠ .undetermined →
      p.target.IsFormula gate := fun is_kind defined => proper.isFormula (lt_of_kind (is_kind ▸ defined))
  have positive : ∀ {input gate : Nat}, p.inputs[input]? = some gate →
      p.target.value world' gate = world input := by
    intro input gate found
    have kind := (proper.copies input gate found).kind
    rw [(defined kind (by decide)).value_input world' kind, agrees input gate found]
  refine projects.reading_eq _ ordered (fun gate l represents => ?_) (fun gate kind => ?_)
    (fun gate kind => ?_) inside
  · show p.target.value world' gate = inputHolds source world l
    unfold inputHolds Literal.holds
    rcases represents.literal_cases with ⟨input, sign, found⟩ | ⟨input, sign, negates⟩ | ⟨input, truth⟩
    · rw [if_pos input, positive found, sign, beq_true]
    · obtain ⟨copy, found, only⟩ := negates.child
      rw [if_pos input, (defined negates.kind (by decide)).value_not world' negates.kind only,
        positive found, sign, beq_false]
    · rw [if_neg input, (defined truth.kind (by decide)).value_and world' truth.kind, truth.children]
      rfl
  · rw [(defined kind (by decide)).value_and world' kind]
    show _ = ((p.target.children gate).map (p.target.value world')).all id
    rw [List.all_map]
    rfl
  · rw [(defined kind (by decide)).value_or world' kind]
    show _ = ((p.target.children gate).map (p.target.value world')).any id
    rw [List.any_map]
    rfl

/-- The gate of a node weighs what the node weighs when only inputs have weights. -/
theorem Projects.weight_eq {source : Circuit Rat} {p : Projection Rat} (inStep : source.InStep)
    (projects : p.Projects source nodes) (ordered : Ordered nodes) {weight : Nat → Rat}
    (weighs : ∀ gate < p.target.size, DDnnf.Weighs p.target weight gate)
    (inside : position < nodes.length) : weight (p.gates.getD position 0) =
      reading (sums source.literalWeight) nodes position := by
  have proper := projects.proper
  have rule : ∀ {gate kind}, p.target.kind gate = kind → kind ≠ .undetermined →
      DDnnf.Weighs p.target weight gate := fun is_kind defined =>
    weighs _ (lt_of_kind (is_kind ▸ defined))
  have positive : ∀ {input gate : Nat}, p.inputs[input]? = some gate →
      weight gate = source.prob input := by
    intro input gate found
    have copies := proper.copies input gate found
    have weighs := rule copies.kind (by decide)
    simp only [DDnnf.Weighs, copies.kind] at weighs
    rw [weighs, copies.prob]
  refine projects.reading_eq _ ordered (fun gate l represents => ?_) (fun gate kind => ?_)
    (fun gate kind => ?_) inside
  · show weight gate = source.literalWeight ⟨l.index, l.positive⟩
    rw [source.literalWeight_eq]
    simp only [inStep.inputs]
    rcases represents.literal_cases with ⟨input, sign, found⟩ | ⟨input, sign, negates⟩ | ⟨input, truth⟩
    · rw [if_pos input, if_pos sign, positive found]
    · obtain ⟨copy, found, only⟩ := negates.child
      have weighs := rule negates.kind (by decide)
      simp only [DDnnf.Weighs, negates.kind, only] at weighs
      obtain ⟨child, same, weighs⟩ := weighs
      rw [if_pos input, if_neg (Bool.eq_false_iff.1 sign), weighs, ← List.singleton_inj.1 same,
        positive found]
    · have weighs := rule truth.kind (by decide)
      simp only [DDnnf.Weighs, truth.kind, truth.children] at weighs
      rw [if_neg input]
      exact weighs
  · have weighs := rule kind (by decide)
    simp only [DDnnf.Weighs, kind] at weighs
    exact weighs
  · have weighs := rule kind (by decide)
    simp only [DDnnf.Weighs, kind] at weighs
    exact weighs

end Projection

/-! ## Texts that are read -/

namespace DDnnf

/-- A text writes a formula in one of the dialects. -/
def Writes (text : String) (formula : Nnf) : Prop :=
  Nnf.ofText text = .ok formula ∨
    ∃ graph, DecisionGraph.ofText text = .ok graph ∧ graph.toNnf = .ok formula

/-- A text answers what a compiler was asked: it writes a decomposable formula about the variables of the
encoding that has the same models; the number of variables may be left open. -/
structure Answers {α : Type} (source : Circuit α) (encoding : Cnf) (text : String) (formula : Nnf) :
    Prop where
  writes : Writes text formula
  varCount : formula.header.varCount = 0 ∨ formula.header.varCount = source.size
  known : ∀ l, .literal l ∈ formula.nodes → l.index < source.size
  decomposable : Nnf.Decomposable formula.nodes (formula.nodes.length - 1)
  models : ∀ assignment : Nat → Bool,
    (valuesFrom assignment formula.nodes []).getLast? = some (encoding.holds assignment)

variable {text : String} {formula : Nnf}

/-- What a text writes is read in its dialect, and is ordered. -/
theorem Writes.exists_dialect (writes : Writes text formula) : ∃ dialect,
    dialectOf text = some dialect ∧
    readFormula text dialect = .ok ⟨formula.header, formula.nodes, .ok ()⟩ ∧ Ordered formula.nodes := by
  rcases writes with nodes | ⟨graph, taken, made⟩
  · simp only [Nnf.ofText, Outcome.bind_eq_ok] at nodes
    obtain ⟨⟨header, nodes, ending⟩, taken, made⟩ := nodes
    obtain ⟨_, rfl, rfl⟩ := Outcome.map_eq_ok.1 made
    exact ⟨.nnf, dialectOf_of_nodes taken, taken, NnfReading.ordered_of_ofText taken⟩
  · have some_node : 0 < graph.size := by
      by_contra none
      have none : graph.size = 0 := by omega
      simp [DecisionGraph.toNnf, none] at made
    refine ⟨.decisions, dialectOf_of_graph taken some_node, ?_,
      DecisionGraph.ordered_of_toNnf (DecisionGraph.matched_of_ofText taken) made⟩
    simp only [readFormula, taken, made, bind, Except.bind]

namespace Answers

variable {c : Circuit Rat} {encoding : Cnf}

theorem ne_nil {α : Type} {source : Circuit α} (answers : Answers source encoding text formula) :
    formula.nodes ≠ [] := by
  intro none
  have models := answers.models fun _ => false
  simp [none, valuesFrom] at models

/-- The circuit of the formula is what is read. -/
theorem exists_projects {α : Type} [Scalar α] {source : Circuit α} (inStep : source.InStep)
    (answers : Answers source encoding text formula) :
    ∃ p : Projection α, p.Projects source formula.nodes ∧
      ofCompiled source text = .ok (ofCircuit p.target (p.gates.getD (formula.nodes.length - 1) 0)) := by
  obtain ⟨dialect, found, read, ordered⟩ := answers.writes.exists_dialect
  obtain ⟨p, made, projects⟩ := Projection.exists_projects inStep.naming ordered answers.known
  have some_gate : p.gates.size - 1 < p.gates.size := by
    have := List.length_pos_iff.2 answers.ne_nil
    rw [projects.size]
    omega
  have last : p.gates.back? = some (p.gates.getD (formula.nodes.length - 1) 0) := by
    rw [Array.back?_eq_getElem?, Array.getD_eq_getD_getElem?, ← projects.size,
      Array.getElem?_eq_getElem some_gate, Option.getD_some]
  have header : Projection.checkHeader source formula.header = .ok () := by
    rw [Projection.checkHeader, Outcome.require_eq_ok]
    simpa using answers.varCount
  refine ⟨p, projects, ?_⟩
  simp only [ofCompiled, found, read, ofReading, header, made, last, Outcome.ofOption, Except.bind, bind,
    Except.mapError]

/-- The nodes are what a compiler may give. -/
theorem compiles {root : Nat} (wellFormed : c.WellFormed) (made : c.tseytin root = .ok encoding)
    (inside : root < c.size) (answers : Answers c encoding text formula) :
    Compiles encoding formula.nodes (formula.nodes.length - 1) where
  ordered := by
    obtain ⟨_, _, _, ordered⟩ := answers.writes.exists_dialect
    exact ordered
  inside := Nat.sub_one_lt_of_lt (List.length_pos_iff.2 answers.ne_nil)
  known := by
    rw [varCount_of_tseytin wellFormed made inside]
    exact answers.known
  decomposable := answers.decomposable
  models assignment := by
    have models := answers.models assignment
    rw [getLast?_valuesFrom assignment answers.ne_nil] at models
    exact Option.some.inj models

/-- Products and sums find the probability of the root when the formula is deterministic. -/
theorem probability_eq_chance {root : Nat} (wellFormed : c.WellFormed)
    (made : c.tseytin root = .ok encoding) (inside : root < c.size)
    (answers : Answers c encoding text formula)
    (deterministic : Nnf.Deterministic formula.nodes (formula.nodes.length - 1)) {p : Projection Rat}
    (projects : p.Projects c formula.nodes) :
    (ofCircuit p.target (p.gates.getD (formula.nodes.length - 1) 0)).probability.1 =
      .ok (c.chance root) := by
  have compiles := answers.compiles wellFormed made inside
  have top := projects.proper.isFormula (projects.gate_lt compiles.inside)
  obtain ⟨weight, weighs⟩ := exists_weights top.acyclic
  have weighs : ∀ gate < p.target.size, Weighs p.target weight gate := fun gate small =>
    weighs gate (projects.proper.evaluable gate small)
  refine (probabilityOf_eq_ok top.even top.acyclic top.inside (fun gate path => weighs gate ?_)
    fun gate _ q remembered => ?_).trans (congrArg Except.ok ?_)
  · exact top.inside gate path
  · simp [ofCircuit] at remembered
  · exact (projects.weight_eq wellFormed.inStep compiles.ordered weighs compiles.inside).trans
      (compiles.reading_literalWeight wellFormed made inside deterministic)

end Answers

/-- A compiler's answer is read back: the inputs of the result are inputs of the circuit, its root has the
value of the root of the circuit in each world, and products and sums on it find the probability of the root
when the formula is deterministic. -/
theorem ofCompiled_spec {c : Circuit Rat} {root : Nat} {encoding : Cnf} (wellFormed : c.WellFormed)
    (inside : root < c.size) (made : c.tseytin root = .ok encoding)
    (answers : Answers c encoding text formula) :
    ∃ (d : DDnnf Rat) (origin : Nat → Nat), ofCompiled c text = .ok d ∧
      (∀ input, d.circuit.kind input = .input → c.kind (origin input) = .input ∧
        d.circuit.name? input = c.name? (origin input) ∧
        d.circuit.prob input = c.prob (origin input)) ∧
      (∀ a b, d.circuit.kind a = .input → d.circuit.kind b = .input → origin a = origin b → a = b) ∧
      (∀ world, ∃ value, c.evaluate root world = .ok value ∧
        d.circuit.evaluate d.root (fun input => world (origin input)) = .ok value) ∧
      (Nnf.Deterministic formula.nodes (formula.nodes.length - 1) →
        d.probability.1 = .ok (c.chance root)) := by
  have compiles := answers.compiles wellFormed made inside
  have isFormula := isFormula_of_tseytin wellFormed made inside
  obtain ⟨p, projects, taken⟩ := answers.exists_projects wellFormed.inStep
  have proper := projects.proper
  have top := proper.isFormula (projects.gate_lt compiles.inside)
  choose! origin noted using proper.onto
  have agrees : ∀ (world : World) (input gate : Nat), p.inputs[input]? = some gate →
      world (origin gate) = world input := by
    intro world input gate found
    have kind := (proper.copies input gate found).kind
    rw [proper.injective (origin gate) input gate (noted gate kind) found]
  refine ⟨_, origin, taken, fun input kind => ?_, fun a b left right same => ?_, fun world => ?_,
    fun deterministic => ?_⟩
  · have copies := proper.copies (origin input) input (noted input kind)
    exact ⟨copies.is_input, copies.name?, copies.prob⟩
  · have found := noted a left
    rw [same, noted b right] at found
    exact (Option.some.inj found).symm
  · refine ⟨_, isFormula.evaluate world, (top.evaluate _).trans (congrArg Except.ok ?_)⟩
    rw [projects.value_eq compiles.ordered (agrees world) compiles.inside,
      compiles.reading_inputHolds wellFormed made inside]
  · exact answers.probability_eq_chance wellFormed made inside deterministic projects

/-- What a compiler may answer for the encoding of the conjunction of two inputs. -/
def conjunctionAnswer : String := "nnf 4 3 3\nL 1\nL 2\nL 3\nA 3 0 1 2\n"

theorem answers_conjunction : ∃ encoding formula, conjunction.tseytin 2 = .ok encoding ∧
    Answers conjunction encoding conjunctionAnswer formula ∧
      Nnf.Deterministic formula.nodes (formula.nodes.length - 1) := by
  obtain ⟨formula, same⟩ : ∃ formula : Nnf, formula = ⟨⟨3, 4, 3⟩, [.literal ⟨0, true⟩, .literal ⟨1, true⟩,
    .literal ⟨2, true⟩, .and [0, 1, 2]]⟩ := ⟨_, rfl⟩
  have literals : ∀ position < 3, formula.nodes[position]? = some (.literal ⟨position, true⟩) := by
    rw [same]
    decide
  have cases_of : ∀ {position : Nat} {node : NnfNode}, formula.nodes[position]? = some node →
      position < 3 ∧ node = .literal ⟨position, true⟩ ∨ node = .and [0, 1, 2] := by
    intro position node found
    rcases Nat.lt_or_ge position 3 with small | last
    · rw [literals position small] at found
      exact Or.inl ⟨small, (Option.some.inj found).symm⟩
    · have inside := (List.getElem?_eq_some_iff.1 found).1
      rw [same] at inside found
      obtain rfl : position = 3 := Nat.le_antisymm (Nat.lt_succ_iff.1 inside) last
      exact Or.inr (Option.some.inj found).symm
  refine ⟨_, formula, rfl, ⟨Or.inl (same ▸ rfl), Or.inr (same ▸ rfl), ?_, ?_, ?_⟩, ?_⟩
  · intro l listed
    obtain ⟨position, found⟩ := List.mem_iff_getElem?.1 listed
    rcases cases_of found with ⟨small, equal⟩ | equal
    · rw [NnfNode.literal.inj equal]
      exact small
    · cases equal
  · intro position children _ found
    rcases cases_of found with ⟨_, equal⟩ | equal
    · cases equal
    · obtain rfl := NnfNode.and.inj equal
      have different : [0, 1, 2].Pairwise (· ≠ ·) := by decide
      have small : ∀ child ∈ [0, 1, 2], child < 3 := by decide
      refine different.imp_of_mem fun {left right} wire wire' apart variable_ both => apart ?_
      rw [mentions_literal_iff (literals left (small left wire)),
        mentions_literal_iff (literals right (small right wire'))] at both
      exact both.1.trans both.2.symm
  · intro assignment
    have wires : conjunction.children 2 = [0, 1] := rfl
    rw [same]
    cases a : assignment 0 <;> cases b : assignment 1 <;> cases d : assignment 2 <;>
      simp [valuesFrom, Cnf.holds, Cnf.ofClauses, Literal.holds, Literal.pos, Literal.neg, wires, a, b, d]
  · intro position opposing children _ found
    rcases cases_of found with ⟨_, equal⟩ | equal
    · cases equal
    · cases equal

/-- The answer for the conjunction of two inputs is read back. -/
theorem ofCompiled_conjunction : conjunction.WellFormed ∧ 2 < conjunction.size ∧
    ∃ encoding formula, conjunction.tseytin 2 = .ok encoding ∧
      Answers conjunction encoding conjunctionAnswer formula ∧
      ∃ d, ofCompiled conjunction conjunctionAnswer = .ok d ∧
        d.probability.1 = .ok (conjunction.chance 2) := by
  obtain ⟨encoding, formula, made, answers, deterministic⟩ := answers_conjunction
  have inside : 2 < conjunction.size := by decide
  obtain ⟨d, _, taken, _, _, _, probability⟩ :=
    ofCompiled_spec wellFormed_conjunction inside made answers
  exact ⟨wellFormed_conjunction, inside, encoding, formula, made, answers, d, taken,
    probability deterministic⟩

end DDnnf

end Provenance
