import Provenance.DDnnf.Compiled
import Provenance.Proofs.Circuit.Variable
import Provenance.Proofs.Nnf.Terms
import Provenance.Proofs.Outcome

/-!
# The circuit of a formula

The nodes of a formula become gates one after the other: literals of inputs become copies of the inputs and
negations of them, other literals the constant true, and connectives connectives (`Represents`).  What was
made before stays when more is made (`Grows`), so in the end each node has its gate (`exists_projects`), and
whatever is computed gate by gate is the reading of the formula (`Projects.reading_eq`).
-/

namespace Provenance.Projection

open Provenance.Circuit Provenance.Network Provenance.Nnf

variable {α : Type} [Scalar α] {source : Circuit α} {p p' p'' : Projection α}

/-! ## Gates that are made -/

/-- A gate is the copy of an input. -/
structure Copies (source target : Circuit α) (input gate : Nat) : Prop where
  is_input : source.kind input = .input
  kind : target.kind gate = .input
  name? : target.name? gate = source.name? input
  prob : target.prob gate = source.prob input

/-- A gate is the negation of the copy of an input. -/
structure Negates (target : Circuit α) (inputs : Std.TreeMap Nat Nat) (input gate : Nat) : Prop where
  kind : target.kind gate = .not
  child : ∃ positive, inputs[input]? = some positive ∧ target.children gate = [positive]

/-- A gate is the constant true. -/
structure IsTruth (target : Circuit α) (gate : Nat) : Prop where
  kind : target.kind gate = .and
  children : target.children gate = []

section Extends

variable {target target' : Circuit α} (extends_ : target.Extends target') {input gate : Nat}

include extends_

theorem Copies.of_extends (copies : Copies source target input gate) : Copies source target' input gate := by
  have inside := lt_of_input copies.kind
  exact ⟨copies.is_input, (extends_.kind gate inside).trans copies.kind,
    (extends_.name? gate inside).trans copies.name?, (extends_.prob gate inside).trans copies.prob⟩

theorem Negates.of_extends {inputs inputs' : Std.TreeMap Nat Nat}
    (negates : Negates target inputs input gate)
    (kept : ∀ input gate : Nat, inputs[input]? = some gate → inputs'[input]? = some gate) :
    Negates target' inputs' input gate := by
  have inside : gate < target.size := lt_of_kind (by rw [negates.kind]; decide)
  obtain ⟨positive, found, children⟩ := negates.child
  exact ⟨(extends_.kind gate inside).trans negates.kind, positive, kept input positive found,
    (extends_.children gate inside).trans children⟩

theorem IsTruth.of_extends (truth : IsTruth target gate) : IsTruth target' gate := by
  have inside : gate < target.size := lt_of_kind (by rw [truth.kind]; decide)
  exact ⟨(extends_.kind gate inside).trans truth.kind, (extends_.children gate inside).trans truth.children⟩

end Extends

/-- The circuit so far has copies of inputs only, as the tables say, and all its gates have values. -/
structure Proper (source : Circuit α) (p : Projection α) : Prop where
  inStep : p.target.InStep
  layered : ∀ gate, ∀ child ∈ p.target.children gate, child < gate
  evaluable : ∀ gate < p.target.size, p.target.Evaluable gate
  copies : ∀ input gate : Nat, p.inputs[input]? = some gate → Copies source p.target input gate
  injective : ∀ a b gate : Nat, p.inputs[a]? = some gate → p.inputs[b]? = some gate → a = b
  onto : ∀ gate, p.target.kind gate = .input → ∃ input : Nat, p.inputs[input]? = some gate
  named : ∀ gate name, p.target.name? gate = some name → p.target.kind gate = .input
  negates : ∀ input gate : Nat, p.negations[input]? = some gate → Negates p.target p.inputs input gate
  isTruth : ∀ gate, p.truth = some gate → IsTruth p.target gate

theorem proper_empty (source : Circuit α) : Proper source Projection.empty where
  inStep := inStep_empty
  layered gate child wire := absurd wire (notMem_children_empty gate child)
  evaluable gate inside := absurd inside (Nat.not_lt_zero gate)
  copies input gate found := by simp [Projection.empty] at found
  injective a b gate found := by simp [Projection.empty] at found
  onto gate kind := absurd (lt_of_input kind) (Nat.not_lt_zero gate)
  named gate name named := by
    simp [Network.name?, Naming.name?, Projection.empty, Circuit.empty, Network.empty, Naming.empty]
      at named
  negates input gate found := by simp [Projection.empty] at found
  isTruth gate found := by simp [Projection.empty] at found

theorem Proper.isFormula (proper : p.Proper source) {gate : Nat} (inside : gate < p.target.size) :
    p.target.IsFormula gate where
  even := proper.inStep.even
  acyclic := acyclic_of_lt proper.layered
  evaluable other path := by
    refine proper.evaluable other ?_
    induction path with
    | refl => exact inside
    | tail _ wire below => exact (proper.layered _ _ wire).trans below

/-! ## Growth -/

/-- What was made before is there with the same meaning. -/
structure Grows (source : Circuit α) (p p' : Projection α) : Prop where
  proper : p'.Proper source
  extends_ : p.target.Extends p'.target
  inputs : ∀ input gate : Nat, p.inputs[input]? = some gate → p'.inputs[input]? = some gate
  gates : p'.gates = p.gates

namespace Grows

theorem refl (proper : p.Proper source) : p.Grows source p :=
  ⟨proper, .refl _, fun _ _ found => found, rfl⟩

theorem trans (first : p.Grows source p') (second : p'.Grows source p'') : p.Grows source p'' :=
  ⟨second.proper, first.extends_.trans second.extends_,
    fun input gate found => second.inputs input gate (first.inputs input gate found),
    second.gates.trans first.gates⟩

/-- A negation may be noted. -/
theorem note_negation (grows : p.Grows source p') {input gate : Nat}
    (negates : Negates p'.target p'.inputs input gate) :
    p.Grows source { p' with negations := p'.negations.insert input gate } := by
  refine ⟨{ grows.proper with negates := fun other gate' found => ?_ }, grows.extends_, grows.inputs,
    grows.gates⟩
  replace found : (p'.negations.insert input gate)[other]? = some gate' := found
  rw [Std.TreeMap.getElem?_insert] at found
  split at found
  · rename_i same
    obtain rfl := Nat.compare_eq_eq.1 same
    obtain rfl := Option.some.inj found
    exact negates
  · exact grows.proper.negates other gate' found

/-- The constant true may be noted. -/
theorem note_truth (grows : p.Grows source p') {gate : Nat} (truth : IsTruth p'.target gate) :
    p.Grows source { p' with truth := some gate } := by
  refine ⟨{ grows.proper with isTruth := fun gate' same => ?_ }, grows.extends_, grows.inputs, grows.gates⟩
  obtain rfl := Option.some.inj same
  exact truth

end Grows

section Step

variable (proper : p.Proper source)

include proper

/-- A connective may be put over gates that are there. -/
theorem Proper.grows_addNode (kind : Kind) (children : List Nat)
    (inside : ∀ child ∈ children, child < p.target.size)
    (fits : match kind with
      | .and | .or => True
      | .not => ∃ child, children = [child]
      | .input | .alternative | .undetermined => False) :
    p.Grows source { p with target := (p.target.addNode kind children).2 } := by
  have kinds := kind_addNode p.target kind children
  have wires := children_addNode p.target kind children proper.inStep
  have extends_ := Extends.addNode proper.inStep kind children
  have evaluable : (p.target.addNode kind children).2.Evaluable p.target.size := by
    unfold Evaluable
    rw [kinds, wires, if_pos rfl, if_pos rfl]
    cases kind <;> simp_all
  refine ⟨?_, extends_, fun _ _ found => found, rfl⟩
  exact
    { inStep := InStep.addNode _ _ _ proper.inStep
      layered := fun gate child wire => by
        rw [wires] at wire
        split at wire
        · rename_i last
          exact last ▸ inside child wire
        · exact proper.layered gate child wire
      evaluable := extends_.evaluable (size_addNode _ _ _) proper.evaluable evaluable
      copies := fun input gate found => (proper.copies input gate found).of_extends extends_
      injective := proper.injective
      onto := fun gate is_input => by
        refine proper.onto gate ?_
        rw [kinds] at is_input
        split at is_input
        · simp [is_input] at fits
        · exact is_input
      named := fun gate name named => by
        have named : p.target.name? gate = some name := by rwa [name?_addNode] at named
        have is_input := proper.named gate name named
        exact (extends_.kind gate (lt_of_input is_input)).trans is_input
      negates := fun input gate found =>
        (proper.negates input gate found).of_extends extends_ fun _ _ found => found
      isTruth := fun gate found => (proper.isTruth gate found).of_extends extends_ }

/-- An input that has no copy may get one. -/
theorem Proper.grows_addVariable (paired : source.naming.Paired) {input : Nat}
    (kind : source.kind input = .input) (new : p.inputs[input]? = none) :
    p.Grows source { p with
      target := addVariable source p.target input
      inputs := p.inputs.insert input p.target.size } := by
  have kinds := kind_addVariable source p.target input
  have anonymous : p.target.name? p.target.size = none := by
    refine Option.eq_none_iff_forall_ne_some.2 fun name named => ?_
    exact Nat.lt_irrefl _ (lt_of_input (proper.named _ name named))
  -- two inputs of the source have different names
  have free : ∀ other name, p.target.name? other = some name → source.name? input ≠ some name := by
    intro other name named taken
    obtain ⟨owner, found⟩ := proper.onto other (proper.named other name named)
    have same := paired.eq_of_name? taken ((proper.copies owner other found).name?.symm.trans named)
    rw [same, found] at new
    cases new
  have extends_ := extends_addVariable input proper.inStep free anonymous
  have names := fun other => name?_addVariable input proper.inStep other (free other) anonymous
  have evaluable : (addVariable source p.target input).Evaluable p.target.size := by
    rw [Evaluable, kinds, if_pos rfl]
    trivial
  have table : ∀ other : Nat, (p.inputs.insert input p.target.size)[other]? =
      if input = other then some p.target.size else p.inputs[other]? := by
    intro other
    rw [Std.TreeMap.getElem?_insert]
    simp only [Nat.compare_eq_eq]
  have before : ∀ {other gate : Nat}, p.inputs[other]? = some gate → gate < p.target.size :=
    fun found => lt_of_input (proper.copies _ _ found).kind
  have inputs : ∀ other gate : Nat, p.inputs[other]? = some gate →
      (p.inputs.insert input p.target.size)[other]? = some gate := by
    intro other gate found
    rw [table, if_neg, found]
    rintro rfl
    rw [found] at new
    cases new
  refine ⟨?_, extends_, inputs, rfl⟩
  exact
    { inStep := InStep.addVariable input proper.inStep
      layered := fun gate => by
        rw [children_addVariable]
        exact proper.layered gate
      evaluable := extends_.evaluable (size_addVariable _ _ _) proper.evaluable evaluable
      copies := fun other gate found => by
        rw [table] at found
        split at found
        · rename_i same
          subst same
          obtain rfl := Option.some.inj found
          exact ⟨kind, by rw [kinds, if_pos rfl], by rw [names, if_pos rfl],
            by rw [prob_addVariable _ proper.inStep, if_pos rfl]⟩
        · exact (proper.copies other gate found).of_extends extends_
      injective := fun a b gate left right => by
        rw [table] at left right
        split at left <;> split at right
        · rename_i same same'
          exact same.symm.trans same'
        · exact absurd (before right) (Option.some.inj left ▸ Nat.lt_irrefl _)
        · exact absurd (before left) (Option.some.inj right ▸ Nat.lt_irrefl _)
        · exact proper.injective a b gate left right
      onto := fun gate is_input => by
        rw [kinds] at is_input
        split at is_input
        · rename_i last
          exact ⟨input, by rw [table, if_pos rfl, last]⟩
        · obtain ⟨other, found⟩ := proper.onto gate is_input
          exact ⟨other, inputs other gate found⟩
      named := fun gate name named => by
        rw [names] at named
        rw [kinds]
        split at named
        · rename_i last
          rw [if_pos last]
        · rename_i old
          rw [if_neg old, proper.named gate name named]
      negates := fun other gate found => (proper.negates other gate found).of_extends extends_ inputs
      isTruth := fun gate found => (proper.isTruth gate found).of_extends extends_ }

end Step

/-! ## Literals -/

section Literals

variable (proper : p.Proper source)

include proper

/-- The copy of an input. -/
theorem Proper.input_spec (paired : source.naming.Paired) {input : Nat} (kind : source.kind input = .input) :
    p.Grows source (p.input source input).2 ∧
      (p.input source input).2.inputs[input]? = some (p.input source input).1 := by
  cases found : p.inputs[input]? with
  | some gate =>
    have same : p.input source input = (gate, p) := by
      simp only [Projection.input, found]
    rw [same]
    exact ⟨.refl proper, found⟩
  | none =>
    have same : p.input source input = (p.target.size,
        { p with target := addVariable source p.target input
                 inputs := p.inputs.insert input p.target.size }) := by
      simp only [Projection.input, found]
      rfl
    rw [same]
    exact ⟨proper.grows_addVariable paired kind found, Std.TreeMap.getElem?_insert_self⟩

/-- The negation of an input. -/
theorem Proper.negation_spec (paired : source.naming.Paired) {input : Nat}
    (kind : source.kind input = .input) : p.Grows source (p.negation source input).2 ∧
      Negates (p.negation source input).2.target (p.negation source input).2.inputs input
        (p.negation source input).1 := by
  obtain ⟨gate, middle, copy⟩ : ∃ gate middle, p.input source input = (gate, middle) := ⟨_, _, rfl⟩
  have spec := proper.input_spec paired kind
  rw [copy] at spec
  obtain ⟨grows, positive⟩ := spec
  cases found : middle.negations[input]? with
  | some made =>
    have same : p.negation source input = (made, middle) := by
      simp only [Projection.negation, copy, found]
    rw [same]
    exact ⟨grows, grows.proper.negates input made found⟩
  | none =>
    have same : p.negation source input = (middle.target.size,
        { middle with target := (middle.target.addNode .not [gate]).2
                      negations := middle.negations.insert input middle.target.size }) := by
      simp only [Projection.negation, copy, found]
      rfl
    rw [same]
    have small : gate < middle.target.size := lt_of_input (grows.proper.copies input gate positive).kind
    have grows' := grows.proper.grows_addNode .not [gate]
      (fun child listed => List.mem_singleton.1 listed ▸ small) ⟨gate, rfl⟩
    have negates : Negates (middle.target.addNode .not [gate]).2 middle.inputs input middle.target.size :=
      ⟨by rw [kind_addNode, if_pos rfl], gate, positive,
        by rw [children_addNode _ _ _ grows.proper.inStep, if_pos rfl]⟩
    exact ⟨(grows.trans grows').note_negation negates, negates⟩

/-- The constant true. -/
theorem Proper.constant_spec : p.Grows source p.constant.2 ∧ IsTruth p.constant.2.target p.constant.1 := by
  cases found : p.truth with
  | some made =>
    have same : p.constant = (made, p) := by
      simp only [Projection.constant, found]
    rw [same]
    exact ⟨.refl proper, proper.isTruth made found⟩
  | none =>
    have same : p.constant = (p.target.size,
        { p with target := (p.target.addNode .and []).2, truth := some p.target.size }) := by
      simp only [Projection.constant, found]
      rfl
    rw [same]
    have grows := proper.grows_addNode .and [] (fun _ none => absurd none List.not_mem_nil) trivial
    have truth : IsTruth (p.target.addNode .and []).2 p.target.size :=
      ⟨by rw [kind_addNode, if_pos rfl], by rw [children_addNode _ _ _ proper.inStep, if_pos rfl]⟩
    exact ⟨grows.note_truth truth, truth⟩

end Literals

/-! ## Nodes -/

/-- A gate does what a node says. -/
def Represents (source : Circuit α) (p : Projection α) (gate : Nat) : NnfNode → Prop
  | .literal l =>
    if source.kind l.index = .input then
      if l.positive then p.inputs[l.index]? = some gate else Negates p.target p.inputs l.index gate
    else IsTruth p.target gate
  | .and children => p.target.kind gate = .and ∧ p.target.children gate = children.map (p.gates.getD · 0)
  | .or _ children => p.target.kind gate = .or ∧ p.target.children gate = children.map (p.gates.getD · 0)

/-- The nodes have become gates. -/
structure Projects (source : Circuit α) (p : Projection α) (nodes : List NnfNode) : Prop where
  proper : p.Proper source
  size : p.gates.size = nodes.length
  represents : ∀ position node, nodes[position]? = some node →
    p.Represents source (p.gates.getD position 0) node

omit [Scalar α] in
theorem Represents.literal_cases {gate : Nat} {l : Literal}
    (represents : p.Represents source gate (.literal l)) :
    (source.kind l.index = .input ∧ l.positive = true ∧ p.inputs[l.index]? = some gate) ∨
    (source.kind l.index = .input ∧ l.positive = false ∧ Negates p.target p.inputs l.index gate) ∨
    (source.kind l.index ≠ .input ∧ IsTruth p.target gate) := by
  simp only [Represents] at represents
  split_ifs at represents with input positive
  · exact Or.inl ⟨input, positive, represents⟩
  · exact Or.inr (Or.inl ⟨input, Bool.eq_false_of_not_eq_true positive, represents⟩)
  · exact Or.inr (Or.inr ⟨input, represents⟩)

theorem Proper.lt_of_represents (proper : p.Proper source) {gate : Nat} {node : NnfNode}
    (represents : p.Represents source gate node) : gate < p.target.size := by
  refine lt_of_kind fun none => ?_
  cases node with
  | literal l =>
    rcases represents.literal_cases with ⟨_, _, found⟩ | ⟨_, _, negates⟩ | ⟨_, truth⟩
    · simp [(proper.copies _ _ found).kind] at none
    · simp [negates.kind] at none
    · simp [truth.kind] at none
  | and children => simp [represents.1] at none
  | or opposing children => simp [represents.1] at none

theorem Grows.getD_push (grows : p.Grows source p') {child : Nat} (inside : child < p.gates.size)
    (made : Nat) : (p'.gates.push made).getD child 0 = p.gates.getD child 0 := by
  rw [grows.gates, Table.getD_push, if_neg (Nat.ne_of_lt inside)]

/-- A gate keeps doing what the node says when more is made. -/
theorem Represents.of_grows {gate made : Nat} {node : NnfNode} (proper : p.Proper source)
    (represents : p.Represents source gate node) (grows : p.Grows source p')
    (inside : ∀ child ∈ node.children, child < p.gates.size) :
    Represents source { p' with gates := p'.gates.push made } gate node := by
  have small := proper.lt_of_represents represents
  have kind := grows.extends_.kind gate small
  have children := grows.extends_.children gate small
  unfold Represents at represents ⊢
  cases node with
  | literal l =>
    simp only at represents ⊢
    split_ifs at represents ⊢
    · exact grows.inputs _ _ represents
    · exact represents.of_extends grows.extends_ grows.inputs
    · exact represents.of_extends grows.extends_
  | and targets =>
    refine ⟨kind.trans represents.1, (children.trans represents.2).trans ?_⟩
    exact List.map_congr_left fun child listed => (grows.getD_push (inside child listed) made).symm
  | or _ targets =>
    refine ⟨kind.trans represents.1, (children.trans represents.2).trans ?_⟩
    exact List.map_congr_left fun child listed => (grows.getD_push (inside child listed) made).symm

section Nodes

variable {nodes : List NnfNode}

theorem Projects.gate_lt (projects : p.Projects source nodes) {position : Nat}
    (inside : position < nodes.length) : p.gates.getD position 0 < p.target.size :=
  projects.proper.lt_of_represents
    (projects.represents position _ (List.getElem?_eq_getElem inside))

/-- Whichever gate is made for one more node, it comes last. -/
theorem Projects.push (projects : p.Projects source nodes) (ordered : Ordered nodes)
    (grows : p.Grows source p') {gate : Nat} {node : NnfNode}
    (made : Represents source { p' with gates := p'.gates.push gate } gate node) :
    Projects source { p' with gates := p'.gates.push gate } (nodes ++ [node]) := by
  refine ⟨{ grows.proper with }, ?_, fun position other found => ?_⟩
  · rw [Array.size_push, grows.gates, projects.size, List.length_append, List.length_singleton]
  · show Represents source _ ((p'.gates.push gate).getD position 0) other
    have inside : position < (nodes ++ [node]).length := (List.getElem?_eq_some_iff.1 found).1
    rw [List.length_append, List.length_singleton] at inside
    rcases Nat.lt_succ_iff_lt_or_eq.1 inside with old | rfl
    · rw [List.getElem?_append_left old] at found
      rw [grows.getD_push (projects.size ▸ old)]
      refine (projects.represents position other found).of_grows projects.proper grows fun child listed => ?_
      rw [projects.size]
      exact ordered.child_lt found child listed
    · rw [List.getElem?_concat_length] at found
      obtain rfl := Option.some.inj found
      have last : (p'.gates.push gate).getD nodes.length 0 = gate := by
        rw [Table.getD_push, grows.gates, projects.size, if_pos rfl]
      rw [last]
      exact made

/-- The gate of a connective. -/
theorem Projects.connective_spec (projects : p.Projects source nodes) {kind : Kind}
    (is_connective : kind = .and ∨ kind = .or) {children : List Nat}
    (inside : ∀ child ∈ children, child < nodes.length) :
    ∃ p', p.connective kind children = .ok (p.target.size, p') ∧ p.Grows source p' ∧
      p'.target.kind p.target.size = kind ∧ p'.target.children p.target.size =
        children.map ((p'.gates.push p.target.size).getD · 0) := by
  have targets : children.mapM (fun child => Outcome.ofOption (.noNode child) p.gates[child]?) =
      .ok (children.map (p.gates.getD · 0)) := by
    refine Outcome.mapM_eq_ok fun child listed => ?_
    have small : child < p.gates.size := projects.size ▸ inside child listed
    rw [Array.getD_eq_getD_getElem?, Array.getElem?_eq_getElem small]
    rfl
  have grows := projects.proper.grows_addNode kind (children.map (p.gates.getD · 0)) ?_ ?_
  · refine ⟨_, ?_, grows, ?_, ?_⟩
    · rw [connective, targets]
      rfl
    · rw [kind_addNode, if_pos rfl]
    · rw [children_addNode _ _ _ projects.proper.inStep, if_pos rfl]
      refine List.map_congr_left fun child listed => ?_
      exact (grows.getD_push (projects.size ▸ inside child listed) _).symm
  · intro gate member
    obtain ⟨child, listed, rfl⟩ := List.mem_map.1 member
    exact projects.gate_lt (inside child listed)
  · rcases is_connective with rfl | rfl <;> trivial

/-- The gate of a literal. -/
theorem Proper.literal_spec (proper : p.Proper source) (paired : source.naming.Paired) {l : Literal}
    (inside : l.index < source.size) : ∃ gate p', p.literal source l = .ok (gate, p') ∧
      p.Grows source p' ∧ p'.Represents source gate (.literal l) := by
  have taken : p.literal source l = .ok (if source.kind l.index = .input then
      if l.positive then p.input source l.index else p.negation source l.index
    else p.constant) := by
    rw [Projection.literal, Outcome.require, if_pos (decide_eq_true inside)]
    rfl
  unfold Represents
  by_cases kind : source.kind l.index = .input
  · rw [if_pos kind] at taken
    simp only [if_pos kind]
    by_cases positive : l.positive = true
    · rw [if_pos positive] at taken
      simp only [if_pos positive]
      exact ⟨_, _, taken, proper.input_spec paired kind⟩
    · rw [if_neg positive] at taken
      simp only [if_neg positive]
      exact ⟨_, _, taken, proper.negation_spec paired kind⟩
  · rw [if_neg kind] at taken
    simp only [if_neg kind]
    exact ⟨_, _, taken, proper.constant_spec⟩

/-- One more node becomes a gate. -/
theorem Projects.addNode (projects : p.Projects source nodes) (paired : source.naming.Paired)
    (ordered : Ordered nodes) {node : NnfNode} (below : ∀ child ∈ node.children, child < nodes.length)
    (known : ∀ l, node = .literal l → l.index < source.size) :
    ∃ p', p.addNode source node = .ok p' ∧ p'.Projects source (nodes ++ [node]) := by
  unfold Projection.addNode
  cases node with
  | literal l =>
    obtain ⟨gate, p', made, grows, represents⟩ := projects.proper.literal_spec paired (known l rfl)
    exact ⟨_, by simp only [made]; rfl, projects.push ordered grows represents⟩
  | and children =>
    have below : ∀ child ∈ children, child < nodes.length := below
    obtain ⟨p', made, grows, represents⟩ := projects.connective_spec (Or.inl rfl) below
    exact ⟨_, by simp only [made]; rfl, projects.push ordered grows represents⟩
  | or opposing children =>
    have below : ∀ child ∈ children, child < nodes.length := below
    obtain ⟨p', made, grows, represents⟩ := projects.connective_spec (Or.inr rfl) below
    exact ⟨_, by simp only [made]; rfl, projects.push ordered grows represents⟩

/-- The nodes of an ordered formula about the gates of the source become gates. -/
theorem exists_projects (paired : source.naming.Paired) (ordered : Ordered nodes)
    (known : ∀ l, .literal l ∈ nodes → l.index < source.size) :
    ∃ p, nodes.foldlM (Projection.addNode source) Projection.empty = .ok p ∧
      p.Projects source nodes := by
  induction nodes using List.reverseRecOn with
  | nil => exact ⟨_, rfl, proper_empty source, rfl, fun position node found => by simp at found⟩
  | append_singleton nodes node ih =>
    have front := ordered.of_append
    have below : ∀ child ∈ node.children, child < nodes.length :=
      ordered _ node List.getElem?_concat_length
    obtain ⟨middle, made, projects⟩ := ih front fun l listed => known l (List.mem_append_left _ listed)
    obtain ⟨p, made', projects'⟩ := projects.addNode paired front below fun l same =>
      known l (by simp [same])
    refine ⟨p, ?_, projects'⟩
    rw [List.foldlM_append, made]
    simpa using made'

/-! ## Readings -/

/-- What is computed gate by gate is the reading of the formula. -/
theorem Projects.reading_eq {β : Type} (algebra : Algebra β) (projects : p.Projects source nodes)
    (ordered : Ordered nodes) {f : Nat → β}
    (literal : ∀ gate l, p.Represents source gate (.literal l) → f gate = algebra.literal l)
    (and : ∀ gate, p.target.kind gate = .and → f gate = algebra.and ((p.target.children gate).map f))
    (or : ∀ gate, p.target.kind gate = .or → f gate = algebra.or ((p.target.children gate).map f))
    {position : Nat} (inside : position < nodes.length) :
    f (p.gates.getD position 0) = reading algebra nodes position := by
  refine ordered.induction (motive := fun position => f (p.gates.getD position 0) =
    reading algebra nodes position) (fun position node found below => ?_) inside
  have represents := projects.represents position node found
  rw [Nnf.reading_eq algebra ordered found]
  cases node with
  | literal l => exact literal _ l represents
  | and children =>
    rw [and _ represents.1, represents.2, List.map_map]
    exact congrArg algebra.and (List.map_congr_left below)
  | or opposing children =>
    rw [or _ represents.1, represents.2, List.map_map]
    exact congrArg algebra.or (List.map_congr_left below)

end Nodes

end Provenance.Projection
