import Provenance.Nnf.Decision
import Provenance.Proofs.Network.TopologicalOrder
import Provenance.Proofs.Nnf.Terms
import Provenance.Proofs.Outcome

/-!
# Formulas of decision graphs

The nodes of a decision graph are taken in an order in which the targets of the edges come first, so the
formula that is drafted refers to positions that are there already: it is ordered.  A draft gives each node
that it has the value of its edges (`Drafted`): a literal of the table stands at its position, and what is there
keeps its value when the draft grows.

The only node without source is the last one of the order, since every other one comes before its sources.  So
the conditions for a formula are those that the graph shows (`exists_toNnf_iff`), and the formula has the value
of that node (`value_of_toNnf`).  For this both ends of an edge have to know of it (`Matched`).
-/

namespace Provenance

/-- Whether the literals of an edge hold and its target is true. -/
def Decision.holds (decision : Decision) (assignment : Nat → Bool) (value : Nat → Bool) : Bool :=
  decision.literals.all (·.holds assignment) && value decision.target

/-- What a node computes from the values of its edges. -/
def DecisionKind.eval (kind : DecisionKind) (edges : List Bool) : Bool :=
  match kind with
  | .and => edges.all id
  | .or => edges.any id
  | .truth => true
  | .falsity => false

namespace DecisionGraph

open Provenance.Nnf Provenance.Order

/-- The value of a node from those of the targets of its edges. -/
def nodeValue (graph : DecisionGraph) (assignment : Nat → Bool) (value : Nat → Bool) (node : Nat) : Bool :=
  (graph.kinds.getD node .falsity).eval ((graph.decisions node).map (·.holds assignment value))

theorem nodeValue_congr {graph : DecisionGraph} (assignment : Nat → Bool) {value value' : Nat → Bool} {node : Nat}
    (same : ∀ decision ∈ graph.decisions node, value decision.target = value' decision.target) :
    graph.nodeValue assignment value node = graph.nodeValue assignment value' node :=
  congrArg _ (List.map_congr_left fun decision member =>
    congrArg (decision.literals.all (·.holds assignment) && ·) (same decision member))

/-! ## Drafts -/

namespace Draft

/-- The value that a draft gives to a node of the graph. -/
def valueAt (t : Draft) (assignment : Nat → Bool) (node : Nat) : Bool :=
  Nnf.value assignment t.nodes.toList (t.positions.getD node 0)

/-- The tables of a draft point to what they are about, and its nodes are ordered. -/
structure Proper (t : Draft) : Prop where
  ordered : Ordered t.nodes.toList
  literals : ∀ (key : Int) (position : Nat), t.literals[key]? = some position →
    t.nodes[position]? = some (.literal (.ofDimacs key))
  positions : ∀ (node position : Nat), t.positions[node]? = some position → position < t.nodes.size

theorem Proper.start : Proper ⟨#[], ∅, ∅, 0⟩ where
  ordered position node found := by simp at found
  literals key position found := by simp at found
  positions node position found := by simp at found

/-- A draft that has more nodes, with the nodes of the graph where they were. -/
structure Grows (t t' : Draft) : Prop where
  proper : t'.Proper
  nodes : t.nodes.toList <+: t'.nodes.toList
  positions : t'.positions = t.positions

variable {t t' t'' : Draft}

theorem Grows.refl (proper : t.Proper) : t.Grows t := ⟨proper, List.prefix_rfl, rfl⟩

theorem Grows.trans (first : t.Grows t') (second : t'.Grows t'') : t.Grows t'' :=
  ⟨second.proper, first.nodes.trans second.nodes, second.positions.trans first.positions⟩

theorem Grows.size_le (grows : t.Grows t') : t.nodes.size ≤ t'.nodes.size := by
  simpa using grows.nodes.length_le

theorem Grows.getElem? (grows : t.Grows t') {position : Nat} {node : NnfNode}
    (found : t.nodes[position]? = some node) : t'.nodes[position]? = some node := by
  obtain ⟨rest, equal⟩ := grows.nodes
  rw [← Array.getElem?_toList] at found ⊢
  rw [← equal, List.getElem?_append_left (List.getElem?_eq_some_iff.1 found).1, found]

/-- What is there keeps its value. -/
theorem Grows.value (grows : t.Grows t') (assignment : Nat → Bool) {position : Nat}
    (inside : position < t.nodes.size) :
    Nnf.value assignment t'.nodes.toList position = Nnf.value assignment t.nodes.toList position := by
  obtain ⟨rest, equal⟩ := grows.nodes
  rw [← equal]
  exact reading_append _ _ rest inside

theorem Proper.lt_of_mem (proper : t.Proper) {node : Nat} (there : node ∈ t.positions) :
    t.positions.getD node 0 < t.nodes.size := by
  obtain ⟨position, found⟩ := Option.isSome_iff_exists.1 (Std.TreeMap.mem_iff_isSome_getElem?.1 there)
  rw [Std.TreeMap.getD_eq_getD_getElem?, found, Option.getD_some]
  exact proper.positions node position found

theorem Grows.valueAt (grows : t.Grows t') (proper : t.Proper) (assignment : Nat → Bool) {node : Nat}
    (there : node ∈ t.positions) : t'.valueAt assignment node = t.valueAt assignment node := by
  unfold Draft.valueAt
  rw [grows.positions]
  exact grows.value assignment (proper.lt_of_mem there)

theorem ordered_push {nodes : Array NnfNode} (ordered : Ordered nodes.toList) {node : NnfNode}
    (below : ∀ child ∈ node.children, child < nodes.size) : Ordered (nodes.push node).toList := by
  intro position other found
  rw [Array.getElem?_toList, Array.getElem?_push] at found
  split at found
  · rename_i last
    obtain rfl := Option.some.inj found
    exact last ▸ below
  · exact ordered position other (by rwa [Array.getElem?_toList])

/-- A node may refer to positions that are there. -/
theorem Grows.push (proper : t.Proper) (node : NnfNode)
    (below : ∀ child ∈ node.children, child < t.nodes.size) (edges : Nat) :
    t.Grows { t.push node with edges } where
  proper :=
    { ordered := ordered_push proper.ordered below
      literals := fun key position found => by
        have there := proper.literals key position found
        show (t.nodes.push node)[position]? = _
        rw [Array.getElem?_push_lt (Array.getElem?_eq_some_iff.1 there).1, ← Array.getElem?_eq_getElem, there]
      positions := fun other position found => by
        show position < (t.nodes.push node).size
        rw [Array.size_push]
        exact Nat.lt_succ_of_lt (proper.positions other position found) }
  nodes := by
    show t.nodes.toList <+: (t.nodes.push node).toList
    rw [Array.toList_push]
    exact List.prefix_append _ _
  positions := rfl

/-- The value of a node that is added, by way of those that it refers to. -/
theorem value_push (proper : t.Proper) (assignment : Nat → Bool) (node : NnfNode)
    (below : ∀ child ∈ node.children, child < t.nodes.size) :
    Nnf.value assignment (t.nodes.push node).toList t.nodes.size =
      (truth (·.holds assignment)).node (Nnf.value assignment t.nodes.toList) node := by
  have ordered := ordered_push proper.ordered below
  have found : (t.nodes.push node).toList[t.nodes.size]? = some node := by simp
  refine (reading_eq _ ordered found).trans (Algebra.node_congr _ fun child listed => ?_)
  exact (Grows.push proper node below t.edges).value assignment (below child listed)

theorem literal_spec (proper : t.Proper) (l : Literal) :
    t.Grows (t.literal l).2 ∧ (t.literal l).2.nodes[(t.literal l).1]? = some (.literal l) := by
  unfold literal
  cases found : t.literals[l.toDimacs]? with
  | some position =>
    refine ⟨.refl proper, ?_⟩
    rw [proper.literals _ _ found, Literal.ofDimacs_toDimacs]
  | none =>
    obtain ⟨proper', nodes, positions⟩ := Grows.push proper (.literal l)
      (fun _ none => absurd none List.not_mem_nil) t.edges
    have there : (t.nodes.push (.literal l))[t.nodes.size]? = some (.literal l) := Array.getElem?_push_size
    refine ⟨⟨⟨proper'.ordered, fun key position found => ?_, proper'.positions⟩, nodes, positions⟩, there⟩
    replace found : (t.literals.insert l.toDimacs t.nodes.size)[key]? = some position := found
    rw [Std.TreeMap.getElem?_insert] at found
    split at found
    · rename_i same
      obtain rfl := Option.some.inj found
      rw [← compare_eq_iff_eq.1 same, Literal.ofDimacs_toDimacs]
      exact there
    · exact proper'.literals key position found

/-- The positions of literals have their values. -/
theorem literalsOf_spec {varCount : Nat} {literals : List Literal} (proper : t.Proper)
    {positions : List Nat} (made : literalsOf varCount literals t = .ok (positions, t')) :
    t.Grows t' ∧ (∀ position ∈ positions, position < t'.nodes.size) ∧ ∀ assignment,
      positions.map (Nnf.value assignment t'.nodes.toList) = literals.map (·.holds assignment) := by
  induction literals generalizing t positions with
  | nil =>
    obtain ⟨rfl, rfl⟩ := Prod.mk.inj (Except.ok.inj made)
    exact ⟨.refl proper, fun _ none => absurd none List.not_mem_nil, fun _ => rfl⟩
  | cons l rest ih =>
    simp only [literalsOf, Outcome.bind_eq_ok, Except.ok.injEq] at made
    obtain ⟨_, _, ⟨others, _⟩, made, equal⟩ := made
    obtain ⟨rfl, rfl⟩ := Prod.mk.inj equal
    obtain ⟨grows, there⟩ := literal_spec proper l
    obtain ⟨grows', inside, values⟩ := ih grows.proper made
    have there := grows'.getElem? there
    refine ⟨grows.trans grows', fun position listed => ?_, fun assignment => ?_⟩
    · rcases List.mem_cons.1 listed with rfl | listed
      · exact (Array.getElem?_eq_some_iff.1 there).1
      · exact inside position listed
    · rw [← Array.getElem?_toList] at there
      rw [List.map_cons, List.map_cons, values]
      exact congrArg (· :: _) (reading_eq _ grows'.proper.ordered there)

/-- The position of an edge has its value. -/
theorem edge_spec {varCount : Nat} {decision : Decision} (proper : t.Proper)
    (there : decision.target ∈ t.positions) {position : Nat}
    (made : edge varCount t decision = .ok (position, t')) :
    t.Grows t' ∧ position < t'.nodes.size ∧ ∀ assignment,
      Nnf.value assignment t'.nodes.toList position = decision.holds assignment (t.valueAt assignment) := by
  have inside := proper.lt_of_mem there
  simp only [edge] at made
  split at made
  · rename_i none
    obtain ⟨rfl, rfl⟩ := Prod.mk.inj (Except.ok.inj made)
    refine ⟨.refl proper, inside, fun assignment => ?_⟩
    rw [Decision.holds, List.isEmpty_iff.1 none, List.all_nil, Bool.true_and]
    rfl
  · simp only [Outcome.bind_eq_ok, Except.ok.injEq] at made
    obtain ⟨⟨positions, middle⟩, labels, equal⟩ := made
    obtain ⟨rfl, rfl⟩ := Prod.mk.inj equal
    obtain ⟨grows, below_literals, values⟩ := literalsOf_spec proper labels
    have below : ∀ child ∈ (NnfNode.and (positions ++ [t.positions.getD decision.target 0])).children,
        child < middle.nodes.size := by
      intro child listed
      rcases List.mem_append.1 listed with listed | listed
      · exact below_literals child listed
      · exact List.mem_singleton.1 listed ▸ inside.trans_le grows.size_le
    refine ⟨grows.trans (Grows.push grows.proper _ below _), ?_, fun assignment => ?_⟩
    · show middle.nodes.size < (middle.nodes.push _).size
      rw [Array.size_push]
      exact Nat.lt_succ_self _
    · refine (value_push grows.proper assignment _ below).trans ?_
      show ((positions ++ [t.positions.getD decision.target 0]).map _).all id = _
      rw [List.map_append, values, List.map_singleton, grows.value assignment inside, List.all_append,
        List.all_map, Function.id_comp, List.all_cons, List.all_nil, Bool.and_true]
      rfl

/-- The positions of the edges from a node have their values. -/
theorem edgesOf_spec {varCount : Nat} {decisions : List Decision} (proper : t.Proper)
    (there : ∀ decision ∈ decisions, decision.target ∈ t.positions) {positions : List Nat}
    (made : edgesOf varCount decisions t = .ok (positions, t')) :
    t.Grows t' ∧ (∀ position ∈ positions, position < t'.nodes.size) ∧ ∀ assignment,
      positions.map (Nnf.value assignment t'.nodes.toList) =
        decisions.map (·.holds assignment (t.valueAt assignment)) := by
  induction decisions generalizing t positions with
  | nil =>
    obtain ⟨rfl, rfl⟩ := Prod.mk.inj (Except.ok.inj made)
    exact ⟨.refl proper, fun _ none => absurd none List.not_mem_nil, fun _ => rfl⟩
  | cons decision rest ih =>
    simp only [edgesOf, Outcome.bind_eq_ok, Except.ok.injEq] at made
    obtain ⟨⟨first, middle⟩, edge, ⟨others, _⟩, made, equal⟩ := made
    obtain ⟨rfl, rfl⟩ := Prod.mk.inj equal
    obtain ⟨grows, inside, value⟩ := edge_spec proper (there decision List.mem_cons_self) edge
    obtain ⟨grows', inside', values⟩ := ih grows.proper (fun other listed =>
      grows.positions ▸ there other (List.mem_cons_of_mem decision listed)) made
    refine ⟨grows.trans grows', fun position listed => ?_, fun assignment => ?_⟩
    · rcases List.mem_cons.1 listed with rfl | listed
      · exact inside.trans_le grows'.size_le
      · exact inside' position listed
    · rw [List.map_cons, List.map_cons, grows'.value assignment inside, value, values]
      refine congrArg _ (List.map_congr_left fun other listed => ?_)
      exact congrArg (other.literals.all (·.holds assignment) && ·)
        (grows.valueAt proper assignment (there other (List.mem_cons_of_mem decision listed)))

end Draft

/-! ## The nodes of the graph -/

variable {graph : DecisionGraph}

/-- A node over some children has these children and the value that its kind makes of theirs. -/
theorem nodeOf_spec {kind : DecisionKind} {children : List Nat} {node : NnfNode}
    (made : nodeOf kind children = .ok node) : node.children = children ∧
      ∀ (holds : Literal → Bool) (value : Nat → Bool),
        (truth holds).node value node = kind.eval (children.map value) := by
  cases kind with
  | and =>
    obtain rfl := Except.ok.inj made
    exact ⟨rfl, fun _ _ => rfl⟩
  | or =>
    obtain rfl := Except.ok.inj made
    exact ⟨rfl, fun _ _ => rfl⟩
  | truth =>
    simp only [nodeOf, Outcome.bind_eq_ok, Outcome.require_eq_ok, List.isEmpty_iff, Except.ok.injEq] at made
    obtain ⟨_, rfl, rfl⟩ := made
    exact ⟨rfl, fun _ _ => rfl⟩
  | falsity =>
    simp only [nodeOf, Outcome.bind_eq_ok, Outcome.require_eq_ok, List.isEmpty_iff, Except.ok.injEq] at made
    obtain ⟨_, rfl, rfl⟩ := made
    exact ⟨rfl, fun _ _ => rfl⟩

/-- What is known of a draft when a node was added to another one. -/
structure Drafted (graph : DecisionGraph) (t : Draft) (node : Nat) (t' : Draft) : Prop where
  proper : t'.Proper
  mem : ∀ other, other ∈ t'.positions ↔ other = node ∨ other ∈ t.positions
  last : t'.positions.getD node 0 + 1 = t'.nodes.size
  value : ∀ assignment, t'.valueAt assignment node = graph.nodeValue assignment (t.valueAt assignment) node
  kept : ∀ assignment, ∀ other ∈ t.positions, other ≠ node →
    t'.valueAt assignment other = t.valueAt assignment other

theorem drafted_draftNode {t t' : Draft} (proper : t.Proper) {node : Nat}
    (there : ∀ decision ∈ graph.decisions node, decision.target ∈ t.positions)
    (made : graph.draftNode t node = .ok t') : graph.Drafted t node t' := by
  simp only [draftNode, Outcome.bind_eq_ok, Except.ok.injEq] at made
  obtain ⟨⟨children, middle⟩, edges, made, node_made, rfl⟩ := made
  obtain ⟨grows, inside, values⟩ := Draft.edgesOf_spec proper there edges
  have below : ∀ child ∈ made.children, child < middle.nodes.size := by
    rw [(nodeOf_spec node_made).1]
    exact inside
  have pushed := Draft.Grows.push grows.proper made below middle.edges
  have size : (middle.nodes.push made).size = middle.nodes.size + 1 := Array.size_push ..
  have here : (middle.positions.insert node middle.nodes.size).getD node 0 = middle.nodes.size :=
    Std.TreeMap.getD_insert_self
  have elsewhere : ∀ other, other ≠ node →
      (middle.positions.insert node middle.nodes.size).getD other 0 = t.positions.getD other 0 := by
    intro other different
    rw [Std.TreeMap.getD_insert, if_neg fun same => different (compare_eq_iff_eq.1 same).symm, grows.positions]
  refine ⟨⟨pushed.proper.ordered, pushed.proper.literals, fun other position found => ?_⟩, fun other => ?_, ?_,
    fun assignment => ?_, fun assignment other listed different => ?_⟩
  · show position < (middle.nodes.push made).size
    replace found : (middle.positions.insert node middle.nodes.size)[other]? = some position := found
    rw [Std.TreeMap.getElem?_insert] at found
    split at found
    · obtain rfl := Option.some.inj found
      omega
    · have := grows.proper.positions other position found
      omega
  · show other ∈ middle.positions.insert node middle.nodes.size ↔ _
    rw [Std.TreeMap.mem_insert, grows.positions, Nat.compare_eq_eq, eq_comm]
  · show (middle.positions.insert node middle.nodes.size).getD node 0 + 1 = (middle.nodes.push made).size
    rw [here, size]
  · show Nnf.value assignment (middle.nodes.push made).toList
      ((middle.positions.insert node middle.nodes.size).getD node 0) = _
    rw [here, Draft.value_push grows.proper assignment made below, (nodeOf_spec node_made).2, values, nodeValue]
  · show Nnf.value assignment (middle.nodes.push made).toList
      ((middle.positions.insert node middle.nodes.size).getD other 0) = _
    rw [elsewhere other different]
    exact ((grows.trans pushed).value assignment (proper.lt_of_mem listed) :)

/-- What is known of a draft that has the first nodes of an order. -/
structure Draft.Covers (t : Draft) (graph : DecisionGraph) (nodes : List Nat) : Prop where
  proper : t.Proper
  there : ∀ node ∈ nodes, node ∈ t.positions
  value : ∀ assignment, ∀ node ∈ nodes,
    t.valueAt assignment node = graph.nodeValue assignment (t.valueAt assignment) node

/-- The targets of the edges from a node. -/
def targets (graph : DecisionGraph) (node : Nat) : List Nat := (graph.decisions node).map (·.target)

theorem Draft.Covers.draftNode {t t' : Draft} {before after : List Nat} {node : Nat}
    (first : ChildrenFirst graph.targets (before ++ node :: after)) (nodup : (before ++ node :: after).Nodup)
    (covers : t.Covers graph before) (made : graph.draftNode t node = .ok t') :
    t'.Covers graph (before ++ [node]) := by
  obtain ⟨_, _, apart⟩ := List.nodup_append.1 nodup
  have earlier : ∀ decision ∈ graph.decisions node, decision.target ∈ before := fun decision member =>
    first before node after rfl _ (List.mem_map_of_mem member)
  have drafted := drafted_draftNode covers.proper (fun decision member =>
    covers.there _ (earlier decision member)) made
  have kept : ∀ assignment, ∀ other ∈ before, t'.valueAt assignment other = t.valueAt assignment other :=
    fun assignment other listed => drafted.kept assignment other (covers.there other listed)
      (apart other listed node List.mem_cons_self)
  refine ⟨drafted.proper, fun other listed => (drafted.mem other).2 ?_, fun assignment other listed => ?_⟩
  · rcases List.mem_append.1 listed with listed | listed
    · exact Or.inr (covers.there other listed)
    · exact Or.inl (List.mem_singleton.1 listed)
  · rcases List.mem_append.1 listed with listed | listed
    · rw [kept assignment other listed, covers.value assignment other listed]
      obtain ⟨front, back, rfl⟩ := List.append_of_mem listed
      refine nodeValue_congr assignment fun decision member => (kept assignment _ ?_).symm
      exact List.mem_append_left _ (first front other (back ++ node :: after) (by simp) _
        (List.mem_map_of_mem member))
    · obtain rfl := List.mem_singleton.1 listed
      rw [drafted.value assignment]
      exact nodeValue_congr assignment fun decision member => (kept assignment _ (earlier decision member)).symm

/-- A draft of all nodes of an order gives each the value of its edges. -/
theorem covers_foldlM {t t' : Draft} (before : List Nat) {rest : List Nat}
    (first : ChildrenFirst graph.targets (before ++ rest)) (nodup : (before ++ rest).Nodup)
    (covers : t.Covers graph before) (made : rest.foldlM graph.draftNode t = .ok t') :
    t'.Covers graph (before ++ rest) := by
  induction rest generalizing before t with
  | nil =>
    rw [List.append_nil]
    exact Except.ok.inj made ▸ covers
  | cons node rest ih =>
    rw [List.foldlM_cons, Outcome.bind_eq_ok] at made
    obtain ⟨middle, step, made⟩ := made
    have same : before ++ node :: rest = before ++ [node] ++ rest := by simp
    have step := covers.draftNode first nodup step
    rw [same] at first nodup ⊢
    exact ih _ first nodup step made

/-! ## The order of the nodes -/

/-- Some edge leads from a node to another. -/
def Leads (graph : DecisionGraph) (node target : Nat) : Prop :=
  ∃ decision ∈ graph.decisions node, decision.target = target

/-- No node can be reached from itself. -/
def Acyclic (graph : DecisionGraph) : Prop := ∀ node, ¬ Relation.TransGen graph.Leads node node

/-- A node to which no edge leads. -/
def IsTop (graph : DecisionGraph) (node : Nat) : Prop := node < graph.size ∧ ∀ other, ¬ graph.Leads other node

/-- The tables of a graph list the same edges, all between its nodes. -/
structure Matched (graph : DecisionGraph) : Prop where
  mem_sources : ∀ node source, source ∈ graph.sources node ↔ graph.Leads source node
  inside : ∀ node target, graph.Leads node target → node < graph.size ∧ target < graph.size
  count : ∑ node ∈ Finset.range graph.size, (graph.sources node).length = graph.edgeCount

theorem mem_targets {node target : Nat} : target ∈ graph.targets node ↔ graph.Leads node target := List.mem_map

namespace Matched

variable (matched : graph.Matched)

include matched

theorem order_spec : ((∃ order, graph.order = .ok order) ↔ graph.Acyclic) ∧
    ∀ order, graph.order = .ok order → order.Nodup ∧ (∀ node, node ∈ order ↔ node < graph.size) ∧
      ChildrenFirst graph.targets order := by
  have closed : ∀ node ∈ Finset.range graph.size, ∀ source ∈ graph.sources node,
      source ∈ Finset.range graph.size := fun node _ source edge =>
    Finset.mem_range.2 (matched.inside source node ((matched.mem_sources node source).1 edge)).1
  have turned : ∀ node target, target ∈ graph.targets node ↔ node ∈ graph.sources target := fun node target =>
    mem_targets.trans (matched.mem_sources target node).symm
  have known : ∀ node, ∀ source ∈ graph.sources node,
      node ∈ List.range graph.size ∧ source ∈ List.range graph.size := by
    intro node source edge
    have inside := matched.inside source node ((matched.mem_sources node source).1 edge)
    exact ⟨List.mem_range.2 inside.2, List.mem_range.2 inside.1⟩
  have inside : ∀ node ∈ List.range graph.size, node ∈ Finset.range graph.size := fun node listed =>
    Finset.mem_range.2 (List.mem_range.1 listed)
  have enough : ∑ node ∈ Finset.range graph.size, ((graph.sources node).length + 1) ≤
      2 * (graph.size + graph.edgeCount) + 1 := by
    rw [Finset.sum_add_distrib, matched.count]
    simp
    omega
  have acyclic_iff : (∀ node, ¬ Relation.TransGen (Edge graph.sources) node node) ↔ graph.Acyclic := by
    have swapped : Edge graph.sources = Function.swap graph.Leads := by
      funext node source
      exact propext (matched.mem_sources node source)
    rw [swapped]
    exact forall_congr' fun node => not_congr Relation.transGen_swap
  have exists_iff := (exists_topologicalOrder_iff closed inside enough turned known).trans acyclic_iff
  refine ⟨exists_iff, fun order ordered => ?_⟩
  have nodup := nodup_topologicalOrder closed inside enough ordered
  obtain ⟨listed, within⟩ := mem_of_topologicalOrder closed inside enough ordered
  refine ⟨nodup, fun node => ⟨fun member => Finset.mem_range.1 (within node member), fun small => ?_⟩, ?_⟩
  · exact listed node (List.mem_range.2 small)
  · exact childrenFirst_of_topologicalOrder (fun node => (turned node node).1) ordered

/-- Every node but the last one of the order comes before its sources, so the only node without source is
last. -/
theorem exists_concat {order : List Nat} (ordered : graph.order = .ok order) {root : Nat}
    (inside : root < graph.size) (only : ∀ node, graph.IsTop node → node = root) :
    ∃ front, order = front ++ [root] := by
  obtain ⟨nodup, mem, first⟩ := matched.order_spec.2 order ordered
  rcases List.eq_nil_or_concat order with rfl | ⟨front, last, rfl⟩
  · exact absurd ((mem root).2 inside) List.not_mem_nil
  · rw [List.concat_eq_append] at nodup mem first ⊢
    have is_last : last ∈ front ++ [last] := by simp
    have top : graph.IsTop last := by
      refine ⟨(mem last).1 is_last, fun source edge => ?_⟩
      have listed : source ∈ front ++ [last] := (mem source).2 (matched.inside source last edge).1
      have turned : ChildrenFirst graph.targets (front ++ [last]).reverse.reverse := by
        rwa [List.reverse_reverse]
      have split : (front ++ [last]).reverse = [] ++ last :: front.reverse := by simp
      exact absurd (mem_before_of_childrenFirst turned (List.nodup_reverse.2 nodup) split
        (List.mem_reverse.2 listed) (mem_targets.2 edge)) List.not_mem_nil
    exact ⟨front, by rw [only last top]⟩

theorem sources_eq_nil_iff {node : Nat} : (graph.sources node).isEmpty = true ↔ ∀ other, ¬ graph.Leads other node := by
  rw [List.isEmpty_iff, List.eq_nil_iff_forall_not_mem]
  exact forall_congr' fun other => not_congr (matched.mem_sources node other)

/-- The nodes without sources are `[root]` when there is no other one. -/
theorem tops_eq_iff {root : Nat} :
    ((List.range graph.size).filter fun node => (graph.sources node).isEmpty) = [root] ↔
      graph.IsTop root ∧ ∀ node, graph.IsTop node → node = root := by
  have mem : ∀ node, node ∈ ((List.range graph.size).filter fun node => (graph.sources node).isEmpty) ↔
      graph.IsTop node := fun node => by
    rw [List.mem_filter, List.mem_range, matched.sources_eq_nil_iff, IsTop]
  have nodup : ((List.range graph.size).filter fun node => (graph.sources node).isEmpty).Nodup :=
    List.nodup_range.filter _
  constructor
  · intro equal
    rw [equal] at mem
    exact ⟨(mem root).1 (List.mem_singleton.2 rfl), fun node top => List.mem_singleton.1 ((mem node).2 top)⟩
  · rintro ⟨top, only⟩
    refine (List.perm_singleton.1 ((List.perm_ext_iff_of_nodup nodup (List.nodup_singleton root)).2 fun node => ?_))
    rw [mem, List.mem_singleton]
    exact ⟨only node, fun same => same ▸ top⟩

end Matched

/-! ## When there is a formula -/

/-- What a graph needs for a formula. -/
structure Translatable (graph : DecisionGraph) : Prop where
  /-- One node is without source. -/
  top : ∃! root, graph.IsTop root
  acyclic : graph.Acyclic
  constants : ∀ node < graph.size, graph.kinds.getD node .falsity = .truth ∨
    graph.kinds.getD node .falsity = .falsity → graph.decisions node = []
  /-- All literals are about known variables. -/
  literals : graph.varCount = 0 ∨ ∀ node < graph.size, ∀ decision ∈ graph.decisions node,
    ∀ l ∈ decision.literals, l.index < graph.varCount

namespace Draft

theorem exists_literalsOf_iff {varCount : Nat} {literals : List Literal} {t : Draft} :
    (∃ result, literalsOf varCount literals t = .ok result) ↔
      ∀ l ∈ literals, varCount = 0 ∨ l.index < varCount := by
  induction literals generalizing t with
  | nil => simp [literalsOf]
  | cons l rest ih =>
    simp only [literalsOf, Outcome.bind_eq_ok, Outcome.require_eq_ok, Except.ok.injEq, Bool.or_eq_true,
      beq_iff_eq, decide_eq_true_eq, List.forall_mem_cons]
    rw [← ih (t := (t.literal l).2)]
    constructor
    · rintro ⟨_, _, permitted, rest, made, _⟩
      exact ⟨permitted, rest, made⟩
    · rintro ⟨permitted, rest, made⟩
      exact ⟨_, ⟨⟩, permitted, rest, made, rfl⟩

theorem exists_edge_iff {varCount : Nat} {decision : Decision} {t : Draft} :
    (∃ result, edge varCount t decision = .ok result) ↔
      ∀ l ∈ decision.literals, varCount = 0 ∨ l.index < varCount := by
  rw [← exists_literalsOf_iff (t := t), edge]
  split
  · rename_i none
    simp [List.isEmpty_iff.1 none, literalsOf]
  · simp only [Outcome.bind_eq_ok, Except.ok.injEq]
    constructor
    · rintro ⟨_, middle, made, _⟩
      exact ⟨middle, made⟩
    · rintro ⟨middle, made⟩
      exact ⟨_, middle, made, rfl⟩

theorem exists_edgesOf_iff {varCount : Nat} {decisions : List Decision} {t : Draft} :
    (∃ result, edgesOf varCount decisions t = .ok result) ↔
      ∀ decision ∈ decisions, ∀ l ∈ decision.literals, varCount = 0 ∨ l.index < varCount := by
  induction decisions generalizing t with
  | nil => simp [edgesOf]
  | cons decision rest ih =>
    simp only [edgesOf, Outcome.bind_eq_ok, Except.ok.injEq, List.forall_mem_cons]
    rw [← exists_edge_iff (t := t)]
    constructor
    · rintro ⟨_, first, made, others, made', _⟩
      exact ⟨⟨first, made⟩, (ih (t := first.2)).1 ⟨others, made'⟩⟩
    · rintro ⟨⟨first, made⟩, permitted⟩
      obtain ⟨others, made'⟩ := (ih (t := first.2)).2 permitted
      exact ⟨_, first, made, others, made', rfl⟩

theorem length_edgesOf {varCount : Nat} {decisions : List Decision} {t t' : Draft} {positions : List Nat}
    (made : edgesOf varCount decisions t = .ok (positions, t')) : positions.length = decisions.length := by
  induction decisions generalizing t positions with
  | nil =>
    obtain ⟨rfl, rfl⟩ := Prod.mk.inj (Except.ok.inj made)
    rfl
  | cons decision rest ih =>
    simp only [edgesOf, Outcome.bind_eq_ok, Except.ok.injEq] at made
    obtain ⟨first, _, ⟨others, _⟩, made, equal⟩ := made
    obtain ⟨rfl, rfl⟩ := Prod.mk.inj equal
    rw [List.length_cons, List.length_cons, ih made]

end Draft

theorem exists_nodeOf_iff {kind : DecisionKind} {children : List Nat} :
    (∃ node, nodeOf kind children = .ok node) ↔ (kind = .truth ∨ kind = .falsity → children = []) := by
  cases kind <;> simp [nodeOf]

/-- The literals at a node are about known variables, and a constant has no edges. -/
def Draftable (graph : DecisionGraph) (node : Nat) : Prop :=
  (∀ decision ∈ graph.decisions node, ∀ l ∈ decision.literals,
    graph.varCount = 0 ∨ l.index < graph.varCount) ∧
  (graph.kinds.getD node .falsity = .truth ∨ graph.kinds.getD node .falsity = .falsity →
    graph.decisions node = [])

/-- Whether a node can be drafted does not depend on the draft. -/
theorem exists_draftNode_iff (t : Draft) (node : Nat) :
    (∃ t', graph.draftNode t node = .ok t') ↔ graph.Draftable node := by
  rw [Draftable, ← Draft.exists_edgesOf_iff (t := t)]
  simp only [draftNode, Outcome.bind_eq_ok, Except.ok.injEq]
  have none_iff : ∀ {children t'}, Draft.edgesOf graph.varCount (graph.decisions node) t = .ok (children, t') →
      (children = [] ↔ graph.decisions node = []) := fun made => by
    rw [← List.length_eq_zero_iff, ← List.length_eq_zero_iff, Draft.length_edgesOf made]
  constructor
  · rintro ⟨_, ⟨children, middle⟩, edges, made, node_made, _⟩
    exact ⟨⟨_, edges⟩, fun constant => (none_iff edges).1 (exists_nodeOf_iff.1 ⟨made, node_made⟩ constant)⟩
  · rintro ⟨⟨⟨children, middle⟩, edges⟩, constants⟩
    obtain ⟨made, node_made⟩ := exists_nodeOf_iff.2 fun constant => (none_iff edges).2 (constants constant)
    exact ⟨_, _, edges, made, node_made, rfl⟩

theorem toNnf_eq_ok_iff {formula : Nnf} : graph.toNnf = .ok formula ↔ ∃ root order t,
    ((List.range graph.size).filter fun node => (graph.sources node).isEmpty) = [root] ∧
    graph.order = .ok order ∧ order.foldlM graph.draftNode ⟨#[], ∅, ∅, 0⟩ = .ok t ∧
    t.positions.getD root 0 + 1 = t.nodes.size ∧
    formula = ⟨⟨graph.varCount, t.nodes.size, t.edges⟩, t.nodes.toList⟩ := by
  simp only [toNnf]
  split
  · rename_i root tops
    simp only [Outcome.bind_eq_ok, Outcome.mapError_eq_ok, Outcome.require_eq_ok, beq_iff_eq, Except.ok.injEq,
      tops, List.cons.injEq, and_true]
    constructor
    · rintro ⟨order, ordered, t, made, _, last, rfl⟩
      exact ⟨root, order, t, rfl, ordered, made, last, rfl⟩
    · rintro ⟨_, order, t, rfl, ordered, made, last, rfl⟩
      exact ⟨order, ordered, t, made, ⟨⟩, last, rfl⟩
  · rename_i other
    simp only [Outcome.fail_eq_ok, false_iff, not_exists]
    exact fun root order t made => other root made.1

/-- Values of the nodes, each that of its edges. -/
def Evaluates (graph : DecisionGraph) (assignment value : Nat → Bool) : Prop :=
  ∀ node < graph.size, value node = graph.nodeValue assignment value node

section Formula

variable (matched : graph.Matched)

include matched

/-- What a draft of all nodes says of the formula. -/
theorem drafted_of_order {order : List Nat} (ordered : graph.order = .ok order) {root : Nat}
    (top : graph.IsTop root) (only : ∀ node, graph.IsTop node → node = root) {t : Draft}
    (made : order.foldlM graph.draftNode ⟨#[], ∅, ∅, 0⟩ = .ok t) :
    t.Covers graph order ∧ t.positions.getD root 0 + 1 = t.nodes.size := by
  obtain ⟨nodup, mem, first⟩ := matched.order_spec.2 order ordered
  obtain ⟨front, rfl⟩ := matched.exists_concat ordered top.1 only
  have start : Draft.Covers ⟨#[], ∅, ∅, 0⟩ graph [] :=
    ⟨.start, fun _ none => absurd none List.not_mem_nil, fun _ _ none => absurd none List.not_mem_nil⟩
  refine ⟨covers_foldlM [] first nodup start made, ?_⟩
  rw [List.foldlM_append, Outcome.bind_eq_ok] at made
  obtain ⟨middle, made, last⟩ := made
  have first_front : ChildrenFirst graph.targets front := fun before node after split =>
    first before node (after ++ [root]) (by simp [split])
  have covers := covers_foldlM [] first_front (List.nodup_append.1 nodup).1 start made
  rw [List.foldlM_cons, Outcome.bind_eq_ok] at last
  obtain ⟨t', last, same⟩ := last
  obtain rfl := Except.ok.inj same
  refine (drafted_draftNode covers.proper (fun decision member => covers.there _ ?_) last).last
  exact first front root [] rfl _ (List.mem_map_of_mem member)

/-- A graph has a formula when it has what it needs, and only then. -/
theorem exists_toNnf_iff : (∃ formula, graph.toNnf = .ok formula) ↔ graph.Translatable := by
  have literals_iff : ∀ {nodes : List Nat}, (∀ node, node ∈ nodes ↔ node < graph.size) →
      ((∀ node ∈ nodes, ∀ decision ∈ graph.decisions node, ∀ l ∈ decision.literals,
        graph.varCount = 0 ∨ l.index < graph.varCount) ↔
      (graph.varCount = 0 ∨ ∀ node < graph.size, ∀ decision ∈ graph.decisions node,
        ∀ l ∈ decision.literals, l.index < graph.varCount)) := by
    intro nodes mem
    simp only [mem]
    by_cases unknown : graph.varCount = 0
    · simp [unknown]
    · simp [unknown]
  constructor
  · rintro ⟨formula, made⟩
    obtain ⟨root, order, t, tops, ordered, made, _⟩ := toNnf_eq_ok_iff.1 made
    obtain ⟨_, mem, _⟩ := matched.order_spec.2 order ordered
    have each := (Outcome.exists_foldlM_iff exists_draftNode_iff).1 ⟨t, made⟩
    exact
      { top := ⟨root, matched.tops_eq_iff.1 tops⟩
        acyclic := matched.order_spec.1.1 ⟨order, ordered⟩
        constants := fun node small => (each node ((mem node).2 small)).2
        literals := (literals_iff mem).1 fun node listed => (each node listed).1 }
  · rintro ⟨⟨root, top, only⟩, acyclic, constants, literals⟩
    obtain ⟨order, ordered⟩ := matched.order_spec.1.2 acyclic
    obtain ⟨_, mem, _⟩ := matched.order_spec.2 order ordered
    obtain ⟨t, made⟩ := (Outcome.exists_foldlM_iff (y := ⟨#[], ∅, ∅, 0⟩) exists_draftNode_iff).2
      fun node listed => ⟨(literals_iff mem).2 literals node listed, constants node ((mem node).1 listed)⟩
    have last := (drafted_of_order matched ordered top only made).2
    exact ⟨_, toNnf_eq_ok_iff.2 ⟨root, order, t, matched.tops_eq_iff.2 ⟨top, only⟩, ordered, made, last, rfl⟩⟩

/-! ## What the formula says -/

/-- The formula of a decision graph is ordered. -/
theorem ordered_of_toNnf {formula : Nnf} (made : graph.toNnf = .ok formula) : Ordered formula.nodes := by
  obtain ⟨root, order, t, tops, ordered, drafted, _, rfl⟩ := toNnf_eq_ok_iff.1 made
  obtain ⟨top, only⟩ := matched.tops_eq_iff.1 tops
  exact (drafted_of_order matched ordered top only drafted).1.proper.ordered

/-- The last node of the formula has the value of the only node without source. -/
theorem value_of_toNnf {formula : Nnf} (made : graph.toNnf = .ok formula) {root : Nat} (top : graph.IsTop root)
    (assignment : Nat → Bool) : ∃ value, graph.Evaluates assignment value ∧
      (valuesFrom assignment formula.nodes []).getLast? = some (value root) := by
  obtain ⟨root', order, t, tops, ordered, drafted, last, rfl⟩ := toNnf_eq_ok_iff.1 made
  obtain ⟨top', only⟩ := matched.tops_eq_iff.1 tops
  obtain rfl := only root top
  obtain ⟨_, mem, _⟩ := matched.order_spec.2 order ordered
  obtain ⟨covers, _⟩ := drafted_of_order matched ordered top only drafted
  refine ⟨t.valueAt assignment, fun node small => covers.value assignment node ((mem node).2 small), ?_⟩
  have some_node : t.nodes.toList ≠ [] := by
    intro none
    have : t.nodes.size = 0 := by rw [← Array.length_toList, none, List.length_nil]
    omega
  rw [getLast?_valuesFrom assignment some_node, Draft.valueAt, Array.length_toList, ← last, Nat.add_sub_cancel]

/-- The edges of an acyclic graph leave one value for each node. -/
theorem Evaluates.eq (acyclic : graph.Acyclic) {assignment value value' : Nat → Bool}
    (evaluates : graph.Evaluates assignment value) (evaluates' : graph.Evaluates assignment value') :
    ∀ node < graph.size, value node = value' node := by
  obtain ⟨order, ordered⟩ := matched.order_spec.1.2 acyclic
  obtain ⟨_, mem, first⟩ := matched.order_spec.2 order ordered
  intro node small
  refine first.induction (motive := fun node => value node = value' node) (fun node listed below => ?_) node
    ((mem node).2 small)
  have small := (mem node).1 listed
  rw [evaluates node small, evaluates' node small]
  exact nodeValue_congr assignment fun decision member => below _ (List.mem_map_of_mem member)

end Formula

end DecisionGraph

end Provenance
