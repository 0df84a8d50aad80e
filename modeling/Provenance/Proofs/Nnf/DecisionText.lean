import Mathlib.Algebra.BigOperators.Group.Finset.Piecewise
import Provenance.Nnf.DecisionText
import Provenance.Proofs.Nnf.Decision

/-!
# Decision graphs that are read

A graph that is read knows of each edge at both ends, and its edges lead between its nodes
(`matched_of_ofText`), since a line adds a node without edges or one edge between nodes that are there.  So
what is known of formulas of such graphs holds of every text that is read (`toNnf_spec`).
-/

namespace Provenance.DecisionGraph

open Provenance.Nnf

/-! ## Tables of edges -/

/-- A new element shows in its entry alone. -/
theorem getD_modify_cons {β : Type} {table : Array (List β)} {position : Nat} (inside : position < table.size)
    (element : β) (other : Nat) : (table.modify position (element :: ·)).getD other [] =
      (if other = position then [element] else []) ++ table.getD other [] := by
  rw [Table.getD_modify inside]
  by_cases same : other = position
  · rw [if_pos same, if_pos same, same]
    rfl
  · rw [if_neg same, if_neg same]
    rfl

/-- An element of one entry counts once in the lengths of all. -/
theorem sum_length_append_if {β : Type} (entry : Nat → List β) (element : β) {position size : Nat}
    (inside : position < size) :
    ∑ node ∈ Finset.range size, ((if node = position then [element] else []) ++ entry node).length =
      (∑ node ∈ Finset.range size, (entry node).length) + 1 := by
  have part : ∀ node, ((if node = position then [element] else []) ++ entry node).length =
      (entry node).length + if node = position then 1 else 0 := by
    intro node
    rw [List.length_append, Nat.add_comm]
    split <;> rfl
  simp only [part, Finset.sum_add_distrib, Finset.sum_ite_eq', Finset.mem_range, inside, if_true]

section Tables

variable {graph : DecisionGraph}

theorem decisions_addNode (kind : DecisionKind) (node : Nat) :
    (graph.addNode kind).decisions node = graph.decisions node :=
  Table.getD_push_fallback graph.outgoing [] node

theorem sources_addNode (kind : DecisionKind) (node : Nat) :
    (graph.addNode kind).sources node = graph.sources node :=
  Table.getD_push_fallback graph.incoming [] node

theorem size_addNode (kind : DecisionKind) : (graph.addNode kind).size = graph.size + 1 := Array.size_push ..

theorem decisions_addEdge {source : Nat} (inside : source < graph.outgoing.size) (target : Nat)
    (literals : List Literal) (node : Nat) : (graph.addEdge source target literals).decisions node =
      (if node = source then [⟨target, literals⟩] else []) ++ graph.decisions node :=
  getD_modify_cons inside _ node

theorem sources_addEdge {target : Nat} (inside : target < graph.incoming.size) (source : Nat)
    (literals : List Literal) (node : Nat) : (graph.addEdge source target literals).sources node =
      (if node = target then [source] else []) ++ graph.sources node :=
  getD_modify_cons inside _ node

theorem leads_addEdge {source : Nat} (inside : source < graph.outgoing.size) (target : Nat)
    (literals : List Literal) (node other : Nat) : (graph.addEdge source target literals).Leads node other ↔
      (node = source ∧ target = other) ∨ graph.Leads node other := by
  unfold Leads
  rw [decisions_addEdge inside]
  by_cases same : node = source
  · simp [same]
  · simp [same]

end Tables

/-! ## Graphs that are read -/

/-- A graph that grows: its tables have the same size and list the same edges, and the numbers of the text stand
for its nodes. -/
structure Reading.Proper (state : Reading) : Prop where
  outgoing : state.graph.outgoing.size = state.graph.size
  incoming : state.graph.incoming.size = state.graph.size
  mem_sources : ∀ node source, source ∈ state.graph.sources node ↔ state.graph.Leads source node
  inside : ∀ node target, state.graph.Leads node target → node < state.graph.size ∧ target < state.graph.size
  count : ∑ node ∈ Finset.range state.graph.size, (state.graph.sources node).length =
    ∑ node ∈ Finset.range state.graph.size, (state.graph.decisions node).length
  nodes : ∀ (number : Int) (node : Nat), state.nodes[number]? = some node → node < state.graph.size

namespace Reading.Proper

variable {state : Reading}

theorem start : Reading.Proper ⟨.empty, ∅⟩ where
  outgoing := rfl
  incoming := rfl
  mem_sources node source := by simp [Leads, empty, decisions, sources]
  inside node target edge := by simp [Leads, empty, decisions] at edge
  count := rfl
  nodes number node found := by simp at found

theorem matched (proper : state.Proper) : state.graph.Matched where
  mem_sources := proper.mem_sources
  inside := proper.inside
  count := by
    rw [proper.count, edgeCount, Network.foldl_length_eq_sum, proper.outgoing]
    rfl

/-- The new node has no edges. -/
theorem addNode (proper : state.Proper) (kind : DecisionKind) (number : Int) :
    Reading.Proper ⟨state.graph.addNode kind, state.nodes.insert number state.graph.size⟩ where
  outgoing := by
    show (state.graph.outgoing.push []).size = (state.graph.addNode kind).size
    rw [Array.size_push, size_addNode, proper.outgoing]
  incoming := by
    show (state.graph.incoming.push []).size = (state.graph.addNode kind).size
    rw [Array.size_push, size_addNode, proper.incoming]
  mem_sources node source := by
    simp only [Leads, sources_addNode, decisions_addNode]
    exact proper.mem_sources node source
  inside node target edge := by
    simp only [Leads, decisions_addNode] at edge
    obtain ⟨source_lt, target_lt⟩ := proper.inside node target edge
    rw [size_addNode]
    exact ⟨Nat.lt_succ_of_lt source_lt, Nat.lt_succ_of_lt target_lt⟩
  count := by
    have no_sources : state.graph.sources state.graph.size = [] := by
      simp [sources, Array.getD_eq_getD_getElem?, proper.incoming]
    have no_decisions : state.graph.decisions state.graph.size = [] := by
      simp [decisions, Array.getD_eq_getD_getElem?, proper.outgoing]
    simp only [size_addNode, sources_addNode, decisions_addNode, Finset.sum_range_succ, proper.count, no_sources,
      no_decisions, List.length_nil]
  nodes other node found := by
    rw [size_addNode]
    replace found : (state.nodes.insert number state.graph.size)[other]? = some node := found
    rw [Std.TreeMap.getElem?_insert] at found
    split at found
    · obtain rfl := Option.some.inj found
      exact Nat.lt_succ_self _
    · exact Nat.lt_succ_of_lt (proper.nodes other node found)

theorem addEdge (proper : state.Proper) {source target : Nat} (source_lt : source < state.graph.size)
    (target_lt : target < state.graph.size) (literals : List Literal) :
    Reading.Proper { state with graph := state.graph.addEdge source target literals } where
  outgoing := (Array.size_modify ..).trans proper.outgoing
  incoming := (Array.size_modify ..).trans proper.incoming
  mem_sources node other := by
    rw [leads_addEdge (proper.outgoing ▸ source_lt), ← proper.mem_sources,
      sources_addEdge (proper.incoming ▸ target_lt), List.mem_append]
    refine or_congr_left ?_
    by_cases same : node = target
    · simp [same]
    · simp [same, Ne.symm same]
  inside node other edge := by
    rw [leads_addEdge (proper.outgoing ▸ source_lt)] at edge
    rcases edge with ⟨rfl, rfl⟩ | edge
    · exact ⟨source_lt, target_lt⟩
    · exact proper.inside node other edge
  count := by
    have size : (state.graph.addEdge source target literals).size = state.graph.size := rfl
    simp only [size, sources_addEdge (proper.incoming ▸ target_lt), decisions_addEdge (proper.outgoing ▸ source_lt)]
    rw [sum_length_append_if _ _ target_lt, sum_length_append_if _ _ source_lt, proper.count]
  nodes := proper.nodes

section Line

variable {line : Nat} {text rest : List Char} {state' : Reading}

/-- A remark may set the number of variables, and the tables stay. -/
theorem readRemark (proper : state.Proper)
    (taken : DecisionGraph.readRemark line text state = .ok (rest, state')) : state'.Proper := by
  simp only [DecisionGraph.readRemark] at taken
  split at taken
  · obtain ⟨_, rfl⟩ := Prod.mk.inj (Except.ok.inj taken)
    exact proper
  · simp only [Outcome.bind_eq_ok] at taken
    obtain ⟨⟨numbers, _⟩, _, taken⟩ := taken
    split at taken
    · simp only [Outcome.bind_eq_ok, Except.ok.injEq] at taken
      obtain ⟨_, _, equal⟩ := taken
      obtain ⟨_, rfl⟩ := Prod.mk.inj equal
      exact
        { outgoing := proper.outgoing
          incoming := proper.incoming
          mem_sources := proper.mem_sources
          inside := proper.inside
          count := proper.count
          nodes := proper.nodes }
    · simp at taken

theorem readNode (proper : state.Proper) {kind : DecisionKind}
    (taken : DecisionGraph.readNode line kind text state = .ok (rest, state')) : state'.Proper := by
  simp only [DecisionGraph.readNode, Outcome.bind_eq_ok] at taken
  obtain ⟨_, _, ⟨numbers, _⟩, _, taken⟩ := taken
  split at taken
  · simp only [Outcome.bind_eq_ok, Except.ok.injEq] at taken
    obtain ⟨_, _, _, _, equal⟩ := taken
    obtain ⟨_, rfl⟩ := Prod.mk.inj equal
    exact proper.addNode _ _
  · simp at taken

theorem readEdge (proper : state.Proper)
    (taken : DecisionGraph.readEdge line text state = .ok (rest, state')) : state'.Proper := by
  simp only [DecisionGraph.readEdge, Outcome.bind_eq_ok] at taken
  obtain ⟨⟨numbers, _⟩, _, taken⟩ := taken
  split at taken
  · simp only [Outcome.bind_eq_ok, Outcome.ofOption_eq_ok, Except.ok.injEq] at taken
    obtain ⟨_, _, source, found, target, found', equal⟩ := taken
    obtain ⟨_, rfl⟩ := Prod.mk.inj equal
    exact proper.addEdge (proper.nodes _ _ found) (proper.nodes _ _ found') _
  · simp at taken

theorem readLine (proper : state.Proper)
    (taken : DecisionGraph.readLine line text state = .ok (rest, state')) : state'.Proper := by
  unfold DecisionGraph.readLine at taken
  split at taken
  · exact proper.readRemark taken
  · split at taken
    · exact proper.readNode taken
    · exact proper.readEdge taken
  · exact proper.readEdge taken

end Line

end Reading.Proper

variable {graph : DecisionGraph}

theorem matched_of_readLines {remaining line : Nat} {text : List Char} {state : Reading}
    (proper : state.Proper) (taken : readLines remaining line text state = .ok graph) :
    graph.Matched := by
  induction remaining generalizing line text state with
  | zero => exact Except.ok.inj taken ▸ proper.matched
  | succ remaining ih =>
    cases text with
    | nil => exact Except.ok.inj taken ▸ proper.matched
    | cons first text =>
      simp only [readLines, Outcome.bind_eq_ok] at taken
      obtain ⟨⟨rest, state'⟩, here, ⟨_, rest'⟩, _, taken⟩ := taken
      exact ih (proper.readLine here) taken

/-- In a graph that was read both ends of an edge know of it. -/
theorem matched_of_ofText {text : String} (taken : DecisionGraph.ofText text = .ok graph) : graph.Matched :=
  matched_of_readLines Reading.Proper.start taken

/-- A graph that was read has a formula when one node is without source, it is acyclic, its constants are
without edges and its literals are about known variables, and only then.  The formula is ordered, and for each
assignment its last node has the value that the edges leave for the node without source. -/
theorem toNnf_spec {text : String} (taken : DecisionGraph.ofText text = .ok graph) :
    ((∃ formula, graph.toNnf = .ok formula) ↔ graph.Translatable) ∧
    ∀ formula, graph.toNnf = .ok formula →
      Ordered formula.nodes ∧ formula.header.nodes = formula.nodes.length ∧
      ∀ root, graph.IsTop root → ∀ assignment : Nat → Bool,
        (∃ value, graph.Evaluates assignment value) ∧
        ∀ value, graph.Evaluates assignment value →
          (valuesFrom assignment formula.nodes []).getLast? = some (value root) := by
  have matched := matched_of_ofText taken
  refine ⟨exists_toNnf_iff matched, fun formula made => ⟨ordered_of_toNnf matched made, ?_, ?_⟩⟩
  · obtain ⟨_, _, t, _, _, _, _, rfl⟩ := toNnf_eq_ok_iff.1 made
    exact Array.length_toList.symm
  · intro root top assignment
    have translatable := (exists_toNnf_iff matched).1 ⟨formula, made⟩
    obtain ⟨value, evaluates, last⟩ := value_of_toNnf matched made top assignment
    refine ⟨⟨value, evaluates⟩, fun value' evaluates' => ?_⟩
    rw [last, evaluates.eq matched translatable.acyclic evaluates' root top.1]

/-- A disjunction with one edge, for the first variable. -/
def literalEdge : DecisionGraph := ⟨#[.or, .truth], #[[⟨1, [.pos 0]⟩], []], #[[], [0]], 0⟩

/-- Its formula has the value of the first variable. -/
theorem toNnf_literalEdge : DecisionGraph.ofText "o 1 0\nt 2 0\n1 2 1 0\n" = .ok literalEdge ∧
    literalEdge.Translatable ∧
    ∃ formula, literalEdge.toNnf = .ok formula ∧ Ordered formula.nodes ∧ ∀ assignment : Nat → Bool,
      (valuesFrom assignment formula.nodes []).getLast? = some (assignment 0) := by
  have taken : DecisionGraph.ofText "o 1 0\nt 2 0\n1 2 1 0\n" = .ok literalEdge := rfl
  obtain ⟨formula, made⟩ : ∃ formula, literalEdge.toNnf = .ok formula := ⟨_, rfl⟩
  obtain ⟨exists_iff, meaning⟩ := toNnf_spec taken
  obtain ⟨ordered, _, value⟩ := meaning formula made
  refine ⟨taken, exists_iff.1 ⟨formula, made⟩, formula, made, ordered, fun assignment => ?_⟩
  have top : literalEdge.IsTop 0 := by
    refine ⟨by decide, fun other => ?_⟩
    rintro ⟨decision, member, target⟩
    have known := ((matched_of_ofText taken).mem_sources 0 other).2 ⟨decision, member, target⟩
    exact absurd known List.not_mem_nil
  refine (value 0 top assignment).2 (fun node => if node = 0 then assignment 0 else true) fun node small => ?_
  obtain rfl | rfl : node = 0 ∨ node = 1 := by
    have : node < 2 := small
    omega
  · simp [nodeValue, literalEdge, decisions, DecisionKind.eval, Decision.holds, Literal.holds, Literal.pos]
  · rfl

end Provenance.DecisionGraph
