import Provenance.Nnf.Basic
import Provenance.Order

/-!
# Decision graphs

A decision graph is a formula whose edges are labelled: an edge stands for the conjunction of its
literals with its target. Nodes are numbered in the order of their creation. The edges at a node are
listed from the newest to the oldest, and enter the formula in this order.
-/

namespace Provenance

/-- What a node of a decision graph computes. -/
inductive DecisionKind where
  | truth
  | falsity
  | and
  | or
  deriving DecidableEq, Repr

/-- An edge at its source. -/
structure Decision where
  target : Nat
  literals : List Literal
  deriving DecidableEq, Repr

/-- A graph of decisions. -/
structure DecisionGraph where
  kinds : Array DecisionKind
  /-- The edges from each node, newest first. -/
  outgoing : Array (List Decision)
  /-- The sources of the edges to each node, newest first. -/
  incoming : Array (List Nat)
  /-- Number of variables; zero when it is not known. -/
  varCount : Nat

namespace DecisionGraph

/-- The graph without nodes. -/
def empty : DecisionGraph := ⟨#[], #[], #[], 0⟩

/-- Number of nodes. -/
def size (graph : DecisionGraph) : Nat := graph.kinds.size

/-- Number of edges. -/
def edgeCount (graph : DecisionGraph) : Nat :=
  graph.outgoing.foldl (fun count edges => count + edges.length) 0

/-- The edges from a node, newest first. -/
def decisions (graph : DecisionGraph) (node : Nat) : List Decision := graph.outgoing.getD node []

/-- The sources of the edges to a node, newest first. -/
def sources (graph : DecisionGraph) (node : Nat) : List Nat := graph.incoming.getD node []

/-- Adds a node; its number is the former size. -/
def addNode (graph : DecisionGraph) (kind : DecisionKind) : DecisionGraph :=
  { graph with
    kinds := graph.kinds.push kind
    outgoing := graph.outgoing.push []
    incoming := graph.incoming.push [] }

/-- Adds an edge. -/
def addEdge (graph : DecisionGraph) (source target : Nat) (literals : List Literal) :
    DecisionGraph :=
  { graph with
    outgoing := graph.outgoing.modify source (⟨target, literals⟩ :: ·)
    incoming := graph.incoming.modify target (source :: ·) }

/-- All nodes, each behind the targets of its edges; a node on a cycle if there is one. -/
def order (graph : DecisionGraph) : Except Nat (List Nat) :=
  Order.topologicalOrder graph.sources (fun node => (graph.decisions node).map (·.target))
    (graph.size + graph.edgeCount) (List.range graph.size)

/-! ## The formula of a graph -/

/-- A formula that grows, with the positions of the nodes and of the literals it has. -/
structure Draft where
  nodes : Array NnfNode
  positions : Std.TreeMap Nat Nat
  literals : Std.TreeMap Int Nat
  /-- Number of edges. -/
  edges : Nat

namespace Draft

/-- Adds a node. -/
def push (t : Draft) (node : NnfNode) : Draft := { t with nodes := t.nodes.push node }

/-- The position of a literal, which is added when it is new. -/
def literal (t : Draft) (l : Literal) : Nat × Draft :=
  match t.literals[l.toDimacs]? with
  | some position => (position, t)
  | none =>
    let position := t.nodes.size
    (position,
      { t.push (.literal l) with literals := t.literals.insert l.toDimacs position })

/-- The positions of the literals of an edge, which must be below `varCount` when this is
known. -/
def literalsOf (varCount : Nat) :
    List Literal → Draft → Outcome (List Nat × Draft)
  | [], t => .ok ([], t)
  | l :: rest, t => do
    Outcome.require (varCount == 0 || l.index < varCount)
      (.foreignLiteral l.toDimacs varCount)
    let (position, t) := t.literal l
    let (positions, t) ← literalsOf varCount rest t
    .ok (position :: positions, t)

/-- The position of what an edge stands for: its target, or a new conjunction. -/
def edge (varCount : Nat) (t : Draft) (decision : Decision) : Outcome (Nat × Draft) := do
  let target := t.positions.getD decision.target 0
  if decision.literals.isEmpty then .ok (target, t)
  else
    let (positions, t) ← literalsOf varCount decision.literals t
    let conjuncts := positions ++ [target]
    .ok (t.nodes.size,
      { t.push (.and conjuncts) with edges := t.edges + conjuncts.length })

/-- The positions of what the edges from a node stand for. -/
def edgesOf (varCount : Nat) : List Decision → Draft → Outcome (List Nat × Draft)
  | [], t => .ok ([], t)
  | decision :: rest, t => do
    let (position, t) ← edge varCount t decision
    let (positions, t) ← edgesOf varCount rest t
    .ok (position :: positions, t)

end Draft

/-- The node of the formula for a node with given children; a constant has none. -/
def nodeOf (kind : DecisionKind) (children : List Nat) : Outcome NnfNode :=
  match kind with
  | .and => .ok (.and children)
  | .or => .ok (.or none children)
  | .truth => do
    Outcome.require children.isEmpty .trueWithDescendants
    .ok (.and children)
  | .falsity => do
    Outcome.require children.isEmpty .falseWithDescendants
    .ok (.or none children)

/-- Adds a node whose targets are there already. -/
def draftNode (graph : DecisionGraph) (t : Draft) (node : Nat) : Outcome Draft := do
  let (children, t) ← Draft.edgesOf graph.varCount (graph.decisions node) t
  let made ← nodeOf (graph.kinds.getD node .falsity) children
  .ok { t.push made with
    positions := t.positions.insert node t.nodes.size
    edges := t.edges + children.length }

/-- The formula of a decision graph with one source, children first. -/
def toNnf (graph : DecisionGraph) : Outcome Nnf := do
  let tops := (List.range graph.size).filter fun node => (graph.sources node).isEmpty
  match tops with
  | [root] =>
    let order ← graph.order.mapError fun node => Failure.of (.decisionCycle node)
    let t ← order.foldlM graph.draftNode ⟨#[], ∅, ∅, 0⟩
    Outcome.require (t.positions.getD root 0 + 1 == t.nodes.size) .rootNotLast
    .ok { header := { varCount := graph.varCount, nodes := t.nodes.size, edges := t.edges },
          nodes := t.nodes.toList }
  | _ => Outcome.fail (.sourceCount tops.length)

end DecisionGraph

end Provenance
