import Provenance.DDnnf.Basic

/-!
# Smooth and binary circuits

A circuit is smooth when all children of a disjunction read the same inputs. A child that misses
inputs is put under a conjunction with one tautology for each of them; a tautology is made once for
its input. Gates with many children become balanced binary trees.
-/

namespace Provenance.DDnnf

variable {α : Type}

/-- Adds to the table the inputs that a gate reads: itself or what its children read. -/
def addReads (c : Circuit α) (reads : Std.TreeMap Nat GateSet) (gate : Nat) :
    Std.TreeMap Nat GateSet :=
  let own : GateSet := if c.inputs.contains gate then .singleton gate else ∅
  reads.insert gate
    ((c.children gate).foldl (fun set child => set.union (reads.getD child ∅)) own)

/-- The inputs that each gate of `order` reads, children coming first. -/
def readsInOrder (c : Circuit α) (order : List Nat) : Std.TreeMap Nat GateSet :=
  order.foldl (addReads c) ∅

variable [Scalar α]

/-- A circuit that grows, with the tautologies made so far by their inputs. -/
structure Smoothing (α : Type) where
  circuit : Circuit α
  tautologies : Std.TreeMap Nat Nat

namespace Smoothing

/-- The tautology of an input, made now if it is not there. -/
def tautology (s : Smoothing α) (input : Nat) : Nat × Smoothing α :=
  match s.tautologies[input]? with
  | some gate => (gate, s)
  | none =>
    let (negation, c) := s.circuit.addNode .not [input]
    let (gate, c) := c.addNode .or [input, negation]
    (gate, ⟨c, s.tautologies.insert input gate⟩)

/-- Adds the tautologies of inputs as last children of a gate. -/
def addTautologies (s : Smoothing α) (gate : Nat) : List Nat → Smoothing α
  | [] => s
  | input :: rest =>
    let (child, s) := s.tautology input
    { s with circuit := s.circuit.addWire gate child }.addTautologies gate rest

/-- A child made to read all of `missing` as well: the child itself when nothing is missing. -/
def pad (s : Smoothing α) (child : Nat) (missing : List Nat) : Nat × Smoothing α :=
  if missing.isEmpty then (child, s)
  else
    let (gate, c) := s.circuit.addNode .and [child]
    (gate, { s with circuit := c }.addTautologies gate missing)

/-- Makes all of the children read `all`. -/
def padAll (s : Smoothing α) (reads : Std.TreeMap Nat GateSet) (all : GateSet) :
    List Nat → List Nat × Smoothing α
  | [] => ([], s)
  | child :: rest =>
    let (padded, s) := s.pad child (all.diff (reads.getD child ∅)).toList
    let (others, s) := s.padAll reads all rest
    (padded :: others, s)

/-- Makes a disjunction smooth; other gates stay as they are. -/
def smoothGate (reads : Std.TreeMap Nat GateSet) (s : Smoothing α) (gate : Nat) : Smoothing α :=
  if s.circuit.kind gate = .or then
    let (children, s) := s.padAll reads (reads.getD gate ∅) (s.circuit.children gate)
    { s with circuit := s.circuit.setChildren gate children }
  else s

end Smoothing

/-- The smooth d-DNNF with the same root. -/
def smooth (d : DDnnf α) : DDnnf α :=
  let reads := readsInOrder d.circuit d.order
  d.withCircuit (d.order.foldl (Smoothing.smoothGate reads) ⟨d.circuit, ∅⟩).circuit

/-! ## Binary gates -/

/-- Puts neighbours in pairs under new gates of a kind; a last one without neighbour stays. -/
def pairUp (kind : Kind) : List Nat → Circuit α → List Nat × Circuit α
  | left :: right :: rest, c =>
    let (gate, c) := c.addNode kind [left, right]
    let (others, c) := pairUp kind rest c
    (gate :: others, c)
  | few, c => (few, c)

/-- Puts children in pairs until at most two are left; `rounds` bounds how often. -/
def pairDown (kind : Kind) : (rounds : Nat) → List Nat → Circuit α → List Nat × Circuit α
  | 0, children, c => (children, c)
  | rounds + 1, children, c =>
    if children.length ≤ 2 then (children, c)
    else
      let (children, c) := pairUp kind children c
      pairDown kind rounds children c

/-- Gives a gate of a kind at most two children. -/
def binaryGate (kind : Kind) (c : Circuit α) (gate : Nat) : Circuit α :=
  if c.kind gate = kind then
    let children := c.children gate
    let (children, c) := pairDown kind children.length children c
    c.setChildren gate children
  else c

/-- The d-DNNF in which conjunctions, or disjunctions, have at most two children. -/
def binary (d : DDnnf α) (kind : Kind) : Outcome (DDnnf α) :=
  if kind = .and ∨ kind = .or then
    .ok (d.withCircuit (d.circuit.gates.foldl (binaryGate kind) d.circuit))
  else Outcome.fail (.notBinarizable kind.label)

end Provenance.DDnnf
