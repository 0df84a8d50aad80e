import Provenance.DDnnf.Basic

/-!
# Simplification

Constants are folded, conjunctions and disjunctions with one child are replaced by the child, and
what the root does not reach any more is left out. Gates are then numbered children first.
-/

namespace Provenance.DDnnf

variable {α : Type}

/-- A circuit under simplification; `stands` tells which gate now stands for a gate. -/
structure Folding (α : Type) where
  circuit : Circuit α
  stands : Array Nat

namespace Folding

/-- The gate that stands for a gate. -/
def standIn (f : Folding α) (gate : Nat) : Nat := f.stands.getD gate gate

/-- Makes a gate constant. -/
def setConstant (f : Folding α) (gate : Nat) (value : Bool) : Folding α :=
  { f with
    circuit := (f.circuit.setKind gate (if value then .and else .or)).setChildren gate [] }

/-- Folds the constants among the children of a conjunction, whose neutral constant is true, or of
a disjunction, whose neutral constant is false. -/
def foldChildren (f : Folding α) (gate : Nat) (neutral : Bool) (children : List Nat) :
    Folding α :=
  if children.any (f.circuit.constant? · == some !neutral) then f.setConstant gate !neutral
  else
    let kept := children.filter (f.circuit.constant? · != some neutral)
    let stands := match kept with
      | [only] => f.stands.setIfInBounds gate only
      | _ => f.stands
    ⟨f.circuit.setChildren gate kept, stands⟩

/-- Simplifies a gate whose children are simplified. -/
def foldGate (f : Folding α) (gate : Nat) : Folding α :=
  let children := (f.circuit.children gate).map f.standIn
  match f.circuit.kind gate with
  | .and => f.foldChildren gate true children
  | .or => f.foldChildren gate false children
  | .not =>
    match children.head?.bind f.circuit.constant? with
    | some value => f.setConstant gate !value
    | none => { f with circuit := f.circuit.setChildren gate children }
  | .input | .alternative | .undetermined => f

end Folding

variable [Scalar α]

/-- Copies a gate of `c` behind the gates of `copy`, the wires renumbered. -/
def copyGate (c : Circuit α) (state : Circuit α × Std.TreeMap Nat Nat) (gate : Nat) :
    Circuit α × Std.TreeMap Nat Nat :=
  let (copy, numbers) := state
  let (new, copy) := copy.addGate (c.kind gate)
  let copy := copy.setProb new (c.prob gate)
  let copy := match c.key? gate with
    | some key => copy.setKey new key
    | none => copy
  let copy := match c.name? gate with
    | some name => copy.setName new name
    | none => copy
  let copy := copy.addWires new ((c.children gate).map fun child => numbers.getD child new)
  (copy, numbers.insert gate new)

/-- The d-DNNF of what a gate reaches, numbered children first. -/
def extract (c : Circuit α) (root : Nat) : DDnnf α :=
  let (copy, numbers) := (c.postOrder root).foldl (copyGate c) (Circuit.empty, ∅)
  ofCircuit copy (numbers.getD root 0)

/-- The simplified d-DNNF. -/
def simplify (d : DDnnf α) : DDnnf α :=
  let folding := d.order.foldl Folding.foldGate ⟨d.circuit, (List.range d.circuit.size).toArray⟩
  extract folding.circuit (folding.standIn d.root)

end Provenance.DDnnf
