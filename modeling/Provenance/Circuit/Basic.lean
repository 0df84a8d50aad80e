import Provenance.GateSet
import Provenance.Network.Cycle
import Provenance.Scalar

/-!
# Circuits

A circuit is a network of Boolean gates with a probability for every gate, which counts for inputs
and alternatives, and a key for some, which tells which alternatives belong to one categorical
variable. The inputs and the alternatives are listed beside the kinds, and every change of a kind
keeps the two lists in step.
-/

namespace Provenance

/-- A Boolean circuit with probabilities of type `α`. -/
structure Circuit (α : Type) extends Network Kind where
  /-- The gates of kind `input`. -/
  inputs : GateSet
  /-- The gates of kind `alternative`. -/
  alternatives : GateSet
  /-- A probability for each gate. -/
  probs : Array α
  /-- The keys of gates that have one. -/
  keys : Std.TreeMap Nat Nat

namespace Circuit

variable {α : Type}

/-- The circuit without gates. -/
def empty : Circuit α :=
  { Network.empty with inputs := ∅, alternatives := ∅, probs := #[], keys := ∅ }

instance : Inhabited (Circuit α) := ⟨empty⟩

/-- The key of a gate. -/
def key? (c : Circuit α) (gate : Nat) : Option Nat := c.keys[gate]?

/-- Changes the kind of a gate. -/
def setKind (c : Circuit α) (gate : Nat) (kind : Kind) : Circuit α :=
  let inputs := c.inputs.erase gate
  let alternatives := c.alternatives.erase gate
  { c with
    toNetwork := c.toNetwork.setKind gate kind
    inputs := if kind = .input then inputs.insert gate else inputs
    alternatives := if kind = .alternative then alternatives.insert gate else alternatives }

/-- Changes the children of a gate. -/
def setChildren (c : Circuit α) (gate : Nat) (children : List Nat) : Circuit α :=
  { c with toNetwork := c.toNetwork.setChildren gate children }

/-- Adds a last child to a gate. -/
def addWire (c : Circuit α) (gate child : Nat) : Circuit α :=
  { c with toNetwork := c.toNetwork.addWire gate child }

/-- Adds several last children to a gate. -/
def addWires (c : Circuit α) (gate : Nat) (children : List Nat) : Circuit α :=
  children.foldl (fun c child => c.addWire gate child) c

/-- Gives a name to a gate. -/
def setName (c : Circuit α) (gate : Nat) (name : String) : Circuit α :=
  { c with toNetwork := c.toNetwork.setName gate name }

/-- Makes a gate anonymous. -/
def dropName (c : Circuit α) (gate : Nat) : Circuit α :=
  { c with toNetwork := c.toNetwork.dropName gate }

/-- Sets the probability of a gate. -/
def setProb (c : Circuit α) (gate : Nat) (p : α) : Circuit α :=
  { c with probs := c.probs.setIfInBounds gate p }

/-- Sets the key of a gate. -/
def setKey (c : Circuit α) (gate key : Nat) : Circuit α :=
  { c with keys := c.keys.insert gate key }

/-- Forgets the key of a gate. -/
def dropKey (c : Circuit α) (gate : Nat) : Circuit α := { c with keys := c.keys.erase gate }

/-- The value of a gate that is constant: an empty conjunction or disjunction. -/
def constant? (c : Circuit α) (gate : Nat) : Option Bool :=
  match c.kind gate, c.children gate with
  | .and, [] => some true
  | .or, [] => some false
  | _, _ => none

/-- The only child of a negation. -/
def onlyChild (c : Circuit α) (gate : Nat) : Outcome Nat :=
  match c.children gate with
  | [child] => .ok child
  | _ => Outcome.fail (.unsupported gate .negationArity)

/-- Fails with the first alternative, if there is one. -/
def requireBoolean (c : Circuit α) : Outcome Unit :=
  match c.alternatives.first? with
  | some gate => Outcome.fail (.multivalued gate)
  | none => .ok ()

variable [Scalar α]

/-- The probability of a gate; other gates than inputs and alternatives keep one. -/
def prob (c : Circuit α) (gate : Nat) : α := c.probs.getD gate Scalar.one

/-- Adds a gate without name, of probability one. -/
def addGate (c : Circuit α) (kind : Kind) : Nat × Circuit α :=
  let gate := c.size
  let network := c.toNetwork.addGate .undetermined
  let c := { c with toNetwork := network, probs := c.probs.push Scalar.one }
  (gate, c.setKind gate kind)

/-- The gate with a name, a new undetermined one if there is none. -/
def intern (c : Circuit α) (name : String) : Nat × Circuit α :=
  match c.find? name with
  | some gate => (gate, c)
  | none =>
    let (gate, c) := c.addGate .undetermined
    (gate, c.setName gate name)

/-- The gate with a name, made to be of a kind. -/
def define (c : Circuit α) (name : String) (kind : Kind) : Nat × Circuit α :=
  let (gate, c) := c.intern name
  (gate, c.setKind gate kind)

/-- The input with a name, true with probability `p`. -/
def defineInput (c : Circuit α) (name : String) (p : α) : Nat × Circuit α :=
  let (gate, c) := c.define name .input
  (gate, c.setProb gate p)

/-- Adds an input without name, true with probability `p`. -/
def addInput (c : Circuit α) (p : α) : Nat × Circuit α :=
  let (gate, c) := c.addGate .input
  (gate, c.setProb gate p)

/-- The alternative with a name, of weight `p` among those with its key. -/
def defineAlternative (c : Circuit α) (name : String) (p : α) (key : Nat) : Nat × Circuit α :=
  let (gate, c) := c.define name .alternative
  (gate, (c.setProb gate p).setKey gate key)

/-- Adds a gate of a kind with the given children. -/
def addNode (c : Circuit α) (kind : Kind) (children : List Nat) : Nat × Circuit α :=
  let (gate, c) := c.addGate kind
  (gate, c.addWires gate children)

end Circuit

end Provenance
