import Provenance.Kind
import Provenance.Naming
import Provenance.Table

/-!
# Networks

A network is a table of gates. Each gate has a kind, an ordered list of children, which may repeat,
and perhaps a name. Gates are numbered in the order of their creation and never removed. A gate out
of range has the default kind and no children.
-/

namespace Provenance

/-- Gates of kinds `κ` with ordered wires to their children. -/
structure Network (κ : Type) where
  /-- The kind of each gate. -/
  kinds : Array κ
  /-- The children of each gate, in order. -/
  wires : Array (List Nat)
  /-- The names in use. -/
  naming : Naming

namespace Network

variable {κ : Type}

/-- The network without gates. -/
def empty : Network κ := ⟨#[], #[], .empty⟩

instance : Inhabited (Network κ) := ⟨empty⟩

/-- Number of gates. -/
def size (n : Network κ) : Nat := n.kinds.size

/-- All gates, by increasing index. -/
def gates (n : Network κ) : List Nat := List.range n.size

/-- The kind of a gate. -/
def kind [Inhabited κ] (n : Network κ) (gate : Nat) : κ := n.kinds.getD gate default

/-- The children of a gate, in order. -/
def children (n : Network κ) (gate : Nat) : List Nat := n.wires.getD gate []

/-- Number of wires. -/
def wireCount (n : Network κ) : Nat :=
  n.wires.foldl (fun count children => count + children.length) 0

/-- Adds a gate without name; its index is the former size. -/
def addGate (n : Network κ) (kind : κ) : Network κ :=
  { n with kinds := n.kinds.push kind, wires := n.wires.push [] }

/-- Changes the kind of a gate. -/
def setKind (n : Network κ) (gate : Nat) (kind : κ) : Network κ :=
  { n with kinds := n.kinds.setIfInBounds gate kind }

/-- Changes the children of a gate. -/
def setChildren (n : Network κ) (gate : Nat) (children : List Nat) : Network κ :=
  { n with wires := n.wires.setIfInBounds gate children }

/-- Adds a last child to a gate. -/
def addWire (n : Network κ) (gate child : Nat) : Network κ :=
  { n with wires := n.wires.modify gate (· ++ [child]) }

/-- The gate with a name. -/
def find? (n : Network κ) (name : String) : Option Nat := n.naming.owner? name

/-- The name of a gate. -/
def name? (n : Network κ) (gate : Nat) : Option String := n.naming.name? gate

/-- Gives a name to a gate. -/
def setName (n : Network κ) (gate : Nat) (name : String) : Network κ :=
  { n with naming := n.naming.assign gate name }

/-- Makes a gate anonymous. -/
def dropName (n : Network κ) (gate : Nat) : Network κ :=
  { n with naming := n.naming.release gate }

/-- The gate with a name, a new one of the default kind if there is none. -/
def intern [Inhabited κ] (n : Network κ) (name : String) : Nat × Network κ :=
  match n.find? name with
  | some gate => (gate, n)
  | none => (n.size, (n.addGate default).setName n.size name)

/-! ## Sizes, kinds and children -/

@[simp] theorem size_addGate (n : Network κ) (kind : κ) : (n.addGate kind).size = n.size + 1 := by
  simp [size, addGate]

@[simp] theorem size_setKind (n : Network κ) (gate : Nat) (kind : κ) :
    (n.setKind gate kind).size = n.size := by
  simp [size, setKind]

@[simp] theorem size_addWire (n : Network κ) (gate child : Nat) :
    (n.addWire gate child).size = n.size := rfl

@[simp] theorem size_setName (n : Network κ) (gate : Nat) (name : String) :
    (n.setName gate name).size = n.size := rfl

/-- A change of a kind shows at its gate alone. -/
theorem kind_setKind [Inhabited κ] (n : Network κ) (gate other : Nat) (kind : κ)
    (exists_gate : gate < n.size) :
    (n.setKind gate kind).kind other = if other = gate then kind else n.kind other :=
  Table.getD_set exists_gate kind default other

/-- A wire shows at its source alone. -/
theorem children_addWire (n : Network κ) (gate child other : Nat)
    (exists_gate : gate < n.wires.size) :
    (n.addWire gate child).children other =
      if other = gate then n.children gate ++ [child] else n.children other :=
  Table.getD_modify exists_gate (· ++ [child]) [] other

/-- The number of a gate as a variable of a CNF file, in a signed machine word. -/
def variableNumber (gate : Nat) : Int := Int.bmod (gate + 1) (Nat.pow 2 64)

end Network

end Provenance
