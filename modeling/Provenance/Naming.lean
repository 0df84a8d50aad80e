import Std.Data.TreeMap

/-!
# Names of gates

Names and gates are paired one to one: a name belongs to at most one gate and a gate has at most
one name. Both directions are kept as maps. Giving a name to a gate takes it from its former owner
and takes the gate's former name from the gate.
-/

namespace Provenance

/-- Pairs of a name and a gate. -/
structure Naming where
  /-- The owner of a name. -/
  owners : Std.TreeMap String Nat
  /-- The name of a gate. -/
  names : Std.TreeMap Nat String

namespace Naming

/-- No names. -/
def empty : Naming := ⟨∅, ∅⟩

instance : Inhabited Naming := ⟨empty⟩

/-- The gate that has a name. -/
def owner? (naming : Naming) (name : String) : Option Nat := naming.owners[name]?

/-- The name of a gate. -/
def name? (naming : Naming) (gate : Nat) : Option String := naming.names[gate]?

/-- Takes the name from a gate. -/
def release (naming : Naming) (gate : Nat) : Naming :=
  match naming.name? gate with
  | some name => ⟨naming.owners.erase name, naming.names.erase gate⟩
  | none => naming

/-- Gives a name to a gate. -/
def assign (naming : Naming) (gate : Nat) (name : String) : Naming :=
  let released := naming.release gate
  let names := match released.owner? name with
    | some owner => released.names.erase owner
    | none => released.names
  ⟨released.owners.insert name gate, names.insert gate name⟩

end Naming

end Provenance
