import Provenance.Circuit.Basic

/-!
# Deterministic decomposable circuits

A d-DNNF is a circuit with a root in which the children of a conjunction read different inputs and
at most one child of a disjunction is true. Probabilities of gates are remembered once they are
computed; whatever changes the circuit forgets them.
-/

namespace Provenance

/-- A circuit with a root and the probabilities remembered for its gates. -/
structure DDnnf (α : Type) where
  circuit : Circuit α
  root : Nat
  /-- Probabilities computed before. -/
  memo : Std.TreeMap Nat α

namespace DDnnf

variable {α : Type}

/-- The d-DNNF of a gate of a circuit, nothing remembered. -/
def ofCircuit (c : Circuit α) (root : Nat) : DDnnf α := ⟨c, root, ∅⟩

/-- The same d-DNNF with nothing remembered. -/
def fresh (d : DDnnf α) : DDnnf α := ofCircuit d.circuit d.root

/-- The d-DNNF with a changed circuit, nothing remembered. -/
def withCircuit (d : DDnnf α) (c : Circuit α) : DDnnf α := ofCircuit c d.root

/-- What the root reaches, children first. -/
def order (d : DDnnf α) : List Nat := d.circuit.postOrder d.root

/-- Replaces an input by a constant: a conjunction or a disjunction without children and without
name. Its probability is remembered, as one or zero. -/
def condition [Scalar α] (d : DDnnf α) (input : Nat) (value : Bool) : DDnnf α :=
  let c := d.circuit.setKind input (if value then .and else .or)
  let c := (c.setChildren input []).dropName input
  let p : α := if value then Scalar.one else Scalar.zero
  { d.withCircuit c with memo := (∅ : Std.TreeMap Nat α).insert input p }

variable [Scalar α]

/-- The d-DNNF that is always false. -/
def falsum : DDnnf α :=
  let (root, c) := Circuit.empty.addGate .or
  ofCircuit c root

instance : Inhabited (DDnnf α) := ⟨falsum⟩

end DDnnf

end Provenance
