import Provenance.Circuit.Basic

/-!
# Records

A record describes one gate by names: its own, its kind, those of its children, and for inputs a
probability, for alternatives also a key. Children may be described later; until then they are
undetermined gates. A circuit takes one record after the other.
-/

namespace Provenance

/-- The description of one gate. -/
structure Record where
  /-- The name of the gate. -/
  id : String
  kind : Kind
  /-- The names of the children, in order. -/
  children : List String
  /-- The probability of an input or the weight of an alternative. -/
  prob : Option Numeral
  /-- The key of an alternative. -/
  key : Option Nat
  deriving DecidableEq, Repr

variable {α : Type} [Scalar α]

/-- The scalar of a numeral that is a probability; `id` names the gate for the failure. -/
def requireProbability (id : String) (numeral : Numeral) : Outcome α :=
  match Scalar.ofNumeral? numeral with
  | some p =>
    if Scalar.le Scalar.zero p && Scalar.le p Scalar.one then .ok p
    else Outcome.fail (.probabilityOutOfRange (Scalar.text p) id)
  | none => Outcome.fail (.probabilityOutOfRange (DecimalStyle.plain.text numeral.toFloat) id)

namespace Record

/-- One more than the greatest key. -/
def keyLimit : Nat := Nat.pow 2 32

/-- Checks what can be checked without touching the circuit: the name is free or only mentioned,
and the number of children fits the kind. -/
def check (record : Record) (c : Circuit α) : Outcome Unit := do
  match c.find? record.id with
  | some gate => Outcome.require (c.kind gate == .undetermined) (.definedTwice record.id)
  | none => .ok ()
  match record.kind with
  | .input | .alternative =>
    Outcome.require record.children.isEmpty (.inputWithChildren record.id)
  | .not => Outcome.require (record.children.length == 1) (.negationWithoutOneChild record.id)
  | .and | .or => .ok ()
  | .undetermined => Outcome.fail (.untypedGate record.id)

/-- The probability and the key that the record gives to its gate. An input without probability is
certain; an alternative needs both. -/
def weight (record : Record) : Outcome (Option α × Option Nat) :=
  match record.kind with
  | .input => do
    let p ← requireProbability record.id (record.prob.getD (Numeral.ofNat 1))
    .ok (some p, none)
  | .alternative => do
    let numeral ← Outcome.ofOption (.missingProbability record.id) record.prob
    let key ← Outcome.ofOption (.missingKey record.id) record.key
    let p ← requireProbability record.id numeral
    .ok (some p, some key)
  | _ => .ok (none, none)

end Record

namespace Circuit

/-- Adds children by their names, as undetermined gates where a name is new. -/
def addNamedWires (c : Circuit α) (gate : Nat) : List String → Circuit α
  | [] => c
  | name :: rest =>
    let (child, c) := c.intern name
    (c.addWire gate child).addNamedWires gate rest

/-- Takes a record: the gate it describes, or a failure, and the circuit afterwards. A record that
is refused for its probability or its key has already given the gate its name and its kind. -/
def ingest (c : Circuit α) (record : Record) : Outcome Nat × Circuit α :=
  match record.check c with
  | .error failure => (.error failure, c)
  | .ok () =>
    let (gate, c) := c.define record.id record.kind
    match record.weight (α := α) with
    | .error failure => (.error failure, c)
    | .ok (p, key) =>
      let c := match p with
        | some p => c.setProb gate p
        | none => c
      let c := match key with
        | some key => c.setKey gate key
        | none => c
      (.ok gate, c.addNamedWires gate record.children)

end Circuit

end Provenance
