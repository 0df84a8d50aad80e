import Provenance.Circuit.Basic

/-!
# Values of gates in a world

A world says which inputs are true. A gate is evaluated by going through what it reaches, children
first; a child that has no value yet counts as false, which happens on cycles only.
-/

namespace Provenance.Circuit

variable {α : Type}

/-- Which inputs are true. -/
abbrev World := Nat → Bool

/-- The value of one gate from the values of its children. -/
def gateValue (c : Circuit α) (world : World) (value : Nat → Bool) (gate : Nat) : Outcome Bool :=
  match c.kind gate with
  | .input => .ok (world gate)
  | .not => (c.onlyChild gate).map fun child => !value child
  | .and => .ok ((c.children gate).all value)
  | .or => .ok ((c.children gate).any value)
  | .alternative => Outcome.fail (.multivalued gate)
  | .undetermined => Outcome.fail (.undetermined gate)

/-- The values of gates evaluated one after the other, the first failure if there is one. -/
def values (c : Circuit α) (world : World) : List Nat → Array Bool → Outcome (Array Bool)
  | [], table => .ok table
  | gate :: rest, table =>
    match c.gateValue world (table.getD · false) gate with
    | .ok value => values c world rest (table.setIfInBounds gate value)
    | .error failure => .error failure

/-- The value of the last gate of `order`, its gates evaluated one after the other. -/
def evaluateInOrder (c : Circuit α) (order : List Nat) (world : World) : Outcome Bool :=
  match c.values world order (Array.replicate c.size false) with
  | .ok table => .ok ((order.getLast?.map (table.getD · false)).getD false)
  | .error failure => .error failure

/-- Fails as the evaluation in `order` fails. Whether a gate has a value does not depend on the
world, so an evaluation fails in all worlds or in none. -/
def requireValues (c : Circuit α) (order : List Nat) : Outcome Unit :=
  (c.evaluateInOrder order fun _ => false).map fun _ => ()

/-- The work of making a world and evaluating the gates of `order` in it: a share for each input,
each gate and each wire. -/
def worldWork (c : Circuit α) (order : List Nat) : Nat :=
  let wires := order.foldl (fun count gate => count + (c.children gate).length) 0
  10 + 6 * c.inputs.toList.length + 4 * order.length + 2 * wires

/-- The value of a gate in a world. -/
def evaluate (c : Circuit α) (gate : Nat) (world : World) : Outcome Bool :=
  c.evaluateInOrder (c.postOrder gate) world

end Provenance.Circuit
