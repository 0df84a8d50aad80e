import Provenance.Circuit.Basic
import Provenance.Dot

/-!
# Circuits as text

The formula of a gate in infix notation, and the drawing of what a gate reaches.
-/

namespace Provenance.Circuit

variable {α : Type} [Scalar α]

/-- The name of a gate, its index if it has none. -/
def gateName (c : Circuit α) (gate : Nat) : String := (c.name? gate).getD (toString gate)

/-- The formula of a gate; `depth` bounds the length of a path below it. -/
def formula (c : Circuit α) (gate : Nat) : (depth : Nat) → String
  | 0 => "?"
  | depth + 1 =>
    let children := c.children gate
    let joined (separator : String) : String :=
      "(" ++ separator.intercalate (children.map (formula c · depth)) ++ ")"
    match c.kind gate with
    | .input =>
      let p := c.prob gate
      if Scalar.eq p Scalar.zero then "⊥"
      else if Scalar.eq p Scalar.one then "⊤"
      else c.gateName gate ++ "[" ++ Scalar.text p ++ "]"
    | .alternative =>
      let key := (c.key? gate).map toString
      c.gateName gate ++ "[" ++ Scalar.text (c.prob gate) ++ "]\x7b" ++ key.getD "" ++ "\x7d"
    | .not =>
      match children with
      | child :: _ => "¬" ++ formula c child depth
      | [] => "¬?"
    | .and => if children.isEmpty then "⊤" else joined " ∧ "
    | .or => if children.isEmpty then "⊥" else joined " ∨ "
    | .undetermined => "?"

/-- The formula of a gate. A path visits a gate at most once, so the number of gates bounds the
depth. -/
def render (c : Circuit α) (gate : Nat) : String := c.formula gate (c.size + 1)

/-- The drawing of the gates that can be reached from `root`, children first. -/
def toDot (c : Circuit α) (root : Nat) : String :=
  let order := c.postOrder root
  let label (gate : Nat) : String :=
    match c.kind gate with
    | .input => c.gateName gate ++ " [" ++ Scalar.text (c.prob gate) ++ "]"
    | kind => toString gate ++ " " ++ kind.label
  let edges := order.flatMap fun gate =>
    (c.children gate).filterMap fun child =>
      match order.idxOf? gate, order.idxOf? child with
      | some source, some target => some (source, target)
      | _, _ => none
  Dot.render (order.map label) edges

end Provenance.Circuit
