import Provenance.DDnnf.Basic

/-!
# Probabilities by products and sums

In a d-DNNF the children of a conjunction are independent and those of a disjunction exclude each
other, so probabilities multiply and add up. Gates are visited children first; those remembered are
passed over, and what was computed before a failure stays remembered.
-/

namespace Provenance.DDnnf

variable {α : Type} [Scalar α]

/-- The probability of one gate from those of its children. Children are combined from the left; a
child without probability is on a cycle. -/
def gateProbability (c : Circuit α) (memo : Std.TreeMap Nat α) (gate : Nat) : Outcome α := do
  let children ← (c.children gate).mapM fun child => Outcome.ofOption (.cyclic gate) memo[child]?
  match c.kind gate with
  | .input => .ok (c.prob gate)
  | .and => .ok (Scalar.product children)
  | .or => .ok (Scalar.sum children)
  | .not => do
    let _ ← c.onlyChild gate
    .ok (Scalar.complement (Scalar.sum children))
  | .alternative => Outcome.fail (.multivalued gate)
  | .undetermined => Outcome.fail (.undetermined gate)

/-- Remembers the probabilities of gates one after the other, up to the first failure. -/
def remember (c : Circuit α) : List Nat → Std.TreeMap Nat α → Outcome Unit × Std.TreeMap Nat α
  | [], memo => (.ok (), memo)
  | gate :: rest, memo =>
    if memo.contains gate then remember c rest memo
    else
      match gateProbability c memo gate with
      | .ok p => remember c rest (memo.insert gate p)
      | .error failure => (.error failure, memo)

/-- The probability of a gate, and the d-DNNF with more remembered. -/
def probabilityOf (d : DDnnf α) (gate : Nat) : Outcome α × DDnnf α :=
  match d.memo[gate]? with
  | some p => (.ok p, d)
  | none =>
    let (outcome, memo) := remember d.circuit (d.circuit.postOrder gate) d.memo
    let p := outcome.bind fun _ => Outcome.ofOption (.cyclic gate) memo[gate]?
    (p, { d with memo })

/-- The probability of the root, and the d-DNNF with more remembered. -/
def probability (d : DDnnf α) : Outcome α × DDnnf α := d.probabilityOf d.root

end Provenance.DDnnf
