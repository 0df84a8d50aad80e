import Provenance.Proofs.Nnf.Layout

/-!
# Formulas that are read

The reader of a formula takes a child only when it comes before its parent, so the nodes that it takes are
ordered.
-/

namespace Provenance.NnfReading

open Provenance.Nnf

/-- The children of a node that is read stand in front of it. -/
theorem lt_of_readNode {varCount position : Nat} {line : List Char × Nat} {node : NnfNode}
    (taken : readNode varCount position line = .ok node) : ∀ child ∈ node.children, child < position :=
  (readNode_eq_ok.1 taken).2.before

theorem lt_of_readNodes {header : NnfHeader} {lines : List (List Char × Nat)} {position offset : Nat}
    {node : NnfNode} (found : (readNodes header lines position).1[offset]? = some node) :
    ∀ child ∈ node.children, child < position + offset := by
  induction lines generalizing position offset with
  | nil => simp [readNodes] at found
  | cons line rest ih =>
    rw [readNodes] at found
    split at found
    · simp at found
    · cases taken : readNode header.varCount position line with
      | error failure => simp [taken] at found
      | ok first =>
        simp only [taken] at found
        cases offset with
        | zero =>
          obtain rfl : first = node := by simpa using found
          exact lt_of_readNode taken
        | succ offset =>
          rw [List.getElem?_cons_succ] at found
          have below := ih found
          rwa [Nat.add_assoc, Nat.add_comm 1] at below

/-- The nodes of a text are ordered. -/
theorem ordered_of_ofText {text : String} {reading : NnfReading}
    (taken : NnfReading.ofText text = .ok reading) : Ordered reading.nodes := by
  unfold NnfReading.ofText at taken
  split at taken
  · simp at taken
  · simp only [Outcome.bind_eq_ok, Except.ok.injEq] at taken
    obtain ⟨header, _, rfl⟩ := taken
    intro position node found
    have below := lt_of_readNodes found
    rwa [Nat.zero_add] at below

end Provenance.NnfReading
