import Provenance.Proofs.Decomposition.RoundTrip

/-!
# The texts that are read

A text is read as a decomposition exactly when it is laid out as the width, the number of bags and one record
for each bag, in order and each as long as it says, and the parents make a tree (`ofText_iff_serialized`).  A
text that stops too early or gives another number of a bag has no such records.  But numbers behind the last
record are passed over, although anything else behind it is refused: a header that asks for fewer bags than
there are goes unnoticed (`ofText_leftover`).
-/

namespace Provenance.Decomposition

open Provenance.Text (LaidOut)

/-! ## Numbers tell the records -/

theorem bagNumbers_append_inj {b : Nat} {record record' : BagRecord} {rest rest' : List Nat}
    (same : bagNumbers b record.gates record.parent record.children ++ rest =
      bagNumbers b record'.gates record'.parent record'.children ++ rest') :
    record = record' ∧ rest = rest' := by
  obtain ⟨gates, parent, children⟩ := record
  obtain ⟨gates', parent', children'⟩ := record'
  simp only [bagNumbers, List.cons_append, List.nil_append, List.append_assoc, List.cons.injEq, true_and] at same
  obtain ⟨many, same⟩ := same
  obtain ⟨rfl, behind⟩ := List.append_inj same many
  obtain ⟨rfl, counted⟩ := List.cons.inj behind
  obtain ⟨many, last⟩ := List.cons.inj counted
  obtain ⟨rfl, rfl⟩ := List.append_inj last many
  exact ⟨rfl, rfl⟩

/-- Records of one number of bags are found again in their numbers, and what stands behind them too. -/
theorem recordNumbers_append_inj {b : Nat} {records records' : List BagRecord} {extra extra' : List Nat}
    (length : records.length = records'.length)
    (same : recordNumbers b records ++ extra = recordNumbers b records' ++ extra') :
    records = records' ∧ extra = extra' := by
  induction records generalizing b records' with
  | nil =>
    obtain rfl := List.length_eq_zero_iff.1 length.symm
    exact ⟨rfl, same⟩
  | cons record records ih =>
    obtain ⟨record', records', rfl⟩ := List.exists_of_length_succ records' length.symm
    rw [recordNumbers, recordNumbers, List.append_assoc, List.append_assoc] at same
    obtain ⟨rfl, later⟩ := bagNumbers_append_inj same
    obtain ⟨rfl, rfl⟩ := ih (Nat.succ.inj length) later
    exact ⟨rfl, rfl⟩

/-- Numbers are those of one decomposition at most, with one list of numbers behind them. -/
theorem serialized_append_inj {width width' : Nat} {records records' : List BagRecord} {extra extra' : List Nat}
    (same : serialized width records ++ extra = serialized width' records' ++ extra') :
    width = width' ∧ records = records' ∧ extra = extra' := by
  simp only [serialized, List.cons_append, List.cons.injEq] at same
  obtain ⟨rfl, length, same⟩ := same
  exact ⟨rfl, recordNumbers_append_inj length same⟩

/-! ## What is read -/

/-- A text is read when it is laid out as a width, the number of the bags and their records, which make a tree.
Whatever numbers stand behind these are passed over. -/
theorem ofText_iff_serialized {text : String} {d : Decomposition} : ofText text = .ok d ↔ ∃ records extra,
    LaidOut text.toList (serialized d.width records ++ extra) ∧ d.IsTree ∧
      d = ofRecords records d.root d.width := by
  rw [ofText_eq_ok]
  constructor
  · rintro ⟨numbers, laid, read⟩
    have tree := isTree_ofNumbers read
    obtain ⟨width, records, extra, root, rfl, -, rfl, -⟩ := ofNumbers_eq_ok.1 read
    exact ⟨records, extra, laid, tree, rfl⟩
  · rintro ⟨records, extra, laid, tree, made⟩
    have size : d.size = records.length := by
      rw [made, ofRecords, size_ofParents, List.length_map]
    have parents : d.parents.toList = records.map BagRecord.parent := by
      rw [made]
      exact List.toList_toArray
    have found := tree.findRoot_parents
    rw [size, parents] at found
    exact ⟨_, laid, ofNumbers_eq_ok.2
      ⟨d.width, records, extra, d.root, rfl, found, made, fun b small => tree.isBelowRoot small⟩⟩

/-- The text of one bag with a number behind it. -/
theorem ofText_leftover : (∃ d, ofText "0\n1\n0 1 0 0 0\n7\n" = .ok d) ∧
    ∀ width records, ¬ LaidOut "0\n1\n0 1 0 0 0\n7\n".toList (serialized width records) := by
  have read : ofText "0\n1\n0 1 0 0 0\n7\n" = .ok (ofRecords [⟨[0], 0, []⟩] 0 0) := by decide +kernel
  have laid : LaidOut "0\n1\n0 1 0 0 0\n7\n".toList (serialized 0 [⟨[0], 0, []⟩] ++ [7]) :=
    Text.laidOut_iff.2 ⟨['\n'], by decide +kernel, by decide⟩
  refine ⟨⟨_, read⟩, fun width records whole => ?_⟩
  rw [← List.append_nil (serialized width records)] at whole
  obtain ⟨-, -, nothing⟩ := serialized_append_inj (whole.unique laid)
  exact absurd nothing.symm (List.cons_ne_nil 7 [])

end Provenance.Decomposition
