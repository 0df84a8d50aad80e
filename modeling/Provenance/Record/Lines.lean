import Provenance.Record.Json
import Provenance.Text.Line
import Provenance.Text.Utf8

/-!
# Circuits as lines of records

One record a line, blank lines passed over. Children may come before or after their parents; at the
end the wires must not form a cycle.
-/

namespace Provenance.Circuit

variable {α : Type} [Scalar α]

/-- Takes the record of a numbered line. -/
def ingestLine (c : Circuit α) (numbered : List UInt8 × Nat) : Outcome (Circuit α) := do
  let (bytes, number) := numbered
  let line ← Outcome.within .readingRecords <|
    Outcome.ofOption .file (Text.Utf8.strict? ⟨bytes.toArray⟩)
  if Text.allWhite line.toList then .ok c
  else
    let record ← Outcome.within (.parsingRecord number) <|
      Outcome.ofOption .json (Record.ofLine? line.toList)
    let (outcome, c) := c.ingest record
    Outcome.within (.atLine number) (outcome.map fun _ => c)

/-- The circuit of lines of records. -/
def ofRecordLines (lines : List (List UInt8)) : Outcome (Circuit α) := do
  let c ← (lines.zipIdx 1).foldlM ingestLine empty
  c.checkAcyclic
  .ok c

/-- The circuit of a sequence of bytes with one record a line. -/
def ofRecords (bytes : ByteArray) : Outcome (Circuit α) := ofRecordLines (Text.byteLines bytes)

end Provenance.Circuit
