import Provenance.Circuit.Text
import Provenance.Record.Lines

/-!
# Circuit files

A file holds lines of records when its extension is `json` or `jsonl`, and plain text otherwise.
-/

namespace Provenance.CircuitFile

/-- The last name in a path; none for the parent directory. -/
def fileName? (path : String) : Option String :=
  match ((path.splitOn "/").filter fun name => !name.isEmpty && name != ".").getLast? with
  | some ".." => none
  | name => name

/-- What follows the last point of the last name in a path, unless the point is the first
character. -/
def extension? (path : String) : Option String :=
  match (fileName? path).map (·.splitOn ".") with
  | none | some [] | some [_] | some ["", _] => none
  | some pieces => pieces.getLast?

/-- Whether a file of this path holds records. -/
def holdsRecords (path : String) : Bool :=
  match extension? path with
  | some "json" | some "jsonl" => true
  | _ => false

/-- The circuit in a file; there is no content when the file cannot be read. -/
def parse {α : Type} [Scalar α] (path : String) (content : Option ByteArray) :
    Outcome (Circuit α) :=
  if holdsRecords path then do
    let bytes ← Outcome.within (.openingCircuit path) <| Outcome.ofOption .file content
    Outcome.within (.readingCircuit path) (Circuit.ofRecords bytes)
  else do
    let text ← Outcome.within (.readingCircuit path) <|
      Outcome.ofOption .file (content.bind Text.Utf8.strict?)
    Outcome.within (.readingCircuit path) (Circuit.ofText text)

end Provenance.CircuitFile
