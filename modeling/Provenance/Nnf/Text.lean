import Provenance.Nnf.Basic
import Provenance.Text.Line
import Provenance.Text.Scan

/-!
# Formulas as lines of nodes

The header is a line with the word `nnf`, the number of nodes, the number of edges and the number of
variables. Each further line is a node: `L` and a literal, `A` and its children, `O`, the opposing
variable or zero and its children; lists of children come after their length. Blank lines and lines
that start with `c` are passed over, but counted.
-/

namespace Provenance.NnfReading

/-- The lines that count, with their numbers. -/
def contentLines (text : String) : List (List Char × Nat) :=
  ((Text.lines text).zipIdx 1).filter fun (line, _) =>
    !Text.allWhite line && line.head? != some 'c'

/-- What the first line says; text behind the last number is passed over. -/
def scanHeader (line : List Char) : Option NnfHeader := do
  let rest ← Text.scanText "nnf".toList line
  let rest ← Text.scanBlanks rest
  let (nodes, rest) ← Text.unsigned rest
  let rest ← Text.scanBlanks rest
  let (edges, rest) ← Text.unsigned rest
  let rest ← Text.scanBlanks rest
  let (varCount, _) ← Text.unsigned rest
  some { varCount, nodes, edges }

/-- A child of the node at `position`: it must come before. -/
def child (position : Nat) (number : Int) : Outcome Nat := do
  Outcome.require (0 ≤ number && number < position) (.notTopological number position)
  .ok number.toNat

/-- The children of the node at `position`, given their count and then each. -/
def counted (position line : Nat) : List Int → Outcome (List Nat)
  | count :: numbers => do
    Outcome.require (0 ≤ count && numbers.length == count.toNat) (.childCount line)
    numbers.mapM (child position)
  | [] => Outcome.fail (.childCount line)

/-- The literal of a line. -/
def literalNode (varCount line : Nat) : List Int → Outcome NnfNode
  | [number] => do
    Outcome.require (number != 0) (.oneLiteral line)
    let literal := Literal.ofDimacs number
    Outcome.require (varCount == 0 || literal.index < varCount)
      (.impossibleLiteral number varCount)
    .ok (.literal literal)
  | _ => Outcome.fail (.oneLiteral line)

/-- The opposing variable that a number stands for; zero stands for none. -/
def opposing (line : Nat) (number : Int) : Outcome (Option Nat) := do
  Outcome.require (0 ≤ number) (.negativeVariable number line)
  .ok (if number = 0 then none else some (number.toNat - 1))

/-- The disjunction of a line. A wrong number of children goes before a wrong variable. -/
def orNode (position line : Nat) : List Int → Outcome NnfNode
  | first :: count :: numbers => do
    Outcome.require (0 ≤ count && numbers.length == count.toNat) (.childCount line)
    let disputed ← opposing line first
    let children ← counted position line (count :: numbers)
    .ok (.or disputed children)
  | _ => Outcome.fail (.childCount line)

/-- The node of a line, which comes to stand at `position`. -/
def readNode (varCount position : Nat) (numbered : List Char × Nat) : Outcome NnfNode := do
  let (text, line) := numbered
  match text with
  | letter :: rest =>
    Outcome.require ("LAO".toList.contains letter) (.nodeType line)
    let (numbers, rest) ← Outcome.ofOption (.integerList line) (Text.integers rest)
    Outcome.require (Text.allWhite rest) (.trailingGarbage line)
    match letter with
    | 'L' => literalNode varCount line numbers
    | 'A' => (counted position line numbers).map .and
    | _ => orNode position line numbers
  | [] => Outcome.fail (.nodeType line)

/-- The nodes of lines up to the first failure, the first one at `position`. -/
def readNodes (header : NnfHeader) :
    List (List Char × Nat) → (position : Nat) → List NnfNode × Outcome Unit
  | [], position =>
    ([], Outcome.require (position == header.nodes) (.nodeCount header.nodes position))
  | line :: rest, position =>
    if header.nodes ≤ position then ([], Outcome.fail (.tooManyNodes header.nodes line.2))
    else
      match readNode header.varCount position line with
      | .error failure => ([], .error failure)
      | .ok node =>
        let (nodes, ending) := readNodes header rest (position + 1)
        (node :: nodes, ending)

/-- Reads a text as far as possible; without a header there is nothing to read. -/
def ofText (text : String) : Outcome NnfReading :=
  match contentLines text with
  | [] => Outcome.fail .emptyNnf
  | (first, line) :: lines => do
    let header ← Outcome.ofOption (.nnfHeader line) (scanHeader (Text.trimEnd first))
    let (nodes, ending) := readNodes header lines 0
    .ok { header, nodes, ending }

end Provenance.NnfReading

namespace Provenance.Nnf

/-- The formula of a text. -/
def ofText (text : String) : Outcome Nnf := do (← NnfReading.ofText text).toNnf

end Provenance.Nnf
