import Provenance.Nnf.Decision
import Provenance.Text.Scan

/-!
# Decision graphs as text

A line starts with `c`, with the letter of a kind or with a number. After `c` may come the number of
variables, and what follows is passed over. After a letter comes the number of a new node, after a
number, which is the source of an edge, its target and its literals; both end with a zero. Nodes
come before their edges, and a number given twice means the later node.
-/

namespace Provenance.DecisionGraph

/-- A graph that is read, with the nodes by the numbers the text gives them. -/
structure Reading where
  graph : DecisionGraph
  nodes : Std.TreeMap Int Nat

/-- Takes a remark: all up to the end of the line, and the number of variables if it is given. -/
def readRemark (line : Nat) (rest : List Char) (state : Reading) :
    Outcome (List Char × Reading) := do
  let after := rest.dropWhile (· != '\n')
  match Text.scanText " nvars ".toList rest with
  | none => .ok (after, state)
  | some text =>
    let (numbers, _) ← Outcome.ofOption (.variableCountText line) (Text.integers text)
    match numbers with
    | [number] =>
      Outcome.require (0 ≤ number) (.oneInteger line)
      .ok (after, { state with graph := { state.graph with varCount := number.toNat } })
    | _ => Outcome.fail (.oneInteger line)

/-- The kind that a letter stands for. -/
def kindOf? : Char → Option DecisionKind
  | 'a' => some .and
  | 'o' => some .or
  | 't' => some .truth
  | 'f' => some .falsity
  | _ => none

/-- Takes a node of a kind. -/
def readNode (line : Nat) (kind : DecisionKind) (rest : List Char) (state : Reading) :
    Outcome (List Char × Reading) := do
  let rest ← Outcome.ofOption (.spaceAfterType line) (Text.scanBlanks rest)
  let (numbers, rest) ← Outcome.ofOption (.integersAfterType line) (Text.integers rest)
  match numbers with
  | [number, closing] =>
    Outcome.require (closing == 0) (.noFinalZero line)
    Outcome.require (0 < number) (.nodeNumber line)
    .ok (rest,
      ⟨state.graph.addNode kind, state.nodes.insert number state.graph.size⟩)
  | _ => Outcome.fail (.twoArguments line)

/-- Takes an edge. -/
def readEdge (line : Nat) (text : List Char) (state : Reading) :
    Outcome (List Char × Reading) := do
  let (numbers, rest) ← Outcome.ofOption (.integerList line) (Text.integers text)
  match numbers with
  | first :: second :: third :: more =>
    let labels := third :: more
    Outcome.require (labels.getLast? == some 0) (.noFinalZero line)
    let source ← Outcome.ofOption (.unknownNode first line) state.nodes[first]?
    let target ← Outcome.ofOption (.unknownNode second line) state.nodes[second]?
    let literals := labels.dropLast.map Literal.ofDimacs
    .ok (rest, { state with graph := state.graph.addEdge source target literals })
  | _ => Outcome.fail (.threeArguments line)

/-- Takes what stands before the end of a line. -/
def readLine (line : Nat) (text : List Char) (state : Reading) : Outcome (List Char × Reading) :=
  match text with
  | 'c' :: rest => readRemark line rest state
  | letter :: rest =>
    match kindOf? letter with
    | some kind => readNode line kind rest state
    | none => readEdge line text state
  | [] => readEdge line text state

/-- Takes all lines, the first with number `line`. Each has a character, so the length of the text
bounds their number. -/
def readLines : (remaining : Nat) → (line : Nat) → List Char → Reading → Outcome DecisionGraph
  | 0, _, _, state => .ok state.graph
  | _ + 1, _, [], state => .ok state.graph
  | remaining + 1, line, text, state => do
    let (rest, state) ← readLine line text state
    let (_, rest) ← Outcome.ofOption (.lineEnd line) (Text.endOfLine rest)
    readLines remaining (line + 1) rest state

/-- The decision graph of a text. -/
def ofText (text : String) : Outcome DecisionGraph :=
  let characters := text.toList
  readLines (characters.length + 1) 1 characters ⟨.empty, ∅⟩

end Provenance.DecisionGraph
