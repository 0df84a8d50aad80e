import Provenance.DDnnf.Basic
import Provenance.Nnf.DecisionText
import Provenance.Nnf.Text

/-!
# Reading compiled formulas back

A knowledge compiler turns the encoding of a circuit as a formula into a d-DNNF over the variables
of the encoding. Variables of inputs become inputs again, with their names and probabilities. The
variables of other gates are fixed by the inputs, so their literals become true. A text that is no
formula says that there is no model.
-/

namespace Provenance

/-- A circuit over the inputs of a source, made from the nodes of a formula. -/
structure Projection (α : Type) where
  /-- The circuit so far. -/
  target : Circuit α
  /-- The gate of each node. -/
  gates : Array Nat
  /-- The gates made for inputs of the source. -/
  inputs : Std.TreeMap Nat Nat
  /-- The gates made for their negations. -/
  negations : Std.TreeMap Nat Nat
  /-- The gate made for literals that are fixed by the inputs. -/
  truth : Option Nat

namespace Projection

variable {α : Type} [Scalar α]

/-- The projection of no nodes. -/
def empty : Projection α := ⟨Circuit.empty, #[], ∅, ∅, none⟩

/-- The gate of an input. -/
def input (source : Circuit α) (p : Projection α) (gate : Nat) : Nat × Projection α :=
  match p.inputs[gate]? with
  | some made => (made, p)
  | none =>
    let (made, target) := p.target.addInput (source.prob gate)
    let target := match source.name? gate with
      | some name => target.setName made name
      | none => target
    (made, { p with target, inputs := p.inputs.insert gate made })

/-- The gate of the negation of an input. -/
def negation (source : Circuit α) (p : Projection α) (gate : Nat) : Nat × Projection α :=
  let (positive, p) := p.input source gate
  match p.negations[gate]? with
  | some made => (made, p)
  | none =>
    let (made, target) := p.target.addNode .not [positive]
    (made, { p with target, negations := p.negations.insert gate made })

/-- The gate that is always true. -/
def constant (p : Projection α) : Nat × Projection α :=
  match p.truth with
  | some made => (made, p)
  | none =>
    let (made, target) := p.target.addGate .and
    (made, { p with target, truth := some made })

/-- The gate of a literal. -/
def literal (source : Circuit α) (p : Projection α) (l : Literal) :
    Outcome (Nat × Projection α) := do
  Outcome.require (l.index < source.size) (.literalWithoutGate l.toDimacs)
  .ok <|
    if source.kind l.index = .input then
      if l.positive then p.input source l.index else p.negation source l.index
    else p.constant

/-- The gate of a conjunction or a disjunction of nodes. -/
def connective (p : Projection α) (kind : Kind) (children : List Nat) :
    Outcome (Nat × Projection α) := do
  let gates ← children.mapM fun child => Outcome.ofOption (.noNode child) p.gates[child]?
  let (made, target) := p.target.addNode kind gates
  .ok (made, { p with target })

/-- Adds a node. -/
def addNode (source : Circuit α) (p : Projection α) (node : NnfNode) : Outcome (Projection α) := do
  let (made, p) ← match node with
    | .literal l => p.literal source l
    | .and children => p.connective .and children
    | .or _ children => p.connective .or children
  .ok { p with gates := p.gates.push made }

/-- Checks that a formula may be over the variables of the source; zero means that their number is
not known. -/
def checkHeader (source : Circuit α) (header : NnfHeader) : Outcome Unit :=
  Outcome.require (header.varCount == 0 || header.varCount == source.size)
    (.variableCount header.varCount source.size)

end Projection

namespace DDnnf

variable {α : Type} [Scalar α]

/-- The d-DNNF of what was read of a formula. A node that cannot be taken goes before the failure
that ended the reading. -/
def ofReading (source : Circuit α) (reading : NnfReading) : Outcome (DDnnf α) := do
  Projection.checkHeader source reading.header
  let p ← reading.nodes.foldlM (Projection.addNode source) Projection.empty
  reading.ending
  let root ← Outcome.ofOption .emptyFormula p.gates.back?
  .ok (ofCircuit p.target root)

/-- The two ways to write a formula. -/
inductive Dialect where
  | nnf
  | decisions

/-- How the text of a compiler is written, by its first line that is no remark; none when it is no
formula. -/
def dialectOf (text : String) : Option Dialect :=
  let lines := (Text.lines text).map Text.trim
  match lines.find? fun line => !line.isEmpty && line.head? != some 'c' with
  | some ('n' :: 'n' :: 'f' :: _) => some .nnf
  | some (letter :: _) => if "oatf".toList.contains letter then some .decisions else none
  | _ => none

/-- What was read of a text. -/
def readFormula (text : String) : Dialect → Outcome NnfReading
  | .nnf => NnfReading.ofText text
  | .decisions => do
    let graph ← DecisionGraph.ofText text
    let formula ← graph.toNnf
    .ok { header := formula.header, nodes := formula.nodes, ending := .ok () }

/-- The d-DNNF that a compiler wrote for the encoding of `source`. -/
def ofCompiled (source : Circuit α) (text : String) : Outcome (DDnnf α) :=
  match dialectOf text with
  | none => .ok falsum
  | some dialect =>
    ((readFormula text dialect).bind (ofReading source)).mapError fun failure =>
      Failure.of (.malformedOutput failure.message)

end DDnnf

end Provenance
