import Provenance.Text.Quoted
import Provenance.Text.Scan

/-!
# Failures

A failure is a cause together with the contexts it passed through, the outermost first. Causes are
told apart by what went wrong, so a caller can choose another way to answer; their wording is in
`Cause.message`, and a failure reads as its contexts and its cause joined by colons. The texts of
the two causes that lie outside this library, a malformed JSON text and a refusing file system,
are empty.
-/

namespace Provenance

open Text (IntegerDefect)

/-- Why an algorithm cannot handle a gate. -/
inductive Defect where
  /-- A negation without exactly one child. -/
  | negationArity
  /-- An alternative without key. -/
  | missingKey
  /-- A child whose table is not there yet: it comes later in the order, or it is missing. -/
  | childOutOfOrder
  deriving DecidableEq, Repr

/-- The wording of a defect. -/
def Defect.message : Defect → String
  | .negationArity => "NOT gate must have exactly one child"
  | .missingKey => "multivalued input without key"
  | .childOutOfOrder => "child evaluated out of order"

/-- What an interruptible computation repeats. -/
inductive Iteration where
  | worlds
  | samples
  deriving DecidableEq, Repr

/-- The name of the iterations. -/
def Iteration.name : Iteration → String
  | .worlds => "worlds"
  | .samples => "samples"

/-- What went wrong. -/
inductive Cause where
  /-- A variable is read at two places, so the closed form does not hold. -/
  | notIndependent (gate : Nat)
  /-- An alternative where only Boolean inputs are handled. -/
  | multivalued (gate : Nat)
  /-- Too many inputs to enumerate the worlds. -/
  | tooManyInputs (count : Nat)
  /-- A gate that is mentioned and never defined. -/
  | undetermined (gate : Nat)
  /-- A gate on a cycle of wires. -/
  | cyclic (gate : Nat)
  /-- A gate that an algorithm cannot handle. -/
  | unsupported (gate : Nat) (defect : Defect)
  /-- A compiled formula or a count that cannot be read. -/
  | malformedOutput (message : String)
  /-- A tool that failed. -/
  | toolFailed (message : String)
  /-- A knowledge compiler nobody knows. -/
  | unknownEngine (name : String)
  /-- A computation stopped at its limit. -/
  | interrupted (done : Nat) (unit : Iteration)
  /-- A bag wider than allowed. -/
  | treewidthExceeded (width max : Nat)
  /-- A JSON text that is no record. -/
  | json
  /-- A file that cannot be read or written. -/
  | file
  -- records
  | definedTwice (id : String)
  | inputWithChildren (id : String)
  | negationWithoutOneChild (id : String)
  | untypedGate (id : String)
  | missingProbability (id : String)
  | missingKey (id : String)
  | probabilityOutOfRange (probability id : String)
  -- circuits as text
  | emptyCircuitFile
  | integer (defect : IntegerDefect)
  | tooFewGates (expected found : Nat)
  | wrongGateLine (text : String) (line : Nat)
  | wrongWireLine (line : Nat)
  | wireToUnknownGate (source target line : Nat)
  | unknownGateType (name : String)
  -- sampling
  | noSamples
  | withoutValue (gate : Nat)
  -- tree decompositions
  | trailingData (text : String)
  | truncatedDecomposition (expected : String)
  | bagOutOfSequence (expected found : Nat)
  | unknownParent (parent bag : Nat)
  | severalRoots
  | noRoot
  | disconnectedBag (bag : Nat)
  | bagNotBelowRoot (bag : Nat)
  | rootCount (count : Nat)
  | uncoveredWire (source target : Nat)
  -- compilation along a decomposition
  | noSuchGate (gate : Nat)
  | noResponsibleBag (input : Nat)
  | wideLeaf (bag : Nat)
  | manyChildren (bag : Nat)
  | notBinarizable (kind : String)
  -- formulas written by compilers
  | emptyNnf
  | nnfHeader (line : Nat)
  | tooManyNodes (count line : Nat)
  | nodeType (line : Nat)
  | integerList (line : Nat)
  | trailingGarbage (line : Nat)
  | oneLiteral (line : Nat)
  | impossibleLiteral (literal : Int) (varCount : Nat)
  | childCount (line : Nat)
  | notTopological (child : Int) (node : Nat)
  | negativeVariable (number : Int) (line : Nat)
  | nodeCount (expected found : Nat)
  | variableCountText (line : Nat)
  | oneInteger (line : Nat)
  | spaceAfterType (line : Nat)
  | integersAfterType (line : Nat)
  | twoArguments (line : Nat)
  | noFinalZero (line : Nat)
  | nodeNumber (line : Nat)
  | threeArguments (line : Nat)
  | unknownNode (number : Int) (line : Nat)
  | lineEnd (line : Nat)
  | sourceCount (count : Nat)
  | decisionCycle (node : Nat)
  | foreignLiteral (literal : Int) (varCount : Nat)
  | trueWithDescendants
  | falseWithDescendants
  | rootNotLast
  | variableCount (found gates : Nat)
  | literalWithoutGate (literal : Int)
  | noNode (node : Nat)
  | emptyFormula
  -- methods and tools
  | sampleCount (text : String)
  | floatSyntax (empty : Bool)
  | wrongMethod (name : String)
  | noCompiler
  | noCounter
  | noCircuitForm (method : String)
  | noCount (text : String)
  | noGateNamed (name : String) (place : String)
  | arguments
  deriving DecidableEq, Repr

/-- The wording of a cause. -/
def Cause.message : Cause → String
  | .notIndependent gate => s!"Not an independent circuit: gate {gate} is used twice"
  | .multivalued gate => s!"Multivalued input {gate} must be rewritten before this operation"
  | .tooManyInputs count => s!"Too many inputs ({count}) to enumerate possible worlds"
  | .undetermined gate => s!"Gate {gate} is undetermined"
  | .cyclic gate => s!"Gate {gate} is on a cycle of wires"
  | .unsupported gate defect => s!"Unsupported gate {gate}: " ++ defect.message
  | .malformedOutput message => "Unreadable d-DNNF: " ++ message
  | .toolFailed message => message
  | .unknownEngine name => s!"Unknown compiler '{name}'"
  | .interrupted done unit => s!"Interrupted after {done} " ++ unit.name
  | .treewidthExceeded width max => s!"Treewidth greater than {max} (found a bag of width {width})"
  | .json => ""
  | .file => ""
  | .definedTwice id => s!"gate {id} is defined twice"
  | .inputWithChildren id => s!"input {id} may not have children"
  | .negationWithoutOneChild id => s!"NOT gate {id} must have exactly one child"
  | .untypedGate id => s!"gate {id} has no type"
  | .missingProbability id => s!"multivalued input {id} has no probability"
  | .missingKey id => s!"multivalued input {id} has no key"
  | .probabilityOutOfRange probability id =>
    s!"probability {probability} of gate {id} is not in [0, 1]"
  | .emptyCircuitFile => "empty circuit file"
  | .integer defect => defect.message
  | .tooFewGates expected found => s!"expected {expected} gates, found {found}"
  | .wrongGateLine text line => s!"Wrong line type: {text} line {line}"
  | .wrongWireLine line => s!"expected a wire line {line}"
  | .wireToUnknownGate source target line =>
    s!"wire {source} -> {target} to unknown gate line {line}"
  | .unknownGateType name => s!"Unknown gate type {name}"
  | .noSamples => "Monte-Carlo needs at least one sample"
  | .withoutValue gate => s!"independent evaluation of {gate} ended without a value"
  | .trailingData text =>
    "unexpected trailing data in tree decomposition: " ++ Text.Quoted.quote text
  | .truncatedDecomposition expected => s!"tree decomposition truncated, expected {expected}"
  | .bagOutOfSequence expected found =>
    s!"bag ids must be sequential, expected {expected} got {found}"
  | .unknownParent parent bag => s!"parent {parent} of bag {bag} does not exist"
  | .severalRoots => "several bags are their own parent"
  | .noRoot => "no root in tree decomposition"
  | .disconnectedBag bag => s!"bag {bag} is not connected to the root of the decomposition"
  | .bagNotBelowRoot bag => s!"bag {bag} is not below the root"
  | .rootCount count => s!"{count} bags are their own parent"
  | .uncoveredWire source target => s!"no bag contains wire {source} -> {target}"
  | .noSuchGate gate => s!"no gate {gate} in circuit"
  | .noResponsibleBag input => s!"no leaf bag responsible for input {input}"
  | .wideLeaf bag => s!"leaf bag Bag({bag}) has several gates"
  | .manyChildren bag => s!"bag Bag({bag}) of a friendly decomposition has more than 2 children"
  | .notBinarizable kind => s!"only AND and OR gates can be made binary, not {kind}"
  | .emptyNnf => "empty NNF file"
  | .nnfHeader line => s!"expected nnf header line {line}"
  | .tooManyNodes count line => s!"more than {count} nodes, line {line}"
  | .nodeType line => s!"expected node type at line {line}"
  | .integerList line => s!"expected list of ints line {line}"
  | .trailingGarbage line => s!"trailing garbage line {line}"
  | .oneLiteral line => s!"expected one literal line {line}"
  | .impossibleLiteral literal varCount =>
    s!"Literal {literal} impossible with only {varCount} variables"
  | .childCount line => s!"wrong number of children line {line}"
  | .notTopological child node => s!"File is not in topological order: {child} >= {node}"
  | .negativeVariable number line => s!"negative opposing variable {number} line {line}"
  | .nodeCount expected found => s!"expected {expected} nodes, found {found}"
  | .variableCountText line => s!"expected number of variables at line {line}"
  | .oneInteger line => s!"expected 1 integer line {line}"
  | .spaceAfterType line => s!"expected space after node type at line {line}"
  | .integersAfterType line => s!"expected list of ints after node type at line {line}"
  | .twoArguments line => s!"expected 2 arguments line {line}"
  | .noFinalZero line => s!"line {line} does not end with 0"
  | .nodeNumber line => s!"invalid node number line {line}"
  | .threeArguments line => s!"expected at least 3 arguments line {line}"
  | .unknownNode number line => s!"unexpected index {number} line {line}"
  | .lineEnd line => s!"expected end of line after 0 line {line}"
  | .sourceCount count => s!"expected one root node, found {count}"
  | .decisionCycle node => s!"cycle on node NodeIndex({node})"
  | .foreignLiteral literal varCount =>
    s!"literal {literal} may not appear in d4 output for formula with {varCount} variables"
  | .trueWithDescendants => "true node may not have descendents"
  | .falseWithDescendants => "false node may not have descendents"
  | .rootNotLast => "root of d4 output is not last in topological order"
  | .variableCount found gates => s!"wrong number of variables: {found} vs {gates}"
  | .literalWithoutGate literal => s!"literal {literal} does not match a gate"
  | .noNode node => s!"no node {node}"
  | .emptyFormula => "empty d-DNNF"
  | .sampleCount text => s!"Invalid number of samples: '{text}'"
  | .floatSyntax true => "cannot parse float from empty string"
  | .floatSyntax false => "invalid float literal"
  | .wrongMethod name => s!"Wrong method '{name}' for probability evaluation"
  | .noCompiler => "no knowledge compiler available"
  | .noCounter => "no weighted model counter available"
  | .noCircuitForm method => s!"Method '{method}' does not build a d-DNNF"
  | .noCount text => "no count in weightmc output " ++ Text.Quoted.quote text
  | .noGateNamed name place => s!"no gate {name} in {place}"
  | .arguments => "invalid arguments"

/-- What was being done when a failure passed. -/
inductive Context where
  | readingCircuit (path : String)
  | openingCircuit (path : String)
  | readingRecords
  | parsingRecord (line : Nat)
  | atLine (line : Nat)
  | gateCount (text : String)
  | largeKey (line : Nat)
  | weightParameter (text : String)
  | evaluating (path : String)
  | decomposing
  | openingOutput
  | writingOutput
  deriving DecidableEq, Repr

/-- The wording of a context. -/
def Context.message : Context → String
  | .readingCircuit path => s!"reading circuit {path}"
  | .openingCircuit path => s!"opening circuit {path}"
  | .readingRecords => "reading gate records"
  | .parsingRecord line => s!"parsing gate record line {line}"
  | .atLine line => s!"line {line}"
  | .gateCount text => "expected number of gates, found " ++ Text.Quoted.quote text
  | .largeKey line => s!"key too large line {line}"
  | .weightParameter text => s!"Invalid weightmc parameter '{text}'"
  | .evaluating path => s!"evaluating {path}"
  | .decomposing => "decomposing circuit"
  | .openingOutput => "failed to open ouput for writing"
  | .writingOutput => "writing output"

/-- A cause and the contexts it passed through, the outermost first. -/
structure Failure where
  cause : Cause
  contexts : List Context
  deriving DecidableEq, Repr

namespace Failure

/-- A failure outside any context. -/
def of (cause : Cause) : Failure := ⟨cause, []⟩

instance : Coe Cause Failure := ⟨of⟩

/-- The failure inside one more context. -/
def inContext (context : Context) (failure : Failure) : Failure :=
  { failure with contexts := context :: failure.contexts }

/-- Whether the wording of the cause lies outside this library. -/
def isForeign (failure : Failure) : Bool := failure.cause == .json || failure.cause == .file

/-- The contexts and the cause, joined by colons. -/
def message (failure : Failure) : String :=
  let contexts := failure.contexts.map Context.message
  ": ".intercalate (if failure.isForeign then contexts else contexts ++ [failure.cause.message])

end Failure

/-- An outcome or a failure. -/
abbrev Outcome (β : Type) := Except Failure β

namespace Outcome

variable {β : Type}

/-- The outcome of a cause. -/
def fail (cause : Cause) : Outcome β := .error (.of cause)

/-- Fails with `cause` unless the condition holds. -/
def require (condition : Bool) (cause : Cause) : Outcome Unit :=
  if condition then .ok () else fail cause

/-- Puts a failure into a context. -/
def within (context : Context) : Outcome β → Outcome β := Except.mapError (·.inContext context)

/-- The value of an option, or a failure. -/
def ofOption (cause : Cause) : Option β → Outcome β
  | some value => .ok value
  | none => fail cause

end Outcome

end Provenance
