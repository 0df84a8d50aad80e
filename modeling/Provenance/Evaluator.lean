import Provenance.Circuit.Categorical
import Provenance.Circuit.ReadOnce
import Provenance.Circuit.Sampling
import Provenance.Circuit.Worlds
import Provenance.Cnf.Tseytin
import Provenance.DDnnf.Compiled
import Provenance.DDnnf.Probability
import Provenance.DDnnf.Score
import Provenance.DDnnf.Smooth
import Provenance.Decomposition.Compile
import Provenance.Method

/-!
# Evaluation by a method

An evaluator runs a method with the outside tools it may need. The tools act in a monad of their
own, and nothing else does. Categorical variables are expanded first, except for the closed form,
which knows them.
-/

namespace Provenance

/-- Outside tools; either may be missing. -/
structure Tools (m : Type → Type) (α : Type) where
  /-- Compiles a formula, given as DIMACS text, with the compiler of a name. -/
  compile? : Option (String → String → m (Outcome String))
  /-- Estimates the weight of a formula, given as DIMACS text with weights, for the probability of
  missing the tolerance and the tolerance. -/
  count? : Option (String → α → α → m (Outcome α))

/-- What a method is run with. -/
structure Evaluator (m : Type → Type) (σ α : Type) where
  tools : Tools m α
  /-- Limits enumerations and sampling. -/
  budget : Budget
  source : DrawSource σ α
  /-- Where the draws start. -/
  seed : σ

/-- The circuit itself when it has no alternatives, or expanded. -/
def Circuit.withoutAlternatives {α : Type} [Scalar α] (c : Circuit α) : Circuit α :=
  if c.alternatives.isEmpty then c else c.expandAlternatives

namespace Evaluator

variable {m : Type → Type} [Monad m] {σ α : Type} [Scalar α]

/-- An outcome that no tool takes part in. -/
def pureOutcome {β : Type} (outcome : Outcome β) : ExceptT Failure m β := .mk (pure outcome)

/-- The d-DNNF that a compiler makes from the encoding of a gate. -/
def compiled (e : Evaluator m σ α) (c : Circuit α) (root : Nat) (engine : String) :
    ExceptT Failure m (DDnnf α) := do
  let compile ← pureOutcome (Outcome.ofOption .noCompiler e.tools.compile?)
  let formula ← pureOutcome (c.cnfText root false)
  let text ← ExceptT.mk (compile formula engine)
  pureOutcome (DDnnf.ofCompiled c text)

/-- The weight of the encoding of a gate, as a counter estimates it. -/
def counted (e : Evaluator m σ α) (c : Circuit α) (root : Nat) (delta epsilon : α) :
    ExceptT Failure m α := do
  let count ← pureOutcome (Outcome.ofOption .noCounter e.tools.count?)
  let formula ← pureOutcome (c.cnfText root true)
  ExceptT.mk (count formula delta epsilon)

/-- Whether a failure says that the circuit is too wide. -/
def isTooWide (failure : Failure) : Bool :=
  match failure.cause with
  | .treewidthExceeded .. => true
  | _ => false

/-- The d-DNNF of a gate by a method that makes one. The automatic method compiles along a tree
decomposition, and leaves it to an outside compiler when the circuit is too wide. -/
def ddnnf (e : Evaluator m σ α) (c : Circuit α) (root : Nat) (method : Method α) :
    ExceptT Failure m (DDnnf α) :=
  let c := c.withoutAlternatives
  match method with
  | .compilation engine => e.compiled c root engine
  | .treeDecomposition => pureOutcome (DDnnf.ofTree c root)
  | .automatic =>
    match DDnnf.ofTree c root with
    | .error failure =>
      if isTooWide failure then e.compiled c root Method.defaultEngine
      else pureOutcome (.error failure)
    | outcome => pureOutcome outcome
  | method => pureOutcome (Outcome.fail (.noCircuitForm method.text))

/-- The probability of a gate by way of a d-DNNF. -/
def viaDDnnf (e : Evaluator m σ α) (c : Circuit α) (root : Nat) (method : Method α) :
    ExceptT Failure m α := do
  let d ← e.ddnnf c root method
  pureOutcome d.probability.1

/-- The probability of a gate before it is clamped. -/
def rawProbability (e : Evaluator m σ α) (c : Circuit α) (root : Nat) (method : Method α) :
    ExceptT Failure m α :=
  match method with
  | .independent => pureOutcome (c.independentEvaluation root)
  | .automatic =>
    match c.independentEvaluation root with
    | .ok p => pure p
    | .error _ => e.viaDDnnf c root method
  | .monteCarlo samples =>
    pureOutcome (c.withoutAlternatives.monteCarlo root samples e.budget e.source e.seed)
  | .possibleWorlds => pureOutcome (c.withoutAlternatives.possibleWorlds root e.budget)
  | .weightedCounting delta epsilon => e.counted c.withoutAlternatives root delta epsilon
  | .compilation _ | .treeDecomposition => e.viaDDnnf c root method

/-- The probability of a gate, between zero and one. -/
def probability (e : Evaluator m σ α) (c : Circuit α) (root : Nat) (method : Method α) :
    ExceptT Failure m α := do
  let p ← e.rawProbability c root method
  pure (Scalar.clamp Scalar.zero Scalar.one p)

/-! ## Scores -/

/-- The d-DNNF of a gate made ready for a score: smooth, and for Shapley values with binary
conjunctions. -/
def scoringDDnnf (e : Evaluator m σ α) (c : Circuit α) (root : Nat) (method : Method α)
    (score : DDnnf.Score) : ExceptT Failure m (DDnnf α) := do
  let d ← e.ddnnf c root method
  let d := d.smooth
  match score with
  | .banzhaf => pure d
  | .shapley => pureOutcome (d.binary .and)

/-- The score of a named input in a d-DNNF; an input that is not there has no influence. -/
def namedScore (d : DDnnf α) (score : DDnnf.Score) (name : String) : Outcome α :=
  match d.circuit.find? name with
  | some gate => d.score score gate
  | none => .ok Scalar.zero

/-- The score of a named input for a gate; zero for what is no input. -/
def score (e : Evaluator m σ α) (c : Circuit α) (root : Nat) (method : Method α)
    (score : DDnnf.Score) (name : String) : ExceptT Failure m α :=
  if (c.find? name).any (c.kind · == .input) then do
    let d ← e.scoringDDnnf c root method score
    pureOutcome (namedScore d score name)
  else pure Scalar.zero

/-- The scores of all named inputs for a gate. -/
def scores (e : Evaluator m σ α) (c : Circuit α) (root : Nat) (method : Method α)
    (score : DDnnf.Score) : ExceptT Failure m (List (String × α)) := do
  let d ← e.scoringDDnnf c root method score
  pureOutcome <| (c.inputs.toList.filterMap c.name?).mapM fun name => do
    let value ← namedScore d score name
    .ok (name, value)

end Evaluator

end Provenance
