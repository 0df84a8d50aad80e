import Provenance.CircuitFile
import Provenance.CommandLine.Help
import Provenance.CommandLine.Host
import Provenance.Decomposition.Text
import Provenance.Engine
import Provenance.Evaluator
import Provenance.Json.Printer

/-!
# Programs

Three programs read a circuit from a file: one evaluates a gate, one writes the circuit as a formula
in conjunctive normal form, one writes a tree decomposition. All settings are checked before
anything is read or written, and a result file is made before the circuit is read.
-/

namespace Provenance.CommandLine

variable {m : Type → Type} [Monad m]

/-- The circuit in a file. -/
def readCircuit (host : Host m) (path : String) : ExceptT Failure m (Circuit Float) := do
  let content ← host.read path
  Evaluator.pureOutcome (CircuitFile.parse path content)

/-- The gate with a name; `place` says for the failure where it was looked for. -/
def findGate (c : Circuit Float) (name place : String) : ExceptT Failure m Nat :=
  Evaluator.pureOutcome (Outcome.ofOption (.noGateNamed name place) (c.find? name))

/-- Makes the output file and writes the text, unless that failed. -/
def writeOutput (host : Host m) (path : String) (text : Outcome String) :
    ExceptT Failure m Unit := do
  inContext .openingOutput (demand .file (host.create path))
  inContext .writingOutput do
    let text ← Evaluator.pureOutcome text
    demand .file (host.write path text)

/-- The version of the programs. -/
def version : String := "0.1.0"

/-- Runs the program of a name on its settings, or says why there are none. -/
def runSettings {σ : Type} (host : Host m) (name : String) (i : Interface)
    (settings : Except Stop σ) (work : σ → ExceptT Failure m Unit) : m Ending :=
  let program : Program := ⟨name, version⟩
  match settings with
  | .ok settings => runWork host (work settings)
  | .error (.help long) => do
    host.print (i.helpText program long ++ "\n")
    pure .done
  | .error .version => do
    host.print (program.title ++ "\n")
    pure .done
  | .error .wrong => do
    host.report ("usage: " ++ i.usage program ++ "\n")
    pure .failed

/-- A positional argument. -/
def positional (given : Given) (position : Nat) : String := given.positionals.getD position ""

/-! ## Evaluation -/

namespace Evaluation

/-- The option that names the method. -/
def methodOption : OptionSpec :=
  let forms := "Evaluation method: independent, possible-worlds, monte-carlo:N, " ++
    "tree-decomposition, compilation[:d4|c2d|dsharp] or weightmc[:delta;epsilon]"
  { OptionSpec.valued "method" (some 'm') forms with
    details := some <| forms ++ ".\n\nBy default, tries independent evaluation, then a tree " ++
      "decomposition, then compilation with d4." }

/-- What the program takes. -/
def interface : Interface where
  about := "Computes the probability of a gate of a Boolean provenance circuit"
  positionals := [⟨"input",
    "Input circuit: JSON gate records, one per line, if the file ends with .json or .jsonl, the " ++
      "plain text format otherwise"⟩]
  options := [
    .defaulted "root" (some 'r') "0" "Identifier of the output gate",
    methodOption,
    .flag "shapley" none
      "Compute the expected Shapley value of inputs instead of the probability",
    .flag "banzhaf" none
      "Compute the expected Banzhaf value of inputs instead of the probability",
    .valued "variable" none "Only compute the Shapley or Banzhaf value of this input",
    .valued "json" (some 'j') "JSON output to the specified file",
    .valued "timeout" (some 'T') "Timeout, in milliseconds. Return code is 42 on timeout",
    .flag "debug" (some 'd') "Enable debug output"]
  conflicts := [("shapley", "banzhaf")]

/-- The settings of an evaluation. -/
structure Settings where
  input : String
  /-- The name of the gate to evaluate. -/
  root : String
  method : Method Float
  /-- The score to compute in place of the probability. -/
  score : Option DDnnf.Score
  /-- The only input whose score is computed. -/
  variableName : Option String
  /-- Where the result goes in place of the standard output. -/
  json : Option String
  budget : Budget

/-- The method of a text; none means the automatic one. -/
def methodOf : Option String → Except Stop (Method Float)
  | none => .ok .automatic
  | some text => (Method.ofText text).mapError fun _ => .wrong

/-- The budget for a time in milliseconds; none means no limit. -/
def budgetOf : Option String → Except Stop Budget
  | none => .ok .unlimited
  | some text =>
    match Text.readInteger? text.toList with
    | some milliseconds => .ok (.ofMilliseconds milliseconds)
    | none => .error .wrong

/-- The settings that the arguments give. -/
def settings (arguments : List String) : Except Stop Settings := do
  let given ← interface.read arguments
  let method ← methodOf (given.value? "method")
  let budget ← budgetOf (given.value? "timeout")
  .ok {
    input := positional given 0
    root := (interface.valueFor? given "root").getD ""
    method
    score := if given.has "banzhaf" then some .banzhaf
      else if given.has "shapley" then some .shapley else none
    variableName := given.value? "variable"
    json := given.value? "json"
    budget }

/-- The outside tools, none of which can be started from here. -/
def tools : Tools m Float where
  compile? := some fun _ engine => pure (.error (Engine.refuse engine))
  count? := some fun _ _ _ => pure (Outcome.fail (.toolFailed "failed to run weightmc"))

/-- A result: a probability, or scores by the names of their inputs. -/
inductive Result where
  | probability (p : Float)
  | scores (score : DDnnf.Score) (values : List (String × Float))

/-- The word for a score. -/
def scoreName : DDnnf.Score → String
  | .shapley => "shapley"
  | .banzhaf => "banzhaf"

/-- Computes the result. -/
def compute (s : Settings) (seed : UInt64) (c : Circuit Float) (root : Nat) :
    ExceptT Failure m Result := do
  let e : Evaluator m UInt64 Float := ⟨tools, s.budget, .ofWords DrawSource.mixWord, seed⟩
  match s.score, s.variableName with
  | none, _ => .probability <$> e.probability c root s.method
  | some score, some name => do
    let value ← e.score c root s.method score name
    pure (.scores score [(name, value)])
  | some score, none => .scores score <$> e.scores c root s.method score

/-- The lines of a result. -/
def lines (s : Settings) : Result → String
  | .probability p => "Probability of " ++ s.root ++ ": " ++ Scalar.text p ++ "\n"
  | .scores score values =>
    String.join <| values.map fun (name, value) =>
      scoreName score ++ " value of " ++ name ++ ": " ++ Scalar.text value ++ "\n"

/-- A double as a value of a result file; only a finite one is a number there. -/
def numberOf (x : Float) : Json :=
  if x.isFinite then .number (DecimalStyle.result.text x) else .null

/-- A result as a value for a result file. -/
def resultJson (s : Settings) (result : Result) : Json :=
  let head := [("root", .text s.root), ("method", .text s.method.text)]
  match result with
  | .probability p => .record (head ++ [("probability", numberOf p)])
  | .scores score values =>
    let entry (name : String) (value : Float) : Json :=
      .record [("variable", .text name), ("value", numberOf value)]
    .record (head ++ [("score", .text (scoreName score)),
      ("values", .array (values.map fun (name, value) => entry name value))])

/-- Writes a result where the settings say. -/
def deliver (host : Host m) (s : Settings) (result : Result) : ExceptT Failure m Unit :=
  match s.json with
  | some path => demand .file (host.write path ((resultJson s result).pretty 0))
  | none => host.print (lines s result)

/-- Evaluates a gate by the settings. -/
def work (host : Host m) (seed : UInt64) (s : Settings) : ExceptT Failure m Unit := do
  match s.json with
  | some path => demand .file (host.create path)
  | none => pure ()
  let c ← readCircuit host s.input
  let root ← findGate c s.root s.input
  inContext (.evaluating s.input) do
    let result ← compute s seed c root
    deliver host s result

/-- The program that evaluates a gate. -/
def run (host : Host m) (name : String) (seed : UInt64) (arguments : List String) : m Ending :=
  runSettings host name interface (settings arguments) (work host seed)

end Evaluation

/-! ## Formulas -/

namespace Encoding

/-- What the program takes. -/
def interface : Interface where
  about := "Converts a circuit to a CNF formula in dimacs format by Tseytin encoding"
  positionals := [⟨"input", "Input circuit"⟩, ⟨"output", "Output file"⟩]
  options := [
    .defaulted "root" (some 'r') "0" "Identifier of the gate forced to true",
    .flag "weighted" (some 'w') "Append the weights of inputs, for weighted model counters"]
  conflicts := []

/-- Writes the formula of a gate, with the weights of the inputs if they are wanted. -/
def work (host : Host m) (given : Given) : ExceptT Failure m Unit := do
  let c ← readCircuit host (positional given 0)
  let root ← findGate c ((interface.valueFor? given "root").getD "") "input"
  writeOutput host (positional given 1) (c.cnfText root (given.has "weighted"))

/-- The program that writes a circuit as a formula. -/
def run (host : Host m) (name : String) (arguments : List String) : m Ending :=
  runSettings host name interface (interface.read arguments) (work host)

end Encoding

/-! ## Decompositions -/

namespace Decomposing

/-- What the program takes. -/
def interface : Interface where
  about := "Computes a tree decomposition of a circuit"
  positionals := [⟨"input", "Input circuit"⟩, ⟨"output", "Output file"⟩]
  options := [
    .flag "dot" none "Write the decomposition in dot format",
    .valued "friendly" none "Normalize the decomposition for d-DNNF compilation of this gate"]
  conflicts := []

/-- Writes a decomposition of a circuit, made friendly for a gate if one is named. -/
def work (host : Host m) (given : Given) : ExceptT Failure m Unit := do
  let c ← readCircuit host (positional given 0)
  let d ← inContext .decomposing (Evaluator.pureOutcome (c.decompose Circuit.widthLimit))
  let d ← match given.value? "friendly" with
    | some name => do
      let gate ← findGate c name "input"
      pure (d.friendly gate)
    | none => pure d
  host.report ("Treewidth: " ++ toString d.width ++ "\n")
  writeOutput host (positional given 1) (.ok (if given.has "dot" then d.toDot else d.text))

/-- The program that writes a tree decomposition of a circuit. -/
def run (host : Host m) (name : String) (arguments : List String) : m Ending :=
  runSettings host name interface (interface.read arguments) (work host)

end Decomposing

end Provenance.CommandLine
