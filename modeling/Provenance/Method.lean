import Provenance.Failure
import Provenance.Scalar

/-!
# Methods

How the probability of a gate is computed. A method is written as a name, perhaps followed by a
colon and arguments; blank arguments count as none. The automatic method has no name.
-/

namespace Provenance

/-- A way to compute probabilities. -/
inductive Method (α : Type) where
  /-- The share of random worlds. -/
  | monteCarlo (samples : Nat)
  /-- The sum over all worlds. -/
  | possibleWorlds
  /-- A d-DNNF made by an outside compiler. -/
  | compilation (engine : String)
  /-- An estimate by an outside counter: within a factor `1 + epsilon`, but for a probability
  `delta`. -/
  | weightedCounting (delta epsilon : α)
  /-- A d-DNNF made along a tree decomposition. -/
  | treeDecomposition
  /-- The closed form for circuits that read each variable once. -/
  | independent
  /-- The closed form, or else a tree decomposition, or else an outside compiler. -/
  | automatic
  deriving Repr

namespace Method

variable {α : Type} [Scalar α]

/-- The compiler used when none is named. -/
def defaultEngine : String := "d4"

/-- The probability that an estimate misses its tolerance, one fifth. -/
def defaultDelta : α := Scalar.one / Scalar.ofNat 5

/-- The tolerance of an estimate, four fifths. -/
def defaultEpsilon : α := Scalar.ofNat 4 / Scalar.ofNat 5

/-- The text in front of the first `mark` and the text behind it, if there is one. -/
def splitOnce (mark : Char) (text : List Char) : List Char × Option (List Char) :=
  match text.dropWhile (· != mark) with
  | [] => (text, none)
  | _ :: rest => (text.takeWhile (· != mark), some rest)

/-- The number of samples of a Monte-Carlo estimate, at least one. -/
def readSamples (text : List Char) : Outcome Nat :=
  match Text.readNatural Text.wordLimit text with
  | .ok (samples + 1) => .ok (samples + 1)
  | _ => Outcome.fail (.sampleCount (String.ofList text))

/-- A parameter of an estimate; the default for an empty text and for zero. -/
def readParameter (default : α) (text : List Char) : Outcome α :=
  let text := Text.trim text
  if text.isEmpty then .ok default
  else
    Outcome.within (.weightParameter (String.ofList text)) <| do
      let numeral ← Outcome.ofOption (.floatSyntax false) (Text.readFloat? text)
      let value ← Outcome.ofOption (.floatSyntax false) (Scalar.ofNumeral? numeral)
      .ok (if Scalar.eq value Scalar.zero then default else value)

/-- The method of a text. -/
def ofText (text : String) : Outcome (Method α) :=
  let (name, arguments) := splitOnce ':' text.toList
  let arguments := arguments.filter fun arguments => !Text.allWhite arguments
  match String.ofList name with
  | "" => .ok .automatic
  | "monte-carlo" => (readSamples (Text.trim (arguments.getD []))).map .monteCarlo
  | "possible-worlds" => .ok .possibleWorlds
  | "compilation" =>
    let engine := arguments.map fun text => String.ofList (Text.trim text)
    .ok (.compilation (engine.getD defaultEngine))
  | "weightmc" => do
    let (first, second) := splitOnce ';' (arguments.getD [])
    let delta ← readParameter defaultDelta first
    let epsilon ← readParameter defaultEpsilon (second.getD [])
    .ok (.weightedCounting delta epsilon)
  | "tree-decomposition" => .ok .treeDecomposition
  | "independent" => .ok .independent
  | name => Outcome.fail (.wrongMethod name)

/-- The text of a method. -/
def text : Method α → String
  | .monteCarlo samples => "monte-carlo:" ++ toString samples
  | .possibleWorlds => "possible-worlds"
  | .compilation engine => "compilation:" ++ engine
  | .weightedCounting delta epsilon =>
    "weightmc:" ++ Scalar.text delta ++ ";" ++ Scalar.text epsilon
  | .treeDecomposition => "tree-decomposition"
  | .independent => "independent"
  | .automatic => ""

end Method

end Provenance
