import Provenance.Failure
import Provenance.Text.Line

/-!
# Outside tools

Knowledge compilers are known by name. What a weighted model counter is asked for and what it
answers are computed in doubles: the number of solutions to aim for in a cell, and the count, which
is written as a mantissa and a power of two.
-/

namespace Provenance

/-- A knowledge compiler. -/
inductive Engine where
  | d4
  | c2d
  | dsharp
  deriving DecidableEq, Repr

namespace Engine

/-- All compilers. -/
def all : List Engine := [.d4, .c2d, .dsharp]

/-- The name of a compiler. -/
def name : Engine → String
  | .d4 => "d4"
  | .c2d => "c2d"
  | .dsharp => "dsharp"

/-- The compiler with a name. -/
def named (name : String) : Outcome Engine :=
  Outcome.ofOption (.unknownEngine name) (all.find? (·.name == name))

/-- What asking for a compiler comes to where no outside program can be started. -/
def refuse (name : String) : Failure :=
  match named name with
  | .ok engine => .of (.toolFailed ("failed to run " ++ engine.name))
  | .error failure => failure

end Engine

namespace WeightedCount

/-- Half of the pivot for an infinite tolerance, the exponential of three halves. -/
def pivotScale : Float := 4.4816890703380645

/-- How many solutions a cell should have for the tolerance `epsilon`, as a machine word. -/
def pivot (epsilon : Float) : Nat :=
  let ratio := 1.0 + 1.0 / epsilon
  (2 * (pivotScale * (ratio * ratio)).ceil.toUInt64.toNat) % Text.wordLimit

/-- A mantissa and a power of two; what comes behind is passed over. -/
def scanCount (word : List Char) : Option (Float × Float) :=
  match Text.scanNumber word with
  | .found mantissa rest =>
    match (Text.scanText "x2^".toList rest).map Text.scanNumber with
    | some (.found power _) => some (mantissa.toFloat, power.toFloat)
    | _ => none
  | _ => none

/-- The count on the last line that a counter prints: its fifth word. -/
def ofLine (line : String) : Outcome Float := do
  let word ← Outcome.ofOption (.noCount line) (Text.words line.toList)[4]?
  let quoted := Text.Quoted.quote (String.ofList word)
  let (mantissa, power) ← Outcome.ofOption
    (.malformedOutput ("weightmc count " ++ quoted)) (scanCount word)
  .ok (mantissa * power.exp2)

end WeightedCount

end Provenance
