import Provenance.Record.Basic
import Provenance.Text.Line

/-!
# Circuits as plain text

A number of gates, then one line per gate with its kind, and for inputs a probability, for
alternatives a weight and a key, then one line per wire with the numbers of a gate and of its
child. Gates are named by their numbers. Blank lines are passed over, but counted.
-/

namespace Provenance.Circuit

variable {α : Type} [Scalar α]

/-- The probability of an input whose line gives none, one in a thousand. -/
def defaultProbability : Numeral := .decimal false 1 (-3)

/-- The lines of a text that are not blank, without blanks around them, with their numbers. -/
def contentLines (text : String) : List (List Char × Nat) :=
  (((Text.lines text).map Text.trim).zipIdx 1).filter fun (line, _) => !line.isEmpty

/-- A number behind blanks, if there is one; nothing if a number is broken off. -/
def scanOptionalNumber (text : List Char) : Text.Scanned (Option Numeral) :=
  match Text.scanBlanks text with
  | none => some (none, text)
  | some after =>
    match Text.scanNumber after with
    | .found numeral rest => some (some numeral, rest)
    | .absent => some (none, text)
    | .broken => none

/-- An unsigned word behind blanks, if there is one. -/
def scanOptionalWord (text : List Char) : Option Nat × List Char :=
  match (Text.scanBlanks text).bind Text.unsigned with
  | some (value, rest) => (some value, rest)
  | none => (none, text)

/-- What the line of a gate says: its kind, a number and a word behind it. -/
def scanGateLine (line : List Char) : Option (Kind × Option Numeral × Option Nat) := do
  let (letters, rest) ← Text.scanLetters line
  let kind ← Kind.ofWord? (String.ofList letters)
  let (number, rest) ← scanOptionalNumber rest
  let (word, rest) := scanOptionalWord rest
  let _ ← Text.endOfLine rest
  some (kind, number, word)

/-- What the line of a wire says: the numbers of a gate and of its child. -/
def scanWireLine (line : List Char) : Option (Nat × Nat) := do
  let (source, rest) ← Text.unsigned line
  let rest ← Text.scanBlanks rest
  let (target, rest) ← Text.unsigned rest
  let _ ← Text.endOfLine rest
  some (source, target)

/-- Adds the gate of a line. -/
def addGateLine (c : Circuit α) (index : Nat) (line : List Char) (number : Nat) :
    Outcome (Circuit α) := do
  let wrong : Cause := .wrongGateLine (String.ofList line) number
  let id := toString index
  let (kind, numeral, word) ← Outcome.ofOption wrong (scanGateLine line)
  let (gate, c) := c.define id kind
  match kind, numeral, word with
  | .input, numeral, none =>
    let p ← requireProbability id (numeral.getD defaultProbability)
    .ok (c.setProb gate p)
  | .alternative, some numeral, some key =>
    Outcome.within (.largeKey number) <|
      Outcome.require (key < Record.keyLimit) (.integer .tooLarge)
    let p ← requireProbability id numeral
    .ok ((c.setProb gate p).setKey gate key)
  | .and, none, none | .or, none, none | .not, none, none => .ok c
  | _, _, _ => Outcome.fail wrong

/-- Adds the gates of `remaining` lines, the first with number `index`; what follows is left. -/
def addGateLines (count : Nat) :
    (remaining : Nat) → (index : Nat) → List (List Char × Nat) → Circuit α →
      Outcome (Circuit α × List (List Char × Nat))
  | 0, _, lines, c => .ok (c, lines)
  | _ + 1, index, [], _ => Outcome.fail (.tooFewGates count index)
  | remaining + 1, index, (line, number) :: lines, c => do
    let c ← c.addGateLine index line number
    addGateLines count remaining (index + 1) lines c

/-- Adds the wire of a line between gates below `count`. -/
def addWireLine (count : Nat) (c : Circuit α) (numbered : List Char × Nat) :
    Outcome (Circuit α) := do
  let (line, number) := numbered
  let (source, target) ← Outcome.ofOption (.wrongWireLine number) (scanWireLine line)
  Outcome.require (source < count && target < count) (.wireToUnknownGate source target number)
  .ok (c.addWire source target)

/-- The circuit of a text. -/
def ofText (text : String) : Outcome (Circuit α) := do
  match contentLines text with
  | [] => Outcome.fail .emptyCircuitFile
  | (first, _) :: lines =>
    let count ← Outcome.within (.gateCount (String.ofList first)) <|
      (Text.readNatural Text.wordLimit first).mapError fun defect => .of (.integer defect)
    let (c, lines) ← addGateLines count count 0 lines empty
    let c ← lines.foldlM (addWireLine count) c
    c.checkAcyclic
    .ok c

end Provenance.Circuit
