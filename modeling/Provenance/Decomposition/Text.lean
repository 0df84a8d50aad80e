import Provenance.Decomposition.Basic
import Provenance.Dot
import Provenance.Text.Scan

/-!
# Decompositions as text

The width, the number of bags, then for each bag its number, how many gates it has, the gates, the
number of its parent, how many children it has and their numbers. The printer writes one bag a line;
the reader takes any layout of blanks and line ends, and makes the lists of children anew from the
parents.
-/

namespace Provenance.Decomposition

/-! ## Printing -/

/-- The line of a bag. -/
def bagLine (d : Decomposition) (b : Nat) : String :=
  let gates := (d.bag b).toList
  let children := d.children b
  let numbers := [b, gates.length] ++ gates ++ [d.parent b, children.length] ++ children
  " ".intercalate (numbers.map toString) ++ "\n"

/-- The text of a decomposition. -/
def text (d : Decomposition) : String :=
  toString d.width ++ "\n" ++ toString d.size ++ "\n" ++
    String.join ((List.range d.size).map d.bagLine)

/-- The drawing of a decomposition. -/
def toDot (d : Decomposition) : String :=
  let bags := List.range d.size
  let label (b : Nat) : String :=
    toString b ++ ": " ++ " ".intercalate ((d.bag b).toList.map toString)
  Dot.render (bags.map label) (bags.flatMap fun b => (d.children b).map (b, ·))

/-! ## Reading -/

/-- Takes one number, called `what` in the failure. -/
def takeNumber (what : String) : List Nat → Outcome (Nat × List Nat)
  | [] => Outcome.fail (.truncatedDecomposition what)
  | number :: rest => .ok (number, rest)

/-- Takes `count` numbers. -/
def takeNumbers (what : String) : (count : Nat) → List Nat → Outcome (List Nat × List Nat)
  | 0, numbers => .ok ([], numbers)
  | count + 1, numbers => do
    let (number, numbers) ← takeNumber what numbers
    let (more, numbers) ← takeNumbers what count numbers
    .ok (number :: more, numbers)

/-- Takes the gates and the parent of the bag `b`; its children are passed over. -/
def takeBag (b : Nat) (numbers : List Nat) : Outcome ((GateSet × Nat) × List Nat) := do
  let (id, numbers) ← takeNumber "bag id" numbers
  Outcome.require (id == b) (.bagOutOfSequence b id)
  let (size, numbers) ← takeNumber "bag size" numbers
  let (gates, numbers) ← takeNumbers "gate" size numbers
  let (parent, numbers) ← takeNumber "parent" numbers
  let (count, numbers) ← takeNumber "number of children" numbers
  let (_, numbers) ← takeNumbers "child" count numbers
  .ok ((.ofList gates, parent), numbers)

/-- Takes `count` bags, the first with number `b`. -/
def takeBags : (count : Nat) → (b : Nat) → List Nat → Outcome (List (GateSet × Nat))
  | 0, _, _ => .ok []
  | count + 1, b, numbers => do
    let (bag, numbers) ← takeBag b numbers
    let bags ← takeBags count (b + 1) numbers
    .ok (bag :: bags)

/-- The only bag that is its own parent, each parent being one of `count` bags. -/
def findRoot (count : Nat) : List (Nat × Nat) → Option Nat → Outcome Nat
  | [], root => Outcome.ofOption .noRoot root
  | (parent, b) :: rest, root => do
    Outcome.require (parent < count) (.unknownParent parent b)
    if parent = b then
      Outcome.require root.isNone .severalRoots
      findRoot count rest (some b)
    else findRoot count rest root

/-- The decomposition of a list of numbers. -/
def ofNumbers (numbers : List Nat) : Outcome Decomposition := do
  let (width, numbers) ← takeNumber "width" numbers
  let (count, numbers) ← takeNumber "number of bags" numbers
  let bags ← takeBags count 0 numbers
  let parents := bags.map (·.2)
  let root ← findRoot count parents.zipIdx none
  let d := ofParents (bags.map (·.1)) parents root width
  match (List.range d.size).find? fun b => !d.isBelowRoot b with
  | some b => Outcome.fail (.disconnectedBag b)
  | none => .ok d

/-- The decomposition of a text. Numbers take a character each, so its length bounds their
number. -/
def ofText (text : String) : Outcome Decomposition :=
  let characters := text.toList
  let (numbers, rest) := Text.naturals characters.length characters
  if Text.allWhite rest then ofNumbers numbers
  else Outcome.fail (.trailingData (String.ofList rest))

end Provenance.Decomposition
