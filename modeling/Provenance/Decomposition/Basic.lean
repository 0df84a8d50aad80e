import Provenance.Circuit.Basic

/-!
# Tree decompositions

A tree decomposition of a circuit is a tree of bags, which are sets of gates, such that both ends of
each wire are together in some bag and the bags that hold a given gate form a subtree. The tree is
kept as a table: each bag has a parent and an ordered list of children, and the root is the only bag
that is its own parent. Bags out of range are empty.
-/

namespace Provenance

/-- A tree of bags. -/
structure Decomposition where
  /-- The gates of each bag. -/
  bags : Array GateSet
  /-- The parent of each bag, the bag itself for the root. -/
  parents : Array Nat
  /-- The children of each bag, in order. -/
  links : Array (List Nat)
  root : Nat
  /-- One less than the size of the largest bag, as noted when the decomposition was made. -/
  width : Nat
  deriving DecidableEq

namespace Decomposition

/-- Number of bags. -/
def size (d : Decomposition) : Nat := d.bags.size

/-- The gates of a bag. -/
def bag (d : Decomposition) (b : Nat) : GateSet := d.bags.getD b ∅

/-- The parent of a bag. -/
def parent (d : Decomposition) (b : Nat) : Nat := d.parents.getD b b

/-- The children of a bag. -/
def children (d : Decomposition) (b : Nat) : List Nat := d.links.getD b []

/-- The size of the largest bag. -/
def largest (d : Decomposition) : Nat := d.bags.foldl (fun most bag => max most bag.size) 0

/-- The children of each bag by increasing index, given the parents. -/
def linksOf (parents : List Nat) : Array (List Nat) :=
  parents.zipIdx.foldr
    (fun (parent, b) links => if parent = b then links else links.modify parent (b :: ·))
    (Array.replicate parents.length [])

/-- The tree of bags with given parents. -/
def ofParents (bags : List GateSet) (parents : List Nat) (root width : Nat) : Decomposition where
  bags := bags.toArray
  parents := parents.toArray
  links := linksOf parents
  root := root
  width := width

/-- The ancestor of a bag `steps` levels up, the root being its own parent. -/
def ancestor (d : Decomposition) (b : Nat) : (steps : Nat) → Nat
  | 0 => b
  | steps + 1 => d.ancestor (d.parent b) steps

/-- Whether the parents lead from a bag to the root: a path is not longer than the number of
bags. -/
def isBelowRoot (d : Decomposition) (b : Nat) : Bool := d.ancestor b d.size == d.root

/-- Adds a bag as last child of `parent`; its index is the former number of bags. -/
def addBag (d : Decomposition) (parent : Nat) (gates : GateSet) : Decomposition :=
  { d with
    bags := d.bags.push gates
    parents := d.parents.push parent
    links := (d.links.push []).modify parent (· ++ [d.size]) }

/-- Makes `child` the last child of `parent`. -/
def link (d : Decomposition) (child parent : Nat) : Decomposition :=
  { d with
    parents := d.parents.setIfInBounds child parent
    links := d.links.modify parent (· ++ [child]) }

/-- Takes all children from a bag; their parents stay. -/
def clearChildren (d : Decomposition) (b : Nat) : Decomposition :=
  { d with links := d.links.setIfInBounds b [] }

/-! ## Sizes and gates -/

@[simp] theorem size_addBag (d : Decomposition) (parent : Nat) (gates : GateSet) :
    (d.addBag parent gates).size = d.size + 1 := by
  simp [size, addBag]

@[simp] theorem size_link (d : Decomposition) (child parent : Nat) :
    (d.link child parent).size = d.size := rfl

@[simp] theorem bag_link (d : Decomposition) (child parent : Nat) :
    (d.link child parent).bag = d.bag := rfl

@[simp] theorem bag_clearChildren (d : Decomposition) (b : Nat) :
    (d.clearChildren b).bag = d.bag := rfl

/-- A new bag is the last one; the others keep their gates. -/
theorem bag_addBag (d : Decomposition) (parent b : Nat) (gates : GateSet) :
    (d.addBag parent gates).bag b = if b = d.size then gates else d.bag b :=
  Table.getD_push d.bags gates ∅ b

/-! ## Checking -/

variable {α : Type}

/-- Whether some bag holds both gates. -/
def coversWire (d : Decomposition) (a b : Nat) : Bool :=
  d.bags.any fun bag => bag.contains a && bag.contains b

/-- The first wire that no bag covers. -/
def uncoveredWire? (d : Decomposition) (c : Circuit α) : Option (Nat × Nat) :=
  (c.gates.flatMap fun gate => (c.children gate).map (gate, ·)).find? fun (gate, child) =>
    !d.coversWire gate child

/-- Checks that the bags form a tree and cover each wire. -/
def check (d : Decomposition) (c : Circuit α) : Outcome Unit := do
  let bags := List.range d.size
  match bags.find? fun b => d.parent b != b && !d.isBelowRoot b with
  | some b => Outcome.fail (.bagNotBelowRoot b)
  | none => .ok ()
  let roots := (bags.filter fun b => d.parent b == b).length
  Outcome.require (roots == 1) (.rootCount roots)
  match d.uncoveredWire? c with
  | some (gate, child) => Outcome.fail (.uncoveredWire gate child)
  | none => .ok ()

end Decomposition

end Provenance
