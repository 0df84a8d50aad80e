import Provenance.Decomposition.Basic

/-!
# Friendly decompositions

A decomposition is friendly for a gate when its root is the bag of that gate alone, each bag has at
most two children, each leaf holds one gate, and each gate of an inner bag is in one of its
children. Any decomposition is brought into this form in four passes over the bags: a new root, then
chains of copies where there are many children, then the leaves cut up, then a leaf of its own for
each gate that an inner bag has and its children have not. No pass makes a bag larger.
-/

namespace Provenance.Decomposition

/-- The most children of a bag of a friendly decomposition. -/
def arityLimit : Nat := 2

/-! ## A new root -/

/-- The bags from `b` to the root; `steps` bounds their number. -/
def pathUp (d : Decomposition) (b : Nat) : (steps : Nat) → List Nat
  | 0 => [b]
  | steps + 1 => if d.parent b = b then [b] else b :: d.pathUp (d.parent b) steps

/-- Turns the links along a path round, each bag becoming the parent of the next one. -/
def reverseLinks (d : Decomposition) : List Nat → Decomposition
  | child :: parent :: rest =>
    let d := { d with links := d.links.modify parent (·.filter (· != child)) }
    (d.link parent child).reverseLinks (parent :: rest)
  | _ => d

/-- Makes `b` the root. -/
def reroot (d : Decomposition) (b : Nat) : Decomposition :=
  let d := d.reverseLinks (d.pathUp b d.size)
  { d with parents := d.parents.setIfInBounds b b, root := b }

/-- The first bag that holds a gate, the root if there is none. -/
def home (d : Decomposition) (gate : Nat) : Nat :=
  ((List.range d.size).find? fun b => (d.bag b).contains gate).getD d.root

/-- Adds a bag with the one gate and makes it the root. -/
def withRootBag (d : Decomposition) (gate : Nat) : Decomposition :=
  (d.addBag (d.home gate) (.singleton gate)).reroot d.size

/-! ## Few children -/

/-- Hangs `children` under `b`; when there are more than two, all but the first under a copy. -/
def hang (d : Decomposition) (b : Nat) : List Nat → Decomposition
  | first :: second :: third :: rest =>
    let d := d.link first b
    (d.addBag b (d.bag b)).hang d.size (second :: third :: rest)
  | few => few.foldl (fun d child => d.link child b) d

/-- Spreads the children of a bag over a chain of copies of it. -/
def spread (d : Decomposition) (b : Nat) : Decomposition :=
  let children := d.children b
  if arityLimit < children.length then (d.clearChildren b).hang b children else d

/-! ## Single gates at the leaves -/

/-- Cuts a leaf of several gates: below it come the leaf of its last gate and, before it, the leaf
of the others. -/
def cutLeaf (d : Decomposition) (b : Nat) : Decomposition :=
  let gates := d.bag b
  match (d.children b).isEmpty, gates.last? with
  | true, some last =>
    if 1 < gates.size then
      (d.addBag b (gates.erase last)).addBag b (.singleton last)
    else d
  | _, _ => d

/-- Bounds the number of bags after all leaves are cut: each cut adds two bags and shares the gates
of the leaf out between them. -/
def cutBound (d : Decomposition) : Nat :=
  d.bags.foldl (fun bound bag => bound + 2 * bag.size) d.size

/-! ## A leaf for each introduced gate -/

/-- The gates of a bag that none of its children has. -/
def introduced (d : Decomposition) (b : Nat) : GateSet :=
  (d.bag b).diff ((d.children b).foldl (fun covered child => covered.union (d.bag child)) ∅)

/-- Puts below `b` a bag without the first of `gates`, which takes the children over, and a leaf of
that gate; goes on below the new bag with the other gates. -/
def peel (d : Decomposition) (b : Nat) : (gates : List Nat) → Decomposition
  | [] => d
  | gate :: rest =>
    let children := d.children b
    let reduced := d.size
    let d := (d.clearChildren b).addBag b ((d.bag b).erase gate)
    let d := children.foldl (fun d child => d.link child reduced) d
    (d.addBag b (.singleton gate)).peel reduced rest

/-- Gives each gate that an inner bag introduces a leaf of its own. -/
def cover (d : Decomposition) (b : Nat) : Decomposition :=
  if (d.children b).isEmpty then d else d.peel b (d.introduced b).toList

/-! ## All passes -/

/-- The friendly decomposition for a gate. The pass over the leaves also meets the leaves that it
adds; the other passes need not meet their own bags, because copies of a bag have two children and
the bags below a bag that was peeled introduce nothing. -/
def friendly (d : Decomposition) (gate : Nat) : Decomposition :=
  let d := d.withRootBag gate
  let d := (List.range d.size).foldl spread d
  let d := (List.range d.cutBound).foldl cutLeaf d
  (List.range d.size).foldl cover d

end Provenance.Decomposition
