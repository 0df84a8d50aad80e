import Provenance.DDnnf.Basic
import Provenance.Decomposition.Elimination
import Provenance.Decomposition.Friendly

/-!
# Compilation along a decomposition

A circuit of small width is compiled to a d-DNNF by dynamic programming over a friendly
decomposition. Each bag has a list of entries. An entry assumes a value for each gate of the bag and
has a gate of the d-DNNF, true in the worlds that agree with these values as far as the part of the
circuit below the bag can tell.

A value of a gate is strong when a child must justify it, as true for a disjunction. A gate whose
strong value is not justified yet is suspicious; it must be in the bag above too, and at the root no
gate may be suspicious.
-/

namespace Provenance

/-- Whether a value of a gate of this kind needs a child to justify it; seen from a parent of this
kind, whether a child with this value fixes the value of the parent. -/
def Kind.isStrong : Kind → Bool → Bool
  | .or, value => value
  | .and, value => !value
  | .input, _ => false
  | _, _ => true

/-- Whether a parent of this kind may have the value `parent` when a child has the strong value
`child`. -/
def Kind.admits : Kind → (parent child : Bool) → Bool
  | .and, parent, child | .or, parent, child => parent == child
  | .not, parent, child => parent != child
  | _, _, _ => true

/-! ## Values assumed in a bag -/

/-- Values of some gates, by increasing index. -/
abbrev Valuation := List (Nat × Bool)

namespace Valuation

/-- The value of a gate that has one. -/
def value? : Valuation → Nat → Option Bool
  | [], _ => none
  | (other, value) :: rest, gate => if other = gate then some value else value? rest gate

/-- Whether gates with a value in both valuations have the same value in both. -/
def agrees (left right : Valuation) : Bool :=
  right.all fun (gate, value) => (value? left gate).all (· == value)

/-- The values of the gates of a bag, those of `right` going before those of `left`. -/
def restrict (left right : Valuation) (bag : GateSet) : Valuation :=
  bag.toList.filterMap fun gate => ((value? right gate).or (value? left gate)).map (gate, ·)

/-- A value that is found is in the list. -/
theorem value?_eq_some {valuation : Valuation} {gate : Nat} {value : Bool}
    (found : valuation.value? gate = some value) : (gate, value) ∈ valuation := by
  induction valuation with
  | nil => simp [value?] at found
  | cons head rest ih =>
    obtain ⟨other, kept⟩ := head
    simp only [value?] at found
    split at found
    · simp_all
    · exact List.mem_cons_of_mem _ (ih found)

/-- The values of a restriction: those of either valuation, for the gates of the bag. -/
theorem value?_restrict (left right : Valuation) (bag : GateSet) (gate : Nat) :
    (restrict left right bag).value? gate =
      if gate ∈ bag then (right.value? gate).or (left.value? gate) else none := by
  obtain ⟨gates, sorted⟩ := bag
  simp only [restrict, GateSet.mem_def]
  induction gates with
  | nil => simp [value?]
  | cons first gates ih =>
    have below := (List.pairwise_cons.1 sorted).1
    have ih := ih (List.pairwise_cons.1 sorted).2
    rw [List.filterMap_cons]
    cases h : (right.value? first).or (left.value? first) with
    | none =>
      simp only [Option.map_none]
      by_cases same : gate = first
      · subst same
        have : gate ∉ gates := fun member => Nat.lt_irrefl _ (below gate member)
        simp_all
      · simp_all
    | some value =>
      simp only [Option.map_some, value?]
      by_cases same : first = gate
      · subst same
        simp [h]
      · simp_all [eq_comm]

end Valuation

/-- Values assumed for a bag and a gate that says where they hold. -/
structure Entry where
  /-- The gate of the d-DNNF. -/
  gate : Nat
  /-- The values of the gates of the bag. -/
  valuation : Valuation
  /-- The gates whose strong value is not justified yet. -/
  suspicious : GateSet
  deriving DecidableEq

namespace Entry

/-- Whether the entry vouches for a gate: it has a value there and is not suspicious. -/
def vouches (e : Entry) (gate : Nat) : Bool :=
  (e.valuation.value? gate).isSome && !e.suspicious.contains gate

/-- Orders the entries of one bag: by the values of its gates, false first, then by the suspicious
gates. -/
def key (e : Entry) : List Nat := e.valuation.map (·.2.toNat) ++ e.suspicious.toList

end Entry

/-! ## Bags -/

/-- The gates of a bag with their kinds and those of their children that are in the bag too. -/
structure BagWires where
  bag : GateSet
  gates : List (Nat × Kind × List Nat)

namespace BagWires

/-- The wires of a circuit inside a bag; a wire from a gate to itself is left out. -/
def of {α : Type} (c : Circuit α) (bag : GateSet) : BagWires :=
  ⟨bag, bag.toList.map fun gate =>
    (gate, c.kind gate,
      bag.toList.filter fun child => child != gate && (c.children gate).contains child)⟩

/-- Whether each child with a value that is strong for its parent admits the value of the parent. -/
def consistent (wires : BagWires) (valuation : Valuation) : Bool :=
  wires.gates.all fun (gate, kind, children) =>
    match valuation.value? gate with
    | none => true
    | some parent =>
      children.all fun child =>
        match valuation.value? child with
        | none => true
        | some value => !kind.isStrong value || kind.admits parent value

/-- Whether a child inside the bag justifies a strong value of a gate of this kind. -/
def justified (valuation : Valuation) (kind : Kind) (children : List Nat) : Bool :=
  children.any fun child => (valuation.value? child).any kind.isStrong

/-- The gates with a strong value that none of the children justifies, where `vouched` does not
vouch for them. -/
def suspicious (wires : BagWires) (valuation : Valuation) (vouched : Nat → Bool) : GateSet :=
  wires.bag.filter fun gate =>
    match valuation.value? gate, wires.gates.lookup gate with
    | some value, some (kind, children) =>
      !vouched gate && kind.isStrong value && !justified valuation kind children
    | _, _ => false

/-- The entry that two entries below make together, its gate left open; none when they disagree or
when a wire inside the bag is not respected. -/
def combine? (wires : BagWires) (left right : Entry) : Option Entry :=
  if left.valuation.agrees right.valuation then
    let valuation := left.valuation.restrict right.valuation wires.bag
    if wires.consistent valuation then
      let vouched (gate : Nat) : Bool := left.vouches gate || right.vouches gate
      some ⟨0, valuation, wires.suspicious valuation vouched⟩
    else none
  else none

end BagWires

/-! ## Compilation -/

/-- What stays fixed during a compilation. -/
structure Compilation (α : Type) where
  /-- The circuit to compile. -/
  source : Circuit α
  /-- A friendly decomposition of it. -/
  tree : Decomposition
  /-- For each input the leaf that decides its value. -/
  responsible : Std.TreeMap Nat Nat
  /-- For each input its gate in the d-DNNF and the negation of that. -/
  literals : Std.TreeMap Nat (Nat × Nat)
  /-- The constant true in the d-DNNF. -/
  truth : Nat

namespace Compilation

variable {α : Type} [Scalar α]

/-- The entries of one bag, one after the other, with the d-DNNF that grows meanwhile. Gates whose
entries have the same values and the same suspicious gates are collected. -/
structure Collected (α : Type) where
  target : Circuit α
  groups : Std.TreeMap (List Nat) (Entry × List Nat)

/-- Adds a conjunction of two gates, unless one of them is the constant true. -/
def conjoin (k : Compilation α) (target : Circuit α) (left right : Nat) : Nat × Circuit α :=
  match [left, right].filter (· != k.truth) with
  | [] => (k.truth, target)
  | [only] => (only, target)
  | parts => target.addNode .and parts

/-- Collects the entry that two entries below make together. -/
def collect (k : Compilation α) (wires : BagWires) (left : Entry) (state : Collected α)
    (right : Entry) : Collected α :=
  match wires.combine? left right with
  | none => state
  | some entry =>
    let (gate, target) := k.conjoin state.target left.gate right.gate
    let key := entry.key
    let gates := ((state.groups[key]?.map (·.2)).getD [])
    ⟨target, state.groups.insert key (entry, gates ++ [gate])⟩

/-- The entry of a group: its only gate, or the disjunction of its gates. -/
def close (group : Entry × List Nat) (target : Circuit α) : Entry × Circuit α :=
  match group with
  | (entry, [only]) => ({ entry with gate := only }, target)
  | (entry, gates) =>
    let (gate, target) := target.addNode .or gates
    ({ entry with gate }, target)

/-- The entries of all groups. -/
def closeAll : List (Entry × List Nat) → Circuit α → List Entry × Circuit α
  | [], target => ([], target)
  | group :: rest, target =>
    let (entry, target) := close group target
    let (entries, target) := closeAll rest target
    (entry :: entries, target)

/-- The entries of a bag from those of its children. Entries with a suspicious gate that is not in
the bag are of no use any more. -/
def merge (k : Compilation α) (b : Nat) (left right : List Entry) (target : Circuit α) :
    List Entry × Circuit α :=
  let bag := k.tree.bag b
  let wires := BagWires.of k.source bag
  let alive := fun (e : Entry) => e.suspicious.isSubset bag
  let right := right.filter alive
  let state := (left.filter alive).foldl
    (fun state e => right.foldl (k.collect wires e) state) ⟨target, ∅⟩
  closeAll (state.groups.toList.map (·.2)) state.target

/-- The entries of a leaf. The leaf responsible for an input ties its value to the world. -/
def leaf (k : Compilation α) (b : Nat) : Outcome (List Entry) :=
  match (k.tree.bag b).toList with
  | [] => .ok []
  | [gate] =>
    let kind := k.source.kind gate
    let tied := kind = .input ∧ k.responsible[gate]? = some b
    match if tied then k.literals[gate]? else none with
    | some (positive, negative) =>
      .ok [⟨positive, [(gate, true)], ∅⟩, ⟨negative, [(gate, false)], ∅⟩]
    | none =>
      .ok <| [true, false].map fun value =>
        ⟨k.truth, [(gate, value)], if kind.isStrong value then .singleton gate else ∅⟩
  | _ => Outcome.fail (.wideLeaf b)

/-- The entry that puts no condition. -/
def neutral (k : Compilation α) : Entry := ⟨k.truth, [], ∅⟩

/-- The entries of a bag; the last child is done first. `depth` bounds the height of the tree. -/
def entries (k : Compilation α) :
    (depth : Nat) → (b : Nat) → Circuit α → Outcome (List Entry × Circuit α)
  | 0, b, _ => Outcome.fail (.bagNotBelowRoot b)
  | depth + 1, b, target =>
    match k.tree.children b with
    | [] => (k.leaf b).map (·, target)
    | [child] => do
      let (below, target) ← entries k depth child target
      .ok (k.merge b below [k.neutral] target)
    | [left, right] => do
      let (second, target) ← entries k depth right target
      let (first, target) ← entries k depth left target
      .ok (k.merge b first second target)
    | _ => Outcome.fail (.manyChildren b)

/-- For each input the last leaf that holds it. -/
def responsibleLeaves (c : Circuit α) (tree : Decomposition) : Std.TreeMap Nat Nat :=
  (List.range tree.size).foldl
    (fun table b =>
      match tree.children b, (tree.bag b).toList with
      | [], [gate] => if c.kind gate = .input then table.insert gate b else table
      | _, _ => table)
    ∅

/-- Adds each input, under its name and with its probability, and its negation. -/
def addLiterals (c : Circuit α) (responsible : Std.TreeMap Nat Nat) :
    List Nat → Std.TreeMap Nat (Nat × Nat) → Circuit α →
      Outcome (Std.TreeMap Nat (Nat × Nat) × Circuit α)
  | [], literals, target => .ok (literals, target)
  | input :: rest, literals, target => do
    Outcome.require (responsible.contains input) (.noResponsibleBag input)
    let (positive, target) := target.addInput (c.prob input)
    let target := match c.name? input with
      | some name => target.setName positive name
      | none => target
    let (negative, target) := target.addNode .not [positive]
    addLiterals c responsible rest (literals.insert input (positive, negative)) target

/-- Checks that a circuit can be compiled: the root exists and each gate is Boolean and defined. -/
def checkSource (c : Circuit α) (root : Nat) : Outcome Unit := do
  Outcome.require (root < c.size) (.noSuchGate root)
  c.requireBoolean
  match c.gates.find? (c.kind · == .undetermined) with
  | some gate => Outcome.fail (.undetermined gate)
  | none => .ok ()

/-- A compilation with the d-DNNF of its literals. -/
def start (c : Circuit α) (root : Nat) (tree : Decomposition) :
    Outcome (Compilation α × Circuit α) := do
  checkSource c root
  let tree := tree.friendly root
  let responsible := responsibleLeaves c tree
  let (literals, target) ← addLiterals c responsible c.inputs.toList ∅ Circuit.empty
  let (truth, target) := target.addGate .and
  .ok ({ source := c, tree, responsible, literals, truth }, target)

end Compilation

namespace DDnnf

variable {α : Type} [Scalar α]

/-- Compiles a gate of a circuit along a tree decomposition of the circuit. The d-DNNF is the
disjunction of the entries of the root bag in which the gate is true and nothing is suspicious. -/
def alongTree (c : Circuit α) (root : Nat) (tree : Decomposition) : Outcome (DDnnf α) := do
  let (k, target) ← Compilation.start c root tree
  let (entries, target) ← k.entries (k.tree.size + 1) k.tree.root target
  let accepted := entries.filter fun e =>
    e.suspicious.isEmpty && e.valuation.value? root == some true
  let (top, target) := target.addNode .or (accepted.map (·.gate))
  .ok (ofCircuit target top)

/-- Compiles a gate of a circuit along a decomposition of small width, if there is one. -/
def ofTree (c : Circuit α) (root : Nat) : Outcome (DDnnf α) := do
  let tree ← c.decompose Circuit.widthLimit
  alongTree c root tree

end DDnnf

end Provenance
