import Mathlib.Data.Set.Defs
import Provenance.Decomposition.Compile
import Provenance.Proofs.Circuit.Value
import Provenance.Proofs.Decomposition.Friendly

/-!
# What an entry stands for

An entry of a bag stands for assignments of values to all gates.  Only the gates in the bags of a part of
the tree matter, those below the bag (`Part`).  An assignment fits a part when it agrees with the world
on the inputs decided there, no strong value is at odds with its parent in a bag, and each strong value
of a gate that is not in the top bag is justified in some bag (`Fits`).  It is described by an entry that
has its values and its doubtful gates (`Describes`).

An assignment that fits is determined by its values in the top bag (`Fits.unique`): gates not in the top
bag have all their wires in the part, so from the children up a strong value that is justified fixes the
value of the gate.
-/

namespace Provenance

/-! ## Strong values -/

/-- Whether a gate of this kind has its value from its children. -/
def Kind.IsInner (kind : Kind) : Prop := kind = .and ∨ kind = .or ∨ kind = .not

/-- One of two different values is strong. -/
theorem Kind.isStrong_of_ne {kind : Kind} (inner : kind.IsInner) {left right : Bool}
    (different : left ≠ right) : kind.isStrong left = true ∨ kind.isStrong right = true := by
  rcases inner with rfl | rfl | rfl <;> revert left right <;> decide

/-- A strong child admits one value of the parent. -/
theorem Kind.eq_of_admits {kind : Kind} (inner : kind.IsInner) {left right child : Bool}
    (admits_left : kind.admits left child = true) (admits_right : kind.admits right child = true) :
    left = right := by
  rcases inner with rfl | rfl | rfl <;> revert left right child <;> decide

theorem Circuit.Evaluable.isInner {α : Type} {c : Circuit α} {gate : Nat}
    (evaluable : c.Evaluable gate) (other : c.kind gate ≠ .input) : (c.kind gate).IsInner := by
  unfold Circuit.Evaluable at evaluable
  unfold Kind.IsInner
  cases kind : c.kind gate <;> simp_all

namespace Compilation

variable {α : Type} {k : Compilation α}

/-- The circuit can be compiled along the tree: all gates have values and are in the tree, which is
friendly for the root, but for empty leaves, and decomposes the circuit, and each input has a leaf
responsible for it. -/
structure Ready (k : Compilation α) (root : Nat) : Prop where
  even : k.source.Even
  acyclic : k.source.Acyclic
  evaluable : ∀ gate < k.source.size, k.source.Evaluable gate
  root_lt : root < k.source.size
  arranged : k.tree.IsArranged root
  decomposes : k.tree.Decomposes k.source
  lt_of_mem : ∀ b, ∀ gate ∈ k.tree.bag b, gate < k.source.size
  held : ∀ gate < k.source.size, ∃ b, gate ∈ k.tree.bag b
  leaf : ∀ (input leaf : Nat), k.responsible[input]? = some leaf →
    k.source.kind input = .input ∧ leaf < k.tree.size ∧ k.tree.children leaf = [] ∧
      k.tree.bag leaf = .singleton input
  responsible : ∀ input, k.source.kind input = .input →
    ∃ leaf, k.responsible[input]? = some leaf

/-! ## Parts of the tree -/

/-- A part of the tree that shares with the rest the gates of a top set only. -/
structure Part (k : Compilation α) where
  bags : Set Nat
  top : GateSet
  top_held : ∀ gate ∈ top, ∃ b ∈ bags, gate ∈ k.tree.bag b
  shared : ∀ a ∈ bags, ∀ b ∉ bags, ∀ gate ∈ k.tree.bag a, gate ∈ k.tree.bag b → gate ∈ top

/-- The part without bags. -/
def Part.none (k : Compilation α) : Part k where
  bags := ∅
  top := ∅
  top_held _ member := absurd member GateSet.not_mem_emptyCollection
  shared a member := absurd member (Set.notMem_empty a)

/-- The bags below a bag. -/
def Part.below {root : Nat} (ready : k.Ready root) (b : Nat) : Part k where
  bags := {x | k.tree.Below x b}
  top := k.tree.bag b
  top_held _ member := ⟨b, .refl b, member⟩
  shared _ lower _ outside gate held elsewhere :=
    ((ready.decomposes.connected gate).crossing lower held outside elsewhere).1

namespace Part

variable (part : Part k)

/-- A gate is in a bag of the part. -/
def Holds (gate : Nat) : Prop := ∃ b ∈ part.bags, gate ∈ k.tree.bag b

/-- Assignments with the same values in the part. -/
def Same (s s' : Nat → Bool) : Prop := ∀ gate, part.Holds gate → s gate = s' gate

variable {part}

/-- The bags of a gate that the part holds are in the part, unless the gate is in the top set. -/
theorem mem_bags {gate b : Nat} (holds : part.Holds gate) (inner : gate ∉ part.top)
    (member : gate ∈ k.tree.bag b) : b ∈ part.bags := by
  obtain ⟨a, inside, held⟩ := holds
  by_contra outside
  exact inner (part.shared a inside b outside gate held member)

end Part

/-! ## Assignments -/

/-- A gate of the bag has a child in the bag whose value fixes its own. -/
def Justified (k : Compilation α) (s : Nat → Bool) (b gate : Nat) : Prop :=
  gate ∈ k.tree.bag b ∧ ∃ child ∈ k.tree.bag b, child ∈ k.source.children gate ∧
    (k.source.kind gate).isStrong (s child) = true

/-- No child in a bag has a strong value that its parent in the bag does not allow. -/
def Respected (k : Compilation α) (s : Nat → Bool) (b : Nat) : Prop :=
  ∀ gate ∈ k.tree.bag b, ∀ child ∈ k.tree.bag b, child ∈ k.source.children gate →
    (k.source.kind gate).isStrong (s child) = true →
      (k.source.kind gate).admits (s gate) (s child) = true

namespace Part

variable (part : Part k)

/-- The value of a gate is strong and no bag of the part justifies it. -/
def Doubtful (s : Nat → Bool) (gate : Nat) : Prop :=
  (k.source.kind gate).isStrong (s gate) = true ∧ ∀ b ∈ part.bags, ¬ k.Justified s b gate

/-- The assignment may be that of the world, as far as the part can tell. -/
structure Fits (world : Circuit.World) (s : Nat → Bool) : Prop where
  inputs : ∀ (input leaf : Nat), k.responsible[input]? = some leaf → leaf ∈ part.bags →
    s input = world input
  wires : ∀ b ∈ part.bags, k.Respected s b
  settled : ∀ gate, part.Holds gate → gate ∉ part.top → ¬ part.Doubtful s gate

/-- The entry has the values of the assignment in the top set and its doubtful gates. -/
structure Describes (s : Nat → Bool) (e : Entry) : Prop where
  values : ∀ gate, e.valuation.value? gate = if gate ∈ part.top then some (s gate) else Option.none
  suspicious : ∀ gate, gate ∈ e.suspicious ↔ gate ∈ part.top ∧ part.Doubtful s gate

variable {part} {s s' : Nat → Bool} {world : Circuit.World}

/-! ## Only the gates of the part matter -/

section Same

variable (same : part.Same s s')

include same

theorem justified_iff {b gate : Nat} (inside : b ∈ part.bags) :
    k.Justified s b gate ↔ k.Justified s' b gate := by
  refine and_congr_right fun _ => exists_congr fun child => and_congr_right fun held => ?_
  rw [same child ⟨b, inside, held⟩]

theorem doubtful_iff {gate : Nat} (holds : part.Holds gate) :
    part.Doubtful s gate ↔ part.Doubtful s' gate := by
  unfold Doubtful
  rw [same gate holds]
  exact and_congr_right fun _ => forall₂_congr fun b inside => not_congr (justified_iff same inside)

theorem Fits.of_same {root : Nat} (ready : k.Ready root) (fits : part.Fits world s) :
    part.Fits world s' where
  inputs input leaf found inside := by
    have held : input ∈ k.tree.bag leaf := by
      rw [(ready.leaf input leaf found).2.2.2]
      exact GateSet.mem_singleton.2 rfl
    rw [← same input ⟨leaf, inside, held⟩]
    exact fits.inputs input leaf found inside
  wires b inside gate held child held' wire := by
    rw [← same gate ⟨b, inside, held⟩, ← same child ⟨b, inside, held'⟩]
    exact fits.wires b inside gate held child held' wire
  settled gate holds inner doubtful :=
    fits.settled gate holds inner ((doubtful_iff same holds).2 doubtful)

theorem Describes.of_same {e : Entry} (describes : part.Describes s e) : part.Describes s' e where
  values gate := by
    rw [describes.values gate]
    split
    · rename_i member
      rw [same gate (part.top_held gate member)]
    · rfl
  suspicious gate := by
    rw [describes.suspicious gate]
    exact and_congr_right fun member => doubtful_iff same (part.top_held gate member)

end Same

/-! ## The hidden values are determined -/

/-- A strong value that is justified is that of any assignment with the same values of the children. -/
theorem Fits.eq_of_isStrong (fits : part.Fits world s)
    (fits' : part.Fits world s') {gate : Nat} (holds : part.Holds gate) (inner : gate ∉ part.top)
    (is_inner : (k.source.kind gate).IsInner)
    (below : ∀ child ∈ k.source.children gate, part.Holds child → s child = s' child)
    (strong : (k.source.kind gate).isStrong (s gate) = true) : s' gate = s gate := by
  have justified : ∃ b ∈ part.bags, k.Justified s b gate := by
    by_contra unjustified
    exact fits.settled gate holds inner
      ⟨strong, fun b inside justified => unjustified ⟨b, inside, justified⟩⟩
  obtain ⟨b, inside, held, child, child_held, wire, child_strong⟩ := justified
  have same := below child wire ⟨b, inside, child_held⟩
  have admits := fits.wires b inside gate held child child_held wire child_strong
  rw [same] at child_strong admits
  exact Kind.eq_of_admits is_inner
    (fits'.wires b inside gate held child child_held wire child_strong) admits

/-- Two assignments that fit a part and agree in the top set agree in the part. -/
theorem Fits.unique {root : Nat} (ready : k.Ready root) (fits : part.Fits world s)
    (fits' : part.Fits world s') (agree : ∀ gate ∈ part.top, s gate = s' gate) :
    part.Same s s' := by
  intro gate
  induction gate using ready.acyclic.induction with
  | step gate ih =>
    intro holds
    by_cases inner : gate ∈ part.top
    · exact agree gate inner
    · have inside : gate < k.source.size := by
        obtain ⟨b, _, held⟩ := holds
        exact ready.lt_of_mem b gate held
      by_cases input : k.source.kind gate = .input
      · obtain ⟨leaf, found⟩ := ready.responsible gate input
        have held : gate ∈ k.tree.bag leaf := by
          rw [(ready.leaf gate leaf found).2.2.2]
          exact GateSet.mem_singleton.2 rfl
        have member := mem_bags holds inner held
        rw [fits.inputs gate leaf found member, fits'.inputs gate leaf found member]
      · have is_inner := (ready.evaluable gate inside).isInner input
        by_contra different
        rcases Kind.isStrong_of_ne is_inner different with strong | strong
        · exact different (fits.eq_of_isStrong fits' holds inner is_inner ih strong).symm
        · exact different (fits'.eq_of_isStrong fits holds inner is_inner
            (fun child wire held => (ih child wire held).symm) strong)

end Part

end Compilation

end Provenance
