import Mathlib.Logic.Relation
import Provenance.Circuit.ReadOnce
import Provenance.Proofs.Circuit.Descent
import Provenance.Proofs.Circuit.Value

/-!
# The closed form with a stack of frames

The closed form can be computed without recursion: a stack holds the gates that are being evaluated, each with
the place of its next child and with what came of the children before (`ReadFrame`).  A leaf is read at once,
another child is pushed, an alternative under a disjunction is passed over; a gate without further children
is finished and goes into the value of the gate below it on the stack (`ReadMachine.step`).

What the machine does with a gate, whatever is on the stack, is to resume with the outcome of the recursion
(`goes_enter`): by induction on the depth, and then on the children that are left (`goes_children`).  So
without cycles the machine stops with what the closed form finds (`goes_start`).
-/

namespace Provenance.Circuit

open Provenance.Network

variable {α : Type} [Scalar α]

/-- A gate under evaluation: the place of its next child, and what came of the children before. -/
structure ReadFrame (α : Type) where
  gate : Nat
  next : Nat
  value : α

/-- The value of a gate when nothing of its children is accumulated; negations are looked at for their child. -/
def openGate (c : Circuit α) (gate : Nat) : Outcome α :=
  match c.kind gate with
  | .not => do
    let _ ← c.onlyChild gate
    .ok Scalar.zero
  | _ => .ok Scalar.one

/-- The probability of a gate from what came of its children. -/
def closeGate (c : Circuit α) (gate : Nat) (value : α) (seen : Seen) : Outcome (α × Seen) :=
  match c.kind gate with
  | .and => .ok (value, seen)
  | .not => .ok (Scalar.complement value, seen)
  | _ => do
    let (noAlternative, seen) ← c.noAlternative gate seen
    .ok (Scalar.complement (value * noAlternative), seen)

/-- The probability of a leaf, which is read; nothing for a gate that has children. -/
def readLeaf (c : Circuit α) (gate : Nat) (seen : Seen) : Outcome (Option α × Seen) :=
  match c.kind gate with
  | .input => do
    let seen ← seen.readInput gate
    .ok (some (c.prob gate), seen)
  | .alternative => do
    let key ← c.requireKey gate
    let seen ← seen.readKey key gate
    .ok (some (c.prob gate), seen)
  | .undetermined => Outcome.fail (.undetermined gate)
  | .not | .and | .or => .ok (none, seen)

/-- What a machine is about to do. -/
inductive ReadMachine (α : Type) where
  | running (stack : List (ReadFrame α)) (seen : Seen)
  | halted (outcome : Outcome α)

namespace ReadMachine

/-- Goes on below a gate that has an outcome. -/
def resume (c : Circuit α) (stack : List (ReadFrame α)) (outcome : Outcome (α × Seen)) : ReadMachine α :=
  match outcome, stack with
  | .error failure, _ => halted (.error failure)
  | .ok (p, _), [] => halted (.ok p)
  | .ok (p, seen), parent :: stack =>
    running ({ parent with value := absorb (c.kind parent.gate) parent.value p } :: stack) seen

/-- Looks at a gate: a leaf has its probability at once, another gate is pushed. -/
def enter (c : Circuit α) (gate : Nat) (stack : List (ReadFrame α)) (seen : Seen) : ReadMachine α :=
  match c.readLeaf gate seen with
  | .error failure => halted (.error failure)
  | .ok (some p, seen) => resume c stack (.ok (p, seen))
  | .ok (none, seen) =>
    match c.openGate gate with
    | .error failure => halted (.error failure)
    | .ok value => running (⟨gate, 0, value⟩ :: stack) seen

/-- One step: the next child of the gate on top is looked at or passed over, or the gate is finished. -/
def step (c : Circuit α) : ReadMachine α → ReadMachine α
  | halted outcome => halted outcome
  | running [] seen => running [] seen
  | running (top :: stack) seen =>
    match (c.children top.gate)[top.next]? with
    | some child =>
      let top := { top with next := top.next + 1 }
      if c.isDeferred (c.kind top.gate) child then running (top :: stack) seen
      else enter c child (top :: stack) seen
    | none => resume c stack (c.closeGate top.gate top.value seen)

/-- The machine before its first step. -/
def start (c : Circuit α) (root : Nat) : ReadMachine α := enter c root [] .nothing

/-- Whether some number of steps leads from one state to another one. -/
def Goes (c : Circuit α) : ReadMachine α → ReadMachine α → Prop :=
  Relation.ReflTransGen fun before after => step c before = after

end ReadMachine

open ReadMachine

variable {c : Circuit α} {gate depth : Nat}

/-- A frame comes to what the recursion makes of the children that are left, when it does so for each child. -/
theorem goes_children (below : ∀ child ∈ c.children gate, ∀ stack seen,
      Goes c (enter c child stack seen) (resume c stack (c.readOnce child depth seen)))
    (left done : List Nat) (split : c.children gate = done ++ left) (stack : List (ReadFrame α))
    (value : α) (seen : Seen) :
    Goes c (running (⟨gate, done.length, value⟩ :: stack) seen) (resume c stack
      (c.readOnceAll (c.kind gate) left depth seen value >>= fun (p, seen) => c.closeGate gate p seen)) := by
  induction left generalizing done value seen with
  | nil =>
    have last : (c.children gate)[done.length]? = none := by simp [split]
    refine .single ?_
    simp only [step, last, readOnceAll]
    rfl
  | cons child left ih =>
    have wire : child ∈ c.children gate := by simp [split]
    have next : (c.children gate)[done.length]? = some child := by simp [split]
    have others := ih (done ++ [child]) (by simp [split])
    rw [List.length_append, List.length_singleton] at others
    rw [readOnceAll]
    by_cases deferred : c.isDeferred (c.kind gate) child = true
    · rw [if_pos deferred]
      refine .head ?_ (others value seen)
      simp only [step, next, if_pos deferred]
    · rw [if_neg deferred]
      have entered : step c (running (⟨gate, done.length, value⟩ :: stack) seen) =
          enter c child (⟨gate, done.length + 1, value⟩ :: stack) seen := by
        simp only [step, next, if_neg deferred]
      refine .head entered ((below child wire _ seen).trans ?_)
      cases c.readOnce child depth seen with
      | error failure => exact .refl
      | ok result => exact others (absorb (c.kind gate) value result.1) result.2

/-- What comes of a gate is what the recursion finds, whatever is on the stack. -/
theorem goes_enter (acyclic : c.Acyclic) (even : c.Even) (deep : c.scope gate < depth)
    (stack : List (ReadFrame α)) (seen : Seen) :
    Goes c (enter c gate stack seen) (resume c stack (c.readOnce gate depth seen)) := by
  induction depth generalizing gate stack seen with
  | zero => exact absurd deep (Nat.not_lt_zero _)
  | succ depth ih =>
    have frame := fun value => goes_children (fun child wire => ih
      (Nat.lt_of_lt_of_le (acyclic.scope_lt even wire) (Nat.le_of_lt_succ deep))) (c.children gate) [] rfl
        stack value seen
    unfold closeGate at frame
    rw [readOnce]
    unfold enter readLeaf openGate
    cases kind : c.kind gate with
    | input =>
      cases seen.readInput gate with
      | error failure => exact .refl
      | ok seen => exact .refl
    | alternative =>
      cases c.requireKey gate with
      | error failure => exact .refl
      | ok key =>
        dsimp only [bind, Except.bind]
        cases seen.readKey key gate with
        | error failure => exact .refl
        | ok seen => exact .refl
    | and =>
      have finished := frame Scalar.one
      simp only [kind] at finished
      have same : (c.readOnceAll .and (c.children gate) depth seen Scalar.one >>= fun (p, seen) =>
          .ok (p, seen)) = c.readOnceAll .and (c.children gate) depth seen Scalar.one := by
        cases c.readOnceAll .and (c.children gate) depth seen Scalar.one <;> rfl
      rw [same] at finished
      exact finished
    | or =>
      have finished := frame Scalar.one
      simp only [kind] at finished
      exact finished
    | not =>
      have finished := frame Scalar.zero
      simp only [kind] at finished
      cases only : c.onlyChild gate with
      | error failure => exact .refl
      | ok child =>
        rw [onlyChild_eq_ok.1 only] at finished
        exact finished
    | undetermined => exact .refl

/-- Without cycles the machine stops with what the closed form finds. -/
theorem goes_start (acyclic : c.Acyclic) (even : c.Even) (root : Nat) :
    Goes c (start c root) (halted (c.independentEvaluation root)) := by
  have goes := goes_enter acyclic even (Nat.lt_succ_of_le (c.scope_le_size root)) [] .nothing
  have last : resume c [] (c.readOnce root (c.size + 1) .nothing) =
      halted (c.independentEvaluation root) := by
    unfold independentEvaluation
    cases c.readOnce root (c.size + 1) .nothing <;> rfl
  rwa [← last]

end Provenance.Circuit
