import Mathlib.Logic.Function.Iterate
import Provenance.Proofs.DDnnf.Memo

/-!
# Evaluation with a stack of frames

A gate can be evaluated without recursion and without an order made beforehand: a stack holds the gates that
are being evaluated, each with the number of its children that were combined and with what came of them
(`Frame`).  A child that is remembered is combined at once, another one is pushed; a gate all of whose children
are combined is remembered and combined with the gate below it (`Machine.step`).

The frame of a gate, whatever is below it on the stack, comes to the outcome of the gate (`goes_frame`), by
induction on the gate and then on the children that are left.  So without cycles the machine stops with what
the evaluation along the post-order finds (`goes_start`).
-/

namespace Provenance.DDnnf

open Provenance.Circuit Provenance.Network

variable {α : Type} [Scalar α]

/-- A gate under evaluation: how many of its children were combined, and what came of them. -/
structure Frame (α : Type) where
  gate : Nat
  next : Nat
  value : α

namespace Frame

/-- The frame of a gate none of whose children were combined. -/
def start (c : Circuit α) (gate : Nat) : Frame α :=
  ⟨gate, 0, if c.kind gate = .and then Scalar.one else Scalar.zero⟩

/-- The frame with one more child, multiplied under a conjunction and added elsewhere. -/
def combine (c : Circuit α) (frame : Frame α) (p : α) : Frame α :=
  ⟨frame.gate, frame.next + 1, if c.kind frame.gate = .and then frame.value * p else frame.value + p⟩

/-- The probability of a gate all of whose children were combined. -/
def close (c : Circuit α) (frame : Frame α) : Outcome α :=
  match c.kind frame.gate with
  | .input => .ok (c.prob frame.gate)
  | .and | .or => .ok frame.value
  | .not => do
    let _ ← c.onlyChild frame.gate
    .ok (Scalar.complement frame.value)
  | .alternative => Outcome.fail (.multivalued frame.gate)
  | .undetermined => Outcome.fail (.undetermined frame.gate)

end Frame

/-- What a machine is about to do, and what is remembered. -/
inductive Machine (α : Type) where
  | running (stack : List (Frame α)) (memo : Std.TreeMap Nat α)
  | halted (outcome : Outcome α) (memo : Std.TreeMap Nat α)

namespace Machine

/-- Goes on below a gate that has an outcome. -/
def resume (c : Circuit α) (stack : List (Frame α)) (outcome : Outcome α) (memo : Std.TreeMap Nat α) :
    Machine α :=
  match outcome, stack with
  | .ok p, parent :: stack => running (parent.combine c p :: stack) memo
  | outcome, _ => halted outcome memo

/-- One step: a child is combined or pushed, or the gate on top is finished. -/
def step (c : Circuit α) : Machine α → Machine α
  | halted outcome memo => halted outcome memo
  | running [] memo => running [] memo
  | running (top :: stack) memo =>
    match (c.children top.gate)[top.next]? with
    | some child =>
      match memo[child]? with
      | some p => running (top.combine c p :: stack) memo
      | none => running (.start c child :: top :: stack) memo
    | none =>
      match top.close c with
      | .ok p => resume c stack (.ok p) (memo.insert top.gate p)
      | .error failure => halted (.error failure) memo

/-- A gate that is remembered needs no step. -/
def start (c : Circuit α) (memo : Std.TreeMap Nat α) (gate : Nat) : Machine α :=
  match memo[gate]? with
  | some p => halted (.ok p) memo
  | none => running [.start c gate] memo

/-- Whether some number of steps leads from one state to another one. -/
def Goes (c : Circuit α) (before after : Machine α) : Prop := ∃ steps, (step c)^[steps] before = after

variable {c : Circuit α} {before between after : Machine α}

theorem Goes.refl (state : Machine α) : Goes c state state := ⟨0, rfl⟩

theorem Goes.step (goes : Goes c (step c before) after) : Goes c before after := by
  obtain ⟨steps, same⟩ := goes
  exact ⟨steps + 1, same⟩

theorem Goes.trans (first : Goes c before between) (second : Goes c between after) : Goes c before after := by
  obtain ⟨steps, rfl⟩ := first
  obtain ⟨others, rfl⟩ := second
  exact ⟨others + steps, Function.iterate_add_apply ..⟩

end Machine

open Machine

variable {c : Circuit α} {outcome : Nat → Outcome α} {gate : Nat}

/-- The frame of a gate whose first children have the given probabilities. -/
def frameOf (c : Circuit α) (gate : Nat) (ps : List α) : Frame α :=
  ⟨gate, ps.length, if c.kind gate = .and then Scalar.product ps else Scalar.sum ps⟩

theorem combine_frameOf (c : Circuit α) (gate : Nat) (ps : List α) (p : α) :
    (frameOf c gate ps).combine c p = frameOf c gate (ps ++ [p]) := by
  simp only [frameOf, Frame.combine, List.length_append, List.length_singleton, Scalar.product, Scalar.sum,
    List.foldl_append, List.foldl_cons, List.foldl_nil]
  split <;> rfl

theorem close_frameOf (c : Circuit α) (gate : Nat) (ps : List α) :
    (frameOf c gate ps).close c = finish c gate ps := by
  unfold Frame.close finish frameOf
  cases c.kind gate <;> rfl

/-- A frame that has the probabilities of all children comes to the outcome of its gate. -/
theorem goes_close (acyclic : c.Acyclic) (settles : Settles c outcome) {stack : List (Frame α)} {ps : List α}
    {memo : Std.TreeMap Nat α} (combined : (c.children gate).mapM outcome = .ok ps) (right : Right c memo) :
    ∃ memo', Right c memo' ∧
      Goes c (running (frameOf c gate ps :: stack) memo) (resume c stack (outcome gate) memo') := by
  have length : (c.children gate).length = ps.length := (Outcome.mapM_eq_ok_iff.1 combined).length_eq
  have closed : (frameOf c gate ps).close c = outcome gate := by
    rw [close_frameOf, settles gate, combined]
    rfl
  have finished : step c (running (frameOf c gate ps :: stack) memo) =
      match outcome gate with
      | .ok p => resume c stack (.ok p) (memo.insert gate p)
      | .error failure => halted (.error failure) memo := by
    have none : (c.children gate)[ps.length]? = none := by simp [length]
    simp only [step, frameOf, none, ← closed]
  cases settled : outcome gate with
  | ok p =>
    refine ⟨memo.insert gate p, right.insert fun outcome' settles' => ?_, .step ?_⟩
    · rw [settles.unique settles' acyclic gate, settled]
    · rw [finished, settled]
      exact .refl _
  | error failure =>
    refine ⟨memo, right, .step ?_⟩
    rw [finished, settled]
    exact .refl _

/-- A frame comes to the outcome of its gate when the frames of the children do. -/
theorem goes_children (acyclic : c.Acyclic) (settles : Settles c outcome) {stack : List (Frame α)}
    (below : ∀ child ∈ c.children gate, ∀ stack memo, Right c memo →
      ∃ memo', Right c memo' ∧
        Goes c (running (.start c child :: stack) memo) (resume c stack (outcome child) memo'))
    (left done : List Nat) {ps : List α} {memo : Std.TreeMap Nat α} (split : c.children gate = done ++ left)
    (combined : done.mapM outcome = .ok ps) (right : Right c memo) :
    ∃ memo', Right c memo' ∧
      Goes c (running (frameOf c gate ps :: stack) memo) (resume c stack (outcome gate) memo') := by
  have length : done.length = ps.length := (Outcome.mapM_eq_ok_iff.1 combined).length_eq
  induction left generalizing done ps memo with
  | nil =>
    rw [List.append_nil] at split
    exact goes_close acyclic settles (split ▸ combined) right
  | cons child left ih =>
    have wire : child ∈ c.children gate := by simp [split]
    have split' : c.children gate = (done ++ [child]) ++ left := by simp [split]
    have next : (c.children gate)[ps.length]? = some child := by simp [split, ← length]
    have more : ∀ {p}, outcome child = .ok p → (done ++ [child]).mapM outcome = .ok (ps ++ [p]) := by
      intro p settled
      rw [List.mapM_append, combined, List.mapM_cons, settled]
      rfl
    have longer : ∀ p : α, (done ++ [child]).length = (ps ++ [p]).length := by simp [length]
    cases found : memo[child]? with
    | some p =>
      have settled := right outcome settles child p found
      obtain ⟨memo', right', goes⟩ := ih (done ++ [child]) split' (more settled) right (longer p)
      refine ⟨memo', right', .step ?_⟩
      have combined : step c (running (frameOf c gate ps :: stack) memo) =
          running (frameOf c gate (ps ++ [p]) :: stack) memo := by
        rw [← combine_frameOf]
        simp only [step, frameOf, next, found]
      rwa [combined]
    | none =>
      obtain ⟨memo', right', goes⟩ := below child wire (frameOf c gate ps :: stack) memo right
      have pushed : step c (running (frameOf c gate ps :: stack) memo) =
          running (.start c child :: frameOf c gate ps :: stack) memo := by
        simp only [step, frameOf, next, found]
      have first : Goes c (running (frameOf c gate ps :: stack) memo)
          (resume c (frameOf c gate ps :: stack) (outcome child) memo') := .step (pushed ▸ goes)
      cases settled : outcome child with
      | ok p =>
        obtain ⟨memo'', right'', others⟩ := ih (done ++ [child]) split' (more settled) right' (longer p)
        rw [settled, resume, combine_frameOf] at first
        exact ⟨memo'', right'', first.trans others⟩
      | error failure =>
        -- the failure of a child is that of its parent
        have failed : outcome gate = .error failure := by
          rw [settles gate, split, List.mapM_append, combined, List.mapM_cons, settled]
          rfl
        rw [settled] at first
        rw [failed]
        exact ⟨memo', right', first⟩

/-- The frame of a gate comes to the outcome of the gate, whatever is below it on the stack. -/
theorem goes_frame (acyclic : c.Acyclic) (settles : Settles c outcome) (gate : Nat) :
    ∀ stack memo, Right c memo → ∃ memo', Right c memo' ∧
      Goes c (running (.start c gate :: stack) memo) (resume c stack (outcome gate) memo') := by
  induction gate using acyclic.induction with
  | step gate ih =>
    intro stack memo right
    exact goes_children acyclic settles ih (c.children gate) [] rfl rfl right

/-- The machine stops with what an evaluation finds, and what it leaves remembered is right. -/
theorem goes_start {d : DDnnf α} (wellFormed : d.circuit.WellFormed) (inside : gate < d.circuit.size)
    (right : Right d.circuit d.memo) :
    ∃ memo, Right d.circuit memo ∧
      Goes d.circuit (start d.circuit d.memo gate) (halted (d.probabilityOf gate).1 memo) := by
  obtain ⟨outcome, settles⟩ := exists_settles (α := α) wellFormed.acyclic
  rw [probabilityOf_fst wellFormed inside right settles]
  unfold start
  cases found : d.memo[gate]? with
  | some p =>
    rw [right outcome settles gate p found]
    exact ⟨d.memo, right, .refl _⟩
  | none =>
    obtain ⟨memo, right', goes⟩ := goes_frame wellFormed.acyclic settles gate [] d.memo right
    have last : resume d.circuit [] (outcome gate) memo = halted (outcome gate) memo := by
      cases outcome gate <;> rfl
    rw [last] at goes
    exact ⟨memo, right', goes⟩

end Provenance.DDnnf
