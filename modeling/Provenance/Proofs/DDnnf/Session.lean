import Provenance.DDnnf.Smooth
import Provenance.Proofs.DDnnf.Acyclic
import Provenance.Proofs.DDnnf.Frames
import Provenance.Proofs.DDnnf.Probability
import Provenance.Proofs.DDnnf.Score

/-!
# Sessions with a d-DNNF

A session evaluates gates of a d-DNNF, changes its circuit, copies it and goes on with the copy or with the
original (`Use`, `run`).  Whatever it does, the circuit has no cycles and the memo is right (`Sound.step`,
`Sound.run`): evaluations remember outcomes, conditioning remembers that of a constant, and the other changes
forget.  So no evaluation in a session shows what was evaluated before (`probabilityOf_run`), and it finds the
chance of its gate where products and sums are chances (`probabilityOf_run_eq_sum`).
-/

namespace Provenance.DDnnf

open Provenance.Circuit

/-- What may be done with a d-DNNF.  Where there is a copy, `copied` tells whether to go on with it. -/
inductive Use (α : Type) where
  /-- The probability of a gate is asked for. -/
  | probability (gate : Nat)
  /-- The circuit is changed by hand. -/
  | change (f : Circuit α → Circuit α)
  | smooth
  | binary (kind : Kind)
  | simplify
  | copy (copied : Bool)
  | condition (gate : Nat) (value copied : Bool)

variable {α : Type} [Scalar α]

/-- The d-DNNF to go on with. -/
def Use.step (d : DDnnf α) : Use α → DDnnf α
  | .probability gate => (d.probabilityOf gate).2
  | .change f => d.withCircuit (f d.circuit)
  | .smooth => d.smooth
  | .binary kind =>
    match d.binary kind with
    | .ok d' => d'
    | .error _ => d
  | .simplify => d.simplify
  | .copy copied => if copied then d.fresh else d
  | .condition gate value copied => if copied then d.condition gate value else d

/-- A use is of gates that are there, and a change by hand makes no cycle and does not remove the root. -/
def Use.Allowed (d : DDnnf α) : Use α → Prop
  | .probability gate | .condition gate _ _ => gate < d.circuit.size
  | .change f => (f d.circuit).WellFormed ∧ d.root < (f d.circuit).size
  | .smooth | .binary _ | .simplify | .copy _ => True

/-- Uses one after the other. -/
def run (d : DDnnf α) (uses : List (Use α)) : DDnnf α := uses.foldl Use.step d

/-- Whether each use is allowed when its turn comes. -/
def Allowed (d : DDnnf α) : List (Use α) → Prop
  | [] => True
  | use :: uses => use.Allowed d ∧ Allowed (use.step d) uses

/-- A d-DNNF without cycles that remembers outcomes of its gates only. -/
structure Sound (d : DDnnf α) : Prop where
  wellFormed : d.circuit.WellFormed
  inside : d.root < d.circuit.size
  right : Right d.circuit d.memo

variable {d : DDnnf α} {gate : Nat}

/-! ## What a use keeps -/

theorem sound_ofCircuit {c : Circuit α} {root : Nat} (wellFormed : c.WellFormed) (inside : root < c.size) :
    (ofCircuit c root).Sound :=
  ⟨wellFormed, inside, right_empty c⟩

/-- An evaluation changes the memo only. -/
theorem frame_probabilityOf (d : DDnnf α) (gate : Nat) :
    (d.probabilityOf gate).2.circuit = d.circuit ∧ (d.probabilityOf gate).2.root = d.root := by
  unfold DDnnf.probabilityOf
  split <;> exact ⟨rfl, rfl⟩

namespace Sound

theorem fresh (sound : d.Sound) : d.fresh.Sound := sound_ofCircuit sound.wellFormed sound.inside

theorem probabilityOf (sound : d.Sound) (inside : gate < d.circuit.size) :
    (d.probabilityOf gate).2.Sound := by
  have right := right_probabilityOf sound.wellFormed inside sound.right
  obtain ⟨same, same'⟩ := frame_probabilityOf d gate
  exact ⟨same ▸ sound.wellFormed, by rw [same, same']; exact sound.inside, by rwa [same]⟩

theorem smooth (sound : d.Sound) : d.smooth.Sound := by
  obtain ⟨wellFormed, inside⟩ := wellFormed_smooth sound.wellFormed sound.inside
  exact ⟨wellFormed, inside, right_empty _⟩

theorem simplify (sound : d.Sound) : d.simplify.Sound := by
  obtain ⟨wellFormed, inside⟩ := wellFormed_simplify sound.wellFormed sound.inside
  exact ⟨wellFormed, inside, right_empty _⟩

theorem binary (sound : d.Sound) {kind : Kind} {d' : DDnnf α} (made : d.binary kind = .ok d') : d'.Sound := by
  obtain ⟨wellFormed, inside⟩ := wellFormed_binary sound.wellFormed sound.inside made
  refine ⟨wellFormed, inside, ?_⟩
  unfold DDnnf.binary at made
  split at made
  · obtain rfl := Except.ok.inj made
    exact right_empty _
  · exact absurd made Outcome.fail_eq_ok.1

/-- The gate that is made constant has the probability that is remembered for it. -/
theorem condition (sound : d.Sound) (inside : gate < d.circuit.size) (value : Bool) :
    (d.condition gate value).Sound := by
  refine ⟨wellFormed_condition sound.wellFormed inside value, ?_, ?_⟩
  · show d.root < (((d.circuit.setKind gate _).setChildren gate []).dropName gate).size
    rw [size_dropName, size_setChildren, Circuit.size_setKind]
    exact sound.inside
  · have kind : (d.condition gate value).circuit.kind gate = if value then .and else .or := by
      refine (kind_setKind d.circuit gate _ gate inside).trans (if_pos rfl)
    have childless : (d.condition gate value).circuit.children gate = [] := by
      have there : gate < (d.circuit.setKind gate (if value then .and else .or)).wires.size := by
        show gate < d.circuit.wires.size
        rwa [sound.wellFormed.inStep.wires]
      exact (children_setChildren _ gate [] gate there).trans (if_pos rfl)
    refine (right_empty _).insert fun outcome settles => ?_
    rw [settles gate, childless]
    show finish _ gate [] = _
    rw [finish, kind]
    cases value <;> rfl

/-- Whatever is done next, no cycle and no wrong probability comes up. -/
theorem step (sound : d.Sound) {use : Use α} (allowed : use.Allowed d) : (use.step d).Sound := by
  cases use with
  | probability gate => exact sound.probabilityOf allowed
  | change f => exact sound_ofCircuit allowed.1 allowed.2
  | smooth => exact sound.smooth
  | binary kind =>
    show (match d.binary kind with | .ok d' => d' | .error _ => d).Sound
    cases made : d.binary kind with
    | ok d' => exact sound.binary made
    | error _ => exact sound
  | simplify => exact sound.simplify
  | copy copied =>
    cases copied with
    | true => exact sound.fresh
    | false => exact sound
  | condition gate value copied =>
    cases copied with
    | true => exact sound.condition allowed value
    | false => exact sound

theorem run (sound : d.Sound) {uses : List (Use α)} (allowed : Allowed d uses) : (run d uses).Sound := by
  induction uses generalizing d with
  | nil => exact sound
  | cons use uses ih => exact ih (sound.step allowed.1) allowed.2

/-- An evaluation finds the outcome of its gate. -/
theorem probabilityOf_eq (sound : d.Sound) {outcome : Nat → Outcome α} (settles : Settles d.circuit outcome)
    (inside : gate < d.circuit.size) : (d.probabilityOf gate).1 = outcome gate :=
  probabilityOf_fst sound.wellFormed inside sound.right settles

end Sound

/-! ## Evaluations in a session -/

/-- At each moment of a session the evaluation of a gate has the outcome that it has when nothing is
remembered, and so has the evaluation with a stack of frames. -/
theorem probabilityOf_run {c : Circuit α} {root : Nat} (wellFormed : c.WellFormed)
    (root_inside : root < c.size) {uses : List (Use α)} (allowed : Allowed (ofCircuit c root) uses)
    {d : DDnnf α} (session : run (ofCircuit c root) uses = d) (inside : gate < d.circuit.size) :
    (d.probabilityOf gate).1 = (d.fresh.probabilityOf gate).1 ∧
    ∃ memo, Machine.Goes d.circuit (.start d.circuit d.memo gate)
      (.halted (d.fresh.probabilityOf gate).1 memo) := by
  subst session
  have sound := (sound_ofCircuit wellFormed root_inside).run allowed
  obtain ⟨outcome, settles⟩ := exists_settles (α := α) sound.wellFormed.acyclic
  have same := (sound.probabilityOf_eq settles inside).trans
    (sound.fresh.probabilityOf_eq settles inside).symm
  obtain ⟨memo, -, goes⟩ := goes_start sound.wellFormed inside sound.right
  exact ⟨same, memo, same ▸ goes⟩

/-- A circuit gets a negation with two children, which fails once the probabilities of both are found; then a
copy has its second input made true. -/
def conditioned : List (Use Rat) :=
  [.change fun c => (c.addNode .not [0, 1]).2, .probability 3, .condition 1 true true, .probability 0]

theorem allowed_conditioned : Allowed (ofCircuit conjunction 2) conditioned := by
  have wellFormed : (conjunction.addNode .not [0, 1]).2.WellFormed :=
    (inStep_conjunction.addNode _ _ _).wellFormed (by decide)
  refine ⟨⟨wellFormed, by decide⟩, ?evaluated, ?constant, ?again, trivial⟩
  case evaluated | constant | again =>
    show _ < Network.size _
    decide +kernel

/-- The conjunction is as likely as its first input once the second one is true. -/
theorem probabilityOf_conditioned :
    (run (ofCircuit conjunction 2) conditioned).memo.toList = [(0, 1 / 2), (1, 1)] ∧
    ((run (ofCircuit conjunction 2) conditioned).probabilityOf 2).1 = .ok (1 / 2) ∧
    ((run (ofCircuit conjunction 2) conditioned).probabilityOf 2).1 =
      ((run (ofCircuit conjunction 2) conditioned).fresh.probabilityOf 2).1 :=
  ⟨by decide +kernel, by decide +kernel,
    (probabilityOf_run wellFormed_conjunction (by decide) allowed_conditioned rfl (by decide +kernel)).1⟩

/-- Where products and sums are chances, each outcome is a chance. -/
theorem Settles.eq_chance {c : Circuit Rat} {outcome : Nat → Outcome Rat} (settles : Settles c outcome)
    (inStep : c.InStep) (formula : c.IsFormula gate) (decomposable : c.Decomposable gate)
    (deterministic : c.Deterministic gate) : outcome gate = .ok (c.chance gate) := by
  induction gate using formula.acyclic.induction with
  | step gate ih =>
    have below : ∀ child ∈ c.children gate, outcome child = .ok (c.chance child) := fun child wire =>
      ih child wire (formula.child wire) (fun other path => decomposable other (.of_child wire path))
        fun other path => deterministic other (.of_child wire path)
    rw [settles gate, Outcome.mapM_eq_ok below]
    exact finish_eq_ok (weighs_chance inStep formula decomposable deterministic)

/-- At each moment of a session, the evaluation of a gate below which the children of conjunctions read
different inputs and those of disjunctions exclude each other finds the sum of the probabilities of the worlds
in which the gate is true; the evaluation with a stack of frames stops and finds it too. -/
theorem probabilityOf_run_eq_sum {c : Circuit Rat} {root : Nat} (wellFormed : c.WellFormed)
    (root_inside : root < c.size) {uses : List (Use Rat)} (allowed : Allowed (ofCircuit c root) uses)
    {d : DDnnf Rat} (session : run (ofCircuit c root) uses = d) (formula : d.circuit.IsFormula gate)
    (decomposable : d.circuit.Decomposable gate) (deterministic : d.circuit.Deterministic gate) :
    ∃ (f : Finset Nat → Bool) (p : Rat),
      (∀ world, d.circuit.evaluate gate (among world) = .ok (f world)) ∧
      p = ∑ world ∈ d.circuit.inputs.toFinset.powerset with f world,
        exactly d.circuit.prob d.circuit.inputs.toFinset world ∧
      (d.probabilityOf gate).1 = .ok p ∧
      ∃ memo, Machine.Goes d.circuit (.start d.circuit d.memo gate) (.halted (.ok p) memo) := by
  subst session
  have sound := (sound_ofCircuit wellFormed root_inside).run allowed
  have inside := formula.inside gate (.refl gate)
  obtain ⟨outcome, settles⟩ := exists_settles (α := Rat) sound.wellFormed.acyclic
  have found := (sound.probabilityOf_eq settles inside).trans
    (settles.eq_chance sound.wellFormed.inStep formula decomposable deterministic)
  obtain ⟨memo, -, goes⟩ := goes_start sound.wellFormed inside sound.right
  refine ⟨fun world => (run (ofCircuit c root) uses).circuit.value (among world) gate, _,
    fun world => formula.evaluate (among world), rfl, found, memo, found ▸ goes⟩

/-- A conjunction whose first input was evaluated before. -/
theorem probabilityOf_run_conjunction :
    ∃ d, run (ofCircuit conjunction 2) [.probability 0] = d ∧ d.memo.toList = [(0, 1 / 2)] ∧
      ∃ (f : Finset Nat → Bool) (p : Rat),
        (∀ world, d.circuit.evaluate 2 (among world) = .ok (f world)) ∧
        p = ∑ world ∈ d.circuit.inputs.toFinset.powerset with f world,
          exactly d.circuit.prob d.circuit.inputs.toFinset world ∧
        (d.probabilityOf 2).1 = .ok p ∧
        ∃ memo, Machine.Goes d.circuit (.start d.circuit d.memo 2) (.halted (.ok p) memo) := by
  have same : (run (ofCircuit conjunction 2) [.probability 0]).circuit = conjunction :=
    (frame_probabilityOf (ofCircuit conjunction 2) 0).1
  have countable := isCountable_conjunction
  rw [← same] at countable
  have allowed : Allowed (ofCircuit conjunction 2) [.probability 0] :=
    ⟨show 0 < conjunction.size by decide, trivial⟩
  exact ⟨_, rfl, by decide +kernel, probabilityOf_run_eq_sum wellFormed_conjunction (by decide) allowed rfl
    countable.formula countable.decomposable countable.deterministic⟩

end Provenance.DDnnf
