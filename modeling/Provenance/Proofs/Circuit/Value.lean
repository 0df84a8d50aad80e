import Provenance.Circuit.Evaluate
import Provenance.Proofs.Network.PostOrder

/-!
# The value of a gate

On an acyclic circuit the evaluation along the post-order finds the value that the gates define one
from the other: an input has its value in the world, a conjunction or a disjunction that of all its
children, a negation the opposite of its only child (`value_input`, `value_and`, `value_or`,
`value_not`).  A gate has a value when whatever it reaches is of one of these kinds (`IsFormula`),
and the value depends on the inputs that it reaches only (`value_congr`).
-/

namespace Provenance.Circuit

open Provenance.Order Provenance.Network

variable {α : Type} {c : Circuit α}

/-! ## Gates that have a value -/

/-- Whether a gate has a value once its children have one: not an alternative, not undetermined, and
no negation without exactly one child. -/
def Evaluable (c : Circuit α) (gate : Nat) : Prop :=
  match c.kind gate with
  | .input | .and | .or => True
  | .not => ∃ child, c.children gate = [child]
  | .alternative | .undetermined => False

theorem Evaluable.lt {gate : Nat} (evaluable : c.Evaluable gate) : gate < c.size := by
  by_contra outside
  have undetermined : c.kind gate = .undetermined :=
    kind_eq_default_of_le (Nat.le_of_not_lt outside)
  simp [Evaluable, undetermined] at evaluable

theorem onlyChild_eq_ok {gate child : Nat} : c.onlyChild gate = .ok child ↔ c.children gate = [child] := by
  unfold onlyChild
  split
  · rename_i other only
    simp [only]
  · rename_i several
    exact iff_of_false (fun found => by cases found) (several child)

/-- The children of an evaluable negation are one. -/
theorem Evaluable.onlyChild {gate : Nat} (evaluable : c.Evaluable gate) (kind : c.kind gate = .not) :
    ∃ child, c.children gate = [child] := by
  simpa [Evaluable, kind] using evaluable

/-- Whether a gate is the root of a formula: no cycles, and all that it reaches has a value. -/
structure IsFormula (c : Circuit α) (root : Nat) : Prop where
  even : c.Even
  acyclic : c.Acyclic
  evaluable : ∀ gate, c.Reaches root gate → c.Evaluable gate

namespace IsFormula

variable {root : Nat}

theorem inside (formula : c.IsFormula root) : c.Inside root :=
  fun gate path => (formula.evaluable gate path).lt

theorem of_reaches (formula : c.IsFormula root) {gate : Nat} (path : c.Reaches root gate) :
    c.IsFormula gate :=
  ⟨formula.even, formula.acyclic, fun other lower => formula.evaluable other (path.trans lower)⟩

theorem child (formula : c.IsFormula root) {child : Nat} (wire : child ∈ c.children root) :
    c.IsFormula child :=
  formula.of_reaches (Reaches.of_child wire (.refl child))

end IsFormula

/-- A formula is an evaluable gate whose children are formulas. -/
theorem isFormula_iff {gate : Nat} (even : c.Even) (acyclic : c.Acyclic) :
    c.IsFormula gate ↔ c.Evaluable gate ∧ ∀ child ∈ c.children gate, c.IsFormula child := by
  constructor
  · exact fun formula => ⟨formula.evaluable gate (.refl gate), fun child wire => formula.child wire⟩
  · rintro ⟨here, below⟩
    exact ⟨even, acyclic, forall_reaches_iff.2 ⟨here, fun child wire => (below child wire).evaluable⟩⟩

/-! ## Evaluation finds the values -/

/-- The value of one gate depends on those of its children only. -/
theorem gateValue_congr {world : World} {value value' : Nat → Bool} {gate : Nat}
    (same : ∀ child ∈ c.children gate, value child = value' child) :
    c.gateValue world value gate = c.gateValue world value' gate := by
  unfold gateValue
  cases kind : c.kind gate with
  | and =>
    have all : (c.children gate).all value = (c.children gate).all value' := by
      rw [Bool.eq_iff_iff, List.all_eq_true, List.all_eq_true]
      exact forall₂_congr fun child wire => by rw [same child wire]
    simp [all]
  | or =>
    have any : (c.children gate).any value = (c.children gate).any value' := by
      rw [Bool.eq_iff_iff, List.any_eq_true, List.any_eq_true]
      exact exists_congr fun child => and_congr_right fun wire => by rw [same child wire]
    simp [any]
  | not =>
    simp only [onlyChild]
    cases children : c.children gate with
    | nil => rfl
    | cons child rest =>
      cases rest with
      | nil => simp [Except.map, same child (by simp [children])]
      | cons _ _ => rfl
  | _ => rfl

/-- Values of the gates below a root, each got from those of its children. -/
def Respects (c : Circuit α) (world : World) (value : Nat → Bool) (root : Nat) : Prop :=
  ∀ gate, c.Reaches root gate → c.gateValue world value gate = .ok (value gate)

/-- An evaluable gate has a value, whatever the values of its children. -/
theorem Evaluable.gateValue {gate : Nat} (evaluable : c.Evaluable gate) (world : World)
    (value : Nat → Bool) : ∃ result, c.gateValue world value gate = .ok result := by
  unfold Circuit.gateValue
  cases kind : c.kind gate with
  | not =>
    obtain ⟨child, only⟩ := evaluable.onlyChild kind
    exact ⟨!value child, by simp [Circuit.onlyChild, only, Except.map]⟩
  | alternative => simp [Evaluable, kind] at evaluable
  | undetermined => simp [Evaluable, kind] at evaluable
  | _ => exact ⟨_, rfl⟩

/-- The evaluable gates of an acyclic circuit have values. -/
theorem exists_values (acyclic : c.Acyclic) (world : World) :
    ∃ value : Nat → Bool, ∀ gate, c.Evaluable gate →
      c.gateValue world value gate = .ok (value gate) := by
  let value := acyclic.wellFounded.fix fun gate below =>
    (c.gateValue world
      (fun child => if wire : child ∈ c.children gate then below child wire else false)
      gate).toOption.getD false
  have unfolded : ∀ gate, value gate = (c.gateValue world value gate).toOption.getD false := by
    intro gate
    show acyclic.wellFounded.fix _ gate = _
    rw [WellFounded.fix_eq]
    refine congrArg (·.toOption.getD false) (gateValue_congr fun child wire => ?_)
    simp [wire, value]
  refine ⟨value, fun gate evaluable => ?_⟩
  obtain ⟨result, computed⟩ := evaluable.gateValue world value
  rw [unfolded gate, computed]
  rfl

/-- Evaluating gates behind their children fills the table with their values. -/
theorem values_eq_ok {world : World} {value : Nat → Bool} {order : List Nat}
    (first : ChildrenFirst c.children order)
    (respects : ∀ gate ∈ order, c.gateValue world value gate = .ok (value gate))
    (inside : ∀ gate ∈ order, gate < c.size) (before rest : List Nat) {table : Array Bool}
    (split : order = before ++ rest) (size : table.size = c.size)
    (filled : ∀ gate ∈ before, table.getD gate false = value gate) :
    ∃ table', c.values world rest table = .ok table' ∧
      ∀ gate ∈ order, table'.getD gate false = value gate := by
  induction rest generalizing before table with
  | nil =>
    refine ⟨table, rfl, ?_⟩
    simpa [split] using filled
  | cons gate rest ih =>
    have here : gate ∈ order := by simp [split]
    have same : c.gateValue world (table.getD · false) gate = .ok (value gate) := by
      rw [← respects gate here]
      exact gateValue_congr fun child wire => filled child (first before gate rest split child wire)
    simp only [values, same]
    refine ih (before ++ [gate]) (by simp [split]) (by simpa using size) ?_
    intro other member
    have inside : gate < table.size := size ▸ inside gate here
    by_cases this : gate = other
    · subst this
      simp [Array.getD_eq_getD_getElem?, inside]
    · have earlier : other ∈ before := by
        simpa [eq_comm, this] using member
      rw [← filled other earlier]
      simp [Array.getD_eq_getD_getElem?, this]

/-- The evaluation of a root gives the value that respects the gates below it. -/
theorem evaluate_eq_ok {world : World} {value : Nat → Bool} {root : Nat} (even : c.Even)
    (acyclic : c.Acyclic) (inside : c.Inside root) (respects : c.Respects world value root) :
    c.evaluate root world = .ok (value root) := by
  have member : ∀ {gate}, gate ∈ c.postOrder root ↔ c.Reaches root gate :=
    mem_postOrder even inside
  obtain ⟨table, computed, filled⟩ := values_eq_ok (childrenFirst_postOrder even inside acyclic)
    (fun gate listed => respects gate (member.1 listed))
    (fun gate listed => inside gate (member.1 listed)) [] (c.postOrder root) rfl
    (Array.size_replicate : (Array.replicate c.size false).size = c.size) (by simp)
  simp only [evaluate, evaluateInOrder, computed, getLast?_postOrder even inside, Option.map_some,
    Option.getD_some, filled root (member.2 (.refl root))]

/-- The value of a gate in a world; false where there is none. -/
def value (c : Circuit α) (world : World) (gate : Nat) : Bool :=
  match c.evaluate gate world with
  | .ok value => value
  | .error _ => false

/-- Only one assignment of values respects the gates below a root. -/
theorem value_eq_of_respects {world : World} {value : Nat → Bool} {root : Nat}
    (formula : c.IsFormula root) (respects : c.Respects world value root) :
    c.value world root = value root := by
  simp [Circuit.value, evaluate_eq_ok formula.even formula.acyclic formula.inside respects]

namespace IsFormula

variable {root : Nat} (formula : c.IsFormula root) (world : World)

include formula

theorem respects_value : c.Respects world (c.value world) root := by
  obtain ⟨value, defined⟩ := exists_values formula.acyclic world
  have same : ∀ gate, c.Reaches root gate → c.value world gate = value gate := fun gate path =>
    value_eq_of_respects (formula.of_reaches path) fun other lower =>
      defined other (formula.evaluable other (path.trans lower))
  intro gate path
  rw [same gate path, ← defined gate (formula.evaluable gate path)]
  exact gateValue_congr fun child wire => same child (path.child wire)

/-- The evaluation of a formula does not fail. -/
theorem evaluate : c.evaluate root world = .ok (c.value world root) :=
  evaluate_eq_ok formula.even formula.acyclic formula.inside (formula.respects_value world)

theorem gateValue : c.gateValue world (c.value world) root = .ok (c.value world root) :=
  formula.respects_value world root (.refl root)

theorem value_input (kind : c.kind root = .input) :
    c.value world root = world root := by
  simpa [Circuit.gateValue, kind, eq_comm] using formula.gateValue world

theorem value_and (kind : c.kind root = .and) :
    c.value world root = (c.children root).all (c.value world) := by
  simpa [Circuit.gateValue, kind, eq_comm] using formula.gateValue world

theorem value_or (kind : c.kind root = .or) :
    c.value world root = (c.children root).any (c.value world) := by
  simpa [Circuit.gateValue, kind, eq_comm] using formula.gateValue world

theorem value_not (kind : c.kind root = .not) {child : Nat}
    (only : c.children root = [child]) : c.value world root = !c.value world child := by
  simpa [Circuit.gateValue, kind, onlyChild, only, Except.map, eq_comm]
    using formula.gateValue world

end IsFormula

/-! ## Only formulas have values -/

theorem evaluable_of_gateValue {world : World} {value : Nat → Bool} {gate : Nat} {result : Bool}
    (computed : c.gateValue world value gate = .ok result) : c.Evaluable gate := by
  unfold Circuit.gateValue at computed
  unfold Evaluable
  cases kind : c.kind gate with
  | input => trivial
  | and => trivial
  | or => trivial
  | not =>
    cases only : c.onlyChild gate with
    | ok child => exact ⟨child, onlyChild_eq_ok.1 only⟩
    | error failure => simp [kind, only, Except.map] at computed
  | alternative => simp [kind, Outcome.fail] at computed
  | undetermined => simp [kind, Outcome.fail] at computed

theorem evaluable_of_values {world : World} {order : List Nat} {table table' : Array Bool}
    (computed : c.values world order table = .ok table') : ∀ gate ∈ order, c.Evaluable gate := by
  induction order generalizing table with
  | nil => exact fun _ none => absurd none List.not_mem_nil
  | cons gate order ih =>
    rw [values] at computed
    cases first : c.gateValue world (table.getD · false) gate with
    | error failure =>
      simp only [first] at computed
      cases computed
    | ok result =>
      simp only [first] at computed
      exact List.forall_mem_cons.2 ⟨evaluable_of_gateValue first, ih computed⟩

/-- A root that has a value in some world is that of a formula. -/
theorem isFormula_of_evaluate (even : c.Even) (acyclic : c.Acyclic) {root : Nat} (inside : c.Inside root)
    {world : World} {result : Bool} (evaluated : c.evaluate root world = .ok result) : c.IsFormula root := by
  refine ⟨even, acyclic, fun gate path => ?_⟩
  rw [Circuit.evaluate, evaluateInOrder] at evaluated
  cases computed : c.values world (c.postOrder root) (Array.replicate c.size false) with
  | error failure => simp [computed] at evaluated
  | ok table => exact evaluable_of_values computed gate ((mem_postOrder even inside).2 path)

/-- Other gates have no value. -/
theorem value_eq_false (even : c.Even) (acyclic : c.Acyclic) {gate : Nat} (inside : c.Inside gate)
    (other : ¬ c.IsFormula gate) (world : World) : c.value world gate = false := by
  unfold value
  cases evaluated : c.evaluate gate world with
  | ok result => exact absurd (isFormula_of_evaluate even acyclic inside evaluated) other
  | error failure => rfl

/-! ## What a value depends on -/

/-- Whether a gate reads an input: reaches it. -/
def Reads (c : Circuit α) (gate input : Nat) : Prop :=
  c.Reaches gate input ∧ c.kind input = .input

theorem Reads.of_child {gate child input : Nat} (wire : child ∈ c.children gate)
    (reads : c.Reads child input) : c.Reads gate input :=
  ⟨Reaches.of_child wire reads.1, reads.2⟩

/-- A gate reads itself, if it is an input, and what its children read. -/
theorem reads_iff {gate input : Nat} : c.Reads gate input ↔
    input = gate ∧ c.kind input = .input ∨ ∃ child ∈ c.children gate, c.Reads child input := by
  constructor
  · rintro ⟨path, kind⟩
    rcases Reaches.cases_iff.1 path with same | ⟨child, wire, lower⟩
    · exact Or.inl ⟨same, kind⟩
    · exact Or.inr ⟨child, wire, lower, kind⟩
  · rintro (⟨rfl, kind⟩ | ⟨child, wire, reads⟩)
    · exact ⟨.refl input, kind⟩
    · exact reads.of_child wire

/-- What is no input reads what its children read. -/
theorem reads_iff_of_ne_input {gate input : Nat} (other : c.kind gate ≠ .input) :
    c.Reads gate input ↔ ∃ child ∈ c.children gate, c.Reads child input := by
  rw [reads_iff]
  exact or_iff_right fun here => other (here.1 ▸ here.2)

/-- Values do not depend on inputs that are not read. -/
theorem value_congr {world world' : World} {root : Nat} (formula : c.IsFormula root)
    (same : ∀ input, c.Reads root input → world input = world' input) :
    c.value world root = c.value world' root := by
  refine value_eq_of_respects formula fun gate path => ?_
  have value := formula.respects_value world' gate path
  rw [← value]
  unfold gateValue
  cases kind : c.kind gate with
  | input => simp [same gate ⟨path, kind⟩]
  | _ => rfl

/-- In circuits that agree on what a root reaches it reaches the same gates, reads the same inputs and has the
same values. -/
theorem reaches_of_agree {c' : Circuit α} {root gate : Nat}
    (same : ∀ gate, c.Reaches root gate → c'.children gate = c.children gate) :
    c'.Reaches root gate ↔ c.Reaches root gate := by
  constructor
  · intro path
    induction path with
    | refl => exact .refl root
    | tail path wire ih =>
      have wire : _ ∈ c'.children _ := wire
      exact ih.child (same _ ih ▸ wire)
  · intro path
    induction path with
    | refl => exact .refl root
    | tail path wire ih =>
      have wire : _ ∈ c.children _ := wire
      exact ih.child (same _ path ▸ wire)

theorem reads_of_agree {c' : Circuit α} {root input : Nat}
    (children : ∀ gate, c.Reaches root gate → c'.children gate = c.children gate)
    (kinds : ∀ gate, c.Reaches root gate → c'.kind gate = c.kind gate) :
    c'.Reads root input ↔ c.Reads root input := by
  unfold Reads
  rw [reaches_of_agree children]
  exact and_congr_right fun path => by rw [kinds input path]

theorem value_of_agree {c' : Circuit α} {world : World} {root : Nat} (formula : c.IsFormula root)
    (formula' : c'.IsFormula root)
    (children : ∀ gate, c.Reaches root gate → c'.children gate = c.children gate)
    (kinds : ∀ gate, c.Reaches root gate → c'.kind gate = c.kind gate) :
    c'.value world root = c.value world root := by
  refine value_eq_of_respects formula' fun gate path => ?_
  have path := (reaches_of_agree children).1 path
  rw [← formula.respects_value world gate path]
  simp only [gateValue, onlyChild, kinds gate path, children gate path]

end Provenance.Circuit
