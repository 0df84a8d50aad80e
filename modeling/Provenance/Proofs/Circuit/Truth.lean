import Mathlib.Logic.Function.DependsOn
import Provenance.Proofs.Circuit.Value

/-!
# Truth of gates with alternatives

A world that also says which alternatives are true makes other gates true or false by one rule a kind
(`Takes`).  The rules look at what a gate needs only: inputs and alternatives need no child, and nothing
follows for an undetermined gate, for a negation without exactly one child, or on a cycle.  A gate is true
or false, not both (`Takes.unique`).

Where the evaluation of a gate finds a value it is the one that the rules give (`IsFormula.takes`).
-/

namespace Provenance.Circuit

variable {α : Type} {c c' : Circuit α} {world world' : World} {gate : Nat}

/-- What a gate is in a world that tells which inputs and which alternatives are true. -/
inductive Takes (c : Circuit α) (world : World) : Nat → Bool → Prop where
  | input {gate : Nat} (kind : c.kind gate = .input) : Takes c world gate (world gate)
  | alternative {gate : Nat} (kind : c.kind gate = .alternative) : Takes c world gate (world gate)
  | and {gate : Nat} {value : Nat → Bool} (kind : c.kind gate = .and)
      (below : ∀ child ∈ c.children gate, Takes c world child (value child)) :
      Takes c world gate ((c.children gate).all value)
  | or {gate : Nat} {value : Nat → Bool} (kind : c.kind gate = .or)
      (below : ∀ child ∈ c.children gate, Takes c world child (value child)) :
      Takes c world gate ((c.children gate).any value)
  | not {gate child : Nat} {value : Bool} (kind : c.kind gate = .not)
      (only : c.children gate = [child]) (below : Takes c world child value) :
      Takes c world gate (!value)

/-! ## Rules read backwards -/

namespace Takes

variable {value other : Bool}

/-- There is one rule for the kind of the gate, and it looks at the children that a gate of the kind needs. -/
theorem kind_cases (takes : c.Takes world gate value) :
    (c.kind gate = .input ∧ value = world gate) ∨ (c.kind gate = .alternative ∧ value = world gate) ∨
    (c.kind gate = .and ∧ ∃ values : Nat → Bool, value = (c.children gate).all values ∧
      ∀ child ∈ c.children gate, c.Takes world child (values child)) ∨
    (c.kind gate = .or ∧ ∃ values : Nat → Bool, value = (c.children gate).any values ∧
      ∀ child ∈ c.children gate, c.Takes world child (values child)) ∨
    (c.kind gate = .not ∧ ∃ child, c.children gate = [child] ∧ c.Takes world child (!value)) := by
  cases takes with
  | input kind => exact Or.inl ⟨kind, rfl⟩
  | alternative kind => exact Or.inr (Or.inl ⟨kind, rfl⟩)
  | and kind below => exact Or.inr (Or.inr (Or.inl ⟨kind, _, rfl, below⟩))
  | or kind below => exact Or.inr (Or.inr (Or.inr (Or.inl ⟨kind, _, rfl, below⟩)))
  | not kind only below =>
    exact Or.inr (Or.inr (Or.inr (Or.inr ⟨kind, _, only, by rwa [Bool.not_not]⟩)))

/-- What holds of a leaf is what the world says. -/
theorem of_leaf (takes : c.Takes world gate value)
    (leaf : c.kind gate = .input ∨ c.kind gate = .alternative) : value = world gate := by
  rcases leaf with kind | kind
  · simpa [kind] using takes.kind_cases
  · simpa [kind] using takes.kind_cases

theorem of_and (takes : c.Takes world gate value) (kind : c.kind gate = .and) :
    ∃ values : Nat → Bool, value = (c.children gate).all values ∧
      ∀ child ∈ c.children gate, c.Takes world child (values child) := by
  simpa only [kind, reduceCtorEq, false_and, true_and, false_or, or_false] using takes.kind_cases

theorem of_or (takes : c.Takes world gate value) (kind : c.kind gate = .or) :
    ∃ values : Nat → Bool, value = (c.children gate).any values ∧
      ∀ child ∈ c.children gate, c.Takes world child (values child) := by
  simpa only [kind, reduceCtorEq, false_and, true_and, false_or, or_false] using takes.kind_cases

theorem of_not (takes : c.Takes world gate value) (kind : c.kind gate = .not) :
    ∃ child, c.children gate = [child] ∧ c.Takes world child (!value) := by
  simpa only [kind, reduceCtorEq, false_and, true_and, false_or] using takes.kind_cases

/-- A gate is not both true and false. -/
theorem unique (takes : c.Takes world gate value) (takes' : c.Takes world gate other) :
    value = other := by
  induction takes generalizing other with
  | input kind => exact (takes'.of_leaf (Or.inl kind)).symm
  | alternative kind => exact (takes'.of_leaf (Or.inr kind)).symm
  | and kind below ih =>
    obtain ⟨values, rfl, below'⟩ := takes'.of_and kind
    rw [Bool.eq_iff_iff, List.all_eq_true, List.all_eq_true]
    exact forall₂_congr fun child wire => by rw [ih child wire (below' child wire)]
  | or kind below ih =>
    obtain ⟨values, rfl, below'⟩ := takes'.of_or kind
    rw [Bool.eq_iff_iff, List.any_eq_true, List.any_eq_true]
    exact exists_congr fun child => and_congr_right fun wire => by
      rw [ih child wire (below' child wire)]
  | not kind only below ih =>
    obtain ⟨child, only', below'⟩ := takes'.of_not kind
    obtain rfl := List.singleton_inj.1 (only.symm.trans only')
    rw [ih below', Bool.not_not]

/-- A rule that holds in one circuit holds in another one with the same kinds, children and leaves.  Gates
that differ are left to the caller. -/
theorem transfer (within : Set Nat) (takes : c.Takes world gate value) (member : gate ∈ within)
    (agree : ∀ gate ∈ within,
      (c'.kind gate = c.kind gate ∧ c'.children gate = c.children gate ∧ world' gate = world gate ∧
        ∀ child ∈ c.children gate, child ∈ within) ∨
      ∀ value, c.Takes world gate value → c'.Takes world' gate value) :
    c'.Takes world' gate value := by
  induction takes with
  | @input gate kind =>
    rcases agree gate member with ⟨kinds, _, worlds, _⟩ | given
    · rw [← worlds]
      exact .input (kinds.trans kind)
    · exact given _ (.input kind)
  | @alternative gate kind =>
    rcases agree gate member with ⟨kinds, _, worlds, _⟩ | given
    · rw [← worlds]
      exact .alternative (kinds.trans kind)
    · exact given _ (.alternative kind)
  | @and gate values kind below ih =>
    rcases agree gate member with ⟨kinds, children, _, inside⟩ | given
    · rw [← children]
      refine .and (kinds.trans kind) fun child wire => ?_
      rw [children] at wire
      exact ih child wire (inside child wire)
    · exact given _ (.and kind below)
  | @or gate values kind below ih =>
    rcases agree gate member with ⟨kinds, children, _, inside⟩ | given
    · rw [← children]
      refine .or (kinds.trans kind) fun child wire => ?_
      rw [children] at wire
      exact ih child wire (inside child wire)
    · exact given _ (.or kind below)
  | @not gate child value kind only below ih =>
    rcases agree gate member with ⟨kinds, children, _, inside⟩ | given
    · exact .not (kinds.trans kind) (children.trans only) (ih (inside child (by simp [only])))
    · exact given _ (.not kind only below)

end Takes

/-! ## The rules and the evaluation -/

/-- The evaluation finds what the rules say. -/
theorem IsFormula.takes (formula : c.IsFormula gate) (world : World) :
    c.Takes world gate (c.value world gate) := by
  induction gate using formula.acyclic.induction with
  | _ gate ih =>
    have below : ∀ child ∈ c.children gate, c.Takes world child (c.value world child) :=
      fun child wire => ih child wire (formula.child wire)
    have evaluable := formula.evaluable gate (.refl gate)
    cases kind : c.kind gate with
    | input =>
      rw [formula.value_input world kind]
      exact .input kind
    | and =>
      rw [formula.value_and world kind]
      exact .and kind below
    | or =>
      rw [formula.value_or world kind]
      exact .or kind below
    | not =>
      obtain ⟨child, only⟩ := evaluable.onlyChild kind
      rw [formula.value_not world kind only]
      exact .not kind only (below child (by simp [only]))
    | alternative => simp [Evaluable, kind] at evaluable
    | undetermined => simp [Evaluable, kind] at evaluable

open Classical in
/-- Whether a gate is true in a world. -/
noncomputable def truth (c : Circuit α) (world : World) (gate : Nat) : Bool :=
  decide (c.Takes world gate true)

theorem truth_eq_true_iff : c.truth world gate = true ↔ c.Takes world gate true := by
  simp [truth]

theorem Takes.truth_eq {value : Bool} (takes : c.Takes world gate value) :
    c.truth world gate = value := by
  cases value with
  | true => exact truth_eq_true_iff.2 takes
  | false =>
    refine Bool.eq_false_iff.2 fun true_ => ?_
    exact absurd (takes.unique (truth_eq_true_iff.1 true_)) Bool.false_ne_true

theorem IsFormula.truth_eq_value (formula : c.IsFormula gate) (world : World) :
    c.truth world gate = c.value world gate :=
  (formula.takes world).truth_eq

/-- Whether a gate is true depends on what it reaches. -/
theorem dependsOn_truth (c : Circuit α) (gate : Nat) :
    DependsOn (fun world => c.truth world gate) {leaf | c.Reaches gate leaf} := by
  have one_way : ∀ {world world' : World} {value}, (∀ leaf, c.Reaches gate leaf → world leaf = world' leaf) →
      c.Takes world gate value → c.Takes world' gate value := by
    intro world world' value same takes
    refine takes.transfer {leaf | c.Reaches gate leaf} (.refl gate) fun other path => ?_
    exact Or.inl ⟨rfl, rfl, (same other path).symm, fun child wire => path.child wire⟩
  intro world world' same
  rw [Bool.eq_iff_iff, truth_eq_true_iff, truth_eq_true_iff]
  exact ⟨one_way same, one_way fun leaf path => (same leaf path).symm⟩

/-- Circuits with the same rules have the same truths. -/
theorem truth_congr (same : ∀ value, c.Takes world gate value ↔ c'.Takes world' gate value) :
    c.truth world gate = c'.truth world' gate := by
  rw [Bool.eq_iff_iff, truth_eq_true_iff, truth_eq_true_iff, same]

end Provenance.Circuit
