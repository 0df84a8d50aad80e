import Provenance.Proofs.Cnf.Tseytin
import Provenance.Proofs.Nnf.Terms

/-!
# Forgetting the variables of other gates

In a formula with the models of an encoding the literals of gates other than inputs may count as true.  A
term that holds in a world as far as inputs go is extended to an assignment, because a decomposable formula
mentions no variable twice in it (`exists_assignment`); that assignment is a model, so it gives every gate
its value in the world (`holds_of_inputHolds`).  Hence the formula says in each world whether the root is
true (`reading_inputHolds`), and terms that are never true together stay so.  The weights of the terms are
their chances, and add up to that of the root (`reading_literalWeight`).
-/

namespace Provenance.Nnf

open Provenance.Circuit (World holds_iff_of_agrees isFormula_of_tseytin varCount_of_tseytin lt_of_input)

/-- Whether a literal of an input holds in a world; other literals count as true. -/
def inputHolds {α : Type} (c : Circuit α) (world : World) (l : Literal) : Bool :=
  if c.kind l.index = .input then l.holds world else true

variable {c : Circuit Rat} {term : List Literal}

/-- A term that mentions no variable twice and holds as far as inputs go holds in some assignment. -/
theorem exists_assignment (once : (term.map Literal.index).Nodup) {world : World}
    (holds : term.all (inputHolds c world) = true) : ∃ assignment : Nat → Bool,
      (∀ input, c.kind input = .input → assignment input = world input) ∧
        term.all (·.holds assignment) = true := by
  refine ⟨fun index => if c.kind index = .input then world index else decide (⟨index, true⟩ ∈ term),
    fun input kind => if_pos kind, List.all_eq_true.2 fun l listed => ?_⟩
  have input_holds := List.all_eq_true.1 holds l listed
  unfold inputHolds at input_holds
  unfold Literal.holds at input_holds ⊢
  by_cases kind : c.kind l.index = .input
  · rw [if_pos kind] at input_holds
    simpa only [if_pos kind] using input_holds
  · simp only [if_neg kind]
    -- another literal of this variable would be the same one
    have only : (⟨l.index, true⟩ : Literal) ∈ term ↔ l.positive = true := by
      constructor
      · intro positive
        exact congrArg Literal.positive (List.inj_on_of_nodup_map once listed positive rfl)
      · intro positive
        have same : (⟨l.index, true⟩ : Literal) = l := by rw [← positive]
        rwa [same]
    simp [decide_eq_decide.2 only]

/-! ## Chances of terms -/

/-- The chance of a term is the product of the weights of its literals. -/
theorem chance_inputHolds (inStep : c.InStep) (once : (term.map Literal.index).Nodup) :
    chance c.prob c.inputs.toFinset (fun world => term.all (inputHolds c world)) =
      termWeight c.literalWeight term := by
  have depends : ∀ l ∈ term, DependsOn (fun world => inputHolds c world l) {l.index} := by
    intro l _ world world' same
    have same : world l.index = world' l.index := same l.index rfl
    simp only [inputHolds, Literal.holds, same]
  have apart : term.Pairwise fun l l' => Disjoint ({l.index} : Set Nat) {l'.index} := by
    refine (List.pairwise_map.1 once).imp fun different => ?_
    exact Set.disjoint_singleton.2 different
  rw [chance_all depends apart, termWeight]
  refine congrArg List.prod (List.map_congr_left fun l _ => ?_)
  have weight := c.literalWeight_eq l.index l.positive
  by_cases input : l.index ∈ c.inputs
  · have kind := (inStep.inputs l.index).1 input
    have member := GateSet.mem_toFinset.2 input
    rw [if_pos input] at weight
    rw [weight]
    simp only [inputHolds, if_pos kind, Literal.holds]
    have positive : chance c.prob c.inputs.toFinset (fun world => world l.index) = c.prob l.index :=
      chance_input member
    cases l.positive with
    | true => simpa using positive
    | false => simpa [chance_not] using positive
  · have kind := mt (inStep.inputs l.index).2 input
    rw [if_neg input] at weight
    rw [weight]
    simp only [inputHolds, if_neg kind, chance_true]

/-! ## Formulas with the models of an encoding -/

/-- What a compiler gives for a formula in clauses: a decomposable formula about the same variables with the
same models. -/
structure Compiles (formula : Cnf) (nodes : List NnfNode) (position : Nat) : Prop where
  ordered : Ordered nodes
  inside : position < nodes.length
  known : ∀ l, .literal l ∈ nodes → l.index < formula.varCount
  decomposable : Decomposable nodes position
  models : ∀ assignment, value assignment nodes position = formula.holds assignment

section Encoding

variable {root : Nat} {formula : Cnf} (wellFormed : c.WellFormed) (made : c.tseytin root = .ok formula)
  (inside : root < c.size) {nodes : List NnfNode} {position : Nat}
  (compiles : Compiles formula nodes position)

include wellFormed made inside compiles

/-- When a term holds as far as inputs go the root is true, and the term holds in the assignment of the
values of all gates. -/
theorem Compiles.holds_of_inputHolds (listed : term ∈ terms nodes position) {world : World}
    (holds : term.all (inputHolds c world) = true) :
    c.value world root = true ∧ term.all (·.holds (c.value world)) = true := by
  have once := nodup_of_mem_terms compiles.ordered compiles.inside compiles.decomposable term listed
  obtain ⟨assignment, agrees, assigned⟩ := exists_assignment once holds
  have model : formula.holds assignment = true := by
    rw [← compiles.models, value, ← any_terms compiles.ordered _ compiles.inside]
    exact List.any_eq_true.2 ⟨term, listed, assigned⟩
  obtain ⟨values, root_true⟩ := (holds_iff_of_agrees wellFormed made inside agrees).1 model
  have same : ∀ gate < c.size, c.value world gate = assignment gate := by
    intro gate small
    rw [Circuit.value, values gate small]
  refine ⟨(same root inside).trans root_true, List.all_eq_true.2 fun l member => ?_⟩
  obtain ⟨other, _, literal⟩ := literal_of_mem_terms compiles.ordered compiles.inside term listed member
  have small := compiles.known l (List.mem_of_getElem? literal)
  rw [varCount_of_tseytin wellFormed made inside] at small
  have assigned := List.all_eq_true.1 assigned l member
  unfold Literal.holds at assigned ⊢
  rwa [same l.index small]

/-- As far as inputs go the formula holds where the root is true. -/
theorem Compiles.reading_inputHolds (world : World) :
    reading (truth (inputHolds c world)) nodes position = c.value world root := by
  rw [← any_terms compiles.ordered _ compiles.inside, Bool.eq_iff_iff]
  constructor
  · intro some_term
    obtain ⟨term, listed, holds⟩ := List.any_eq_true.1 some_term
    exact (compiles.holds_of_inputHolds wellFormed made inside listed holds).1
  · intro root_true
    have isFormula : ∀ {gate}, gate < c.size → c.IsFormula gate := isFormula_of_tseytin wellFormed made
    have agrees : ∀ input, c.kind input = .input → c.value world input = world input :=
      fun input kind => (isFormula (lt_of_input kind)).value_input world kind
    have model := (holds_iff_of_agrees wellFormed made inside agrees).2
      ⟨fun gate small => (isFormula small).evaluate world, root_true⟩
    rw [← compiles.models, value, ← any_terms compiles.ordered _ compiles.inside] at model
    obtain ⟨term, listed, assigned⟩ := List.any_eq_true.1 model
    refine List.any_eq_true.2 ⟨term, listed, List.all_eq_true.2 fun l member => ?_⟩
    have assigned := List.all_eq_true.1 assigned l member
    unfold inputHolds
    split
    · rename_i kind
      unfold Literal.holds at assigned ⊢
      rwa [← agrees l.index kind]
    · rfl

/-- The weights of a deterministic formula, as far as inputs go, add up to the chance of the root. -/
theorem Compiles.reading_literalWeight (deterministic : Deterministic nodes position) :
    reading (sums c.literalWeight) nodes position = c.chance root := by
  have once := nodup_of_mem_terms compiles.ordered compiles.inside compiles.decomposable
  -- two terms that hold in one world would hold together in the assignment of the values of all gates
  have apart : ∀ world, (terms nodes position).Pairwise fun s t =>
      ¬ (s.all (inputHolds c world) = true ∧ t.all (inputHolds c world) = true) := by
    intro world
    refine (pairwise_terms compiles.ordered compiles.inside deterministic (c.value world)).imp_of_mem ?_
    intro s t listed listed' apart both
    exact apart ⟨(compiles.holds_of_inputHolds wellFormed made inside listed both.1).2,
      (compiles.holds_of_inputHolds wellFormed made inside listed' both.2).2⟩
  calc reading (sums c.literalWeight) nodes position
      = ((terms nodes position).map (termWeight c.literalWeight)).sum :=
        (sum_terms compiles.ordered _ compiles.inside).symm
    _ = ((terms nodes position).map fun term =>
          chance c.prob c.inputs.toFinset fun world => term.all (inputHolds c world)).sum :=
        congrArg List.sum (List.map_congr_left fun term listed =>
          (chance_inputHolds wellFormed.inStep (once term listed)).symm)
    _ = chance c.prob c.inputs.toFinset fun world =>
          (terms nodes position).any fun term => term.all (inputHolds c world) :=
        (chance_any apart).symm
    _ = c.chance root := chance_congr fun N _ =>
        (any_terms compiles.ordered _ compiles.inside).trans
          (compiles.reading_inputHolds wellFormed made inside _)

end Encoding

end Provenance.Nnf
