import Mathlib.Algebra.BigOperators.Group.Finset.Piecewise
import Provenance.Cnf.Tseytin
import Provenance.Proofs.Circuit.Chance
import Provenance.Proofs.Circuit.Classes
import Provenance.Proofs.Outcome

/-!
# Models of the encoding of a circuit

The clauses of a gate say that its variable is the value of the gate on the variables of its children
(`satisfies_gateClauses`).  On a circuit without cycles this leaves one assignment for each world, the
values of the gates (`satisfies_definitions_iff`); the last clause selects the worlds in which the root is
true.  So models and such worlds are in bijection (`bijOn_models`), and as only inputs have weights, the
weight of a model is the probability of its world.
-/

namespace Provenance

open Circuit (World among)

/-! ## Clauses -/

/-- Whether an assignment makes some literal of each clause true. -/
def Satisfies (assignment : Nat → Bool) (clauses : List Clause) : Prop :=
  ∀ clause ∈ clauses, clause.any (·.holds assignment) = true

theorem satisfies_append {assignment : Nat → Bool} {left right : List Clause} :
    Satisfies assignment (left ++ right) ↔ Satisfies assignment left ∧ Satisfies assignment right :=
  List.forall_mem_append

@[simp] theorem Literal.holds_pos (assignment : Nat → Bool) (index : Nat) :
    (Literal.pos index).holds assignment = assignment index := by
  simp [Literal.holds, Literal.pos]

@[simp] theorem Literal.holds_neg (assignment : Nat → Bool) (index : Nat) :
    (Literal.neg index).holds assignment = !assignment index := by
  simp [Literal.holds, Literal.neg]

namespace Cnf

theorem holds_iff {formula : Cnf} {assignment : Nat → Bool} :
    formula.holds assignment = true ↔ Satisfies assignment formula.clauses := List.all_eq_true

/-- The models of a formula, as the sets of variables that are true. -/
def models (formula : Cnf) : Finset (Finset Nat) :=
  (Finset.range formula.varCount).powerset.filter fun M => formula.holds (among M)

/-- The number of variables is not more than needed. -/
theorem varCount_ofClauses {least : Nat} {clauses : List Clause}
    (inside : ∀ clause ∈ clauses, ∀ l ∈ clause, l.index < least) :
    (ofClauses least clauses).varCount = least := by
  have inside : ∀ l ∈ clauses.flatten, l.index < least := by
    intro l listed
    obtain ⟨clause, member, listed⟩ := List.mem_flatten.1 listed
    exact inside clause member l listed
  show clauses.flatten.foldl (fun count l => max count (l.index + 1)) least = least
  generalize clauses.flatten = literals at inside
  induction literals with
  | nil => rfl
  | cons l rest ih =>
    have first := inside l List.mem_cons_self
    rw [List.foldl_cons, Nat.max_eq_left first]
    exact ih fun other listed => inside other (List.mem_cons_of_mem l listed)

end Cnf

namespace Circuit

open Literal (pos neg)

variable {α : Type} {c : Circuit α} {gate root : Nat}

/-! ## The clauses of a gate -/

/-- A gate has clauses when it is evaluable. -/
theorem exists_gateClauses_iff :
    (∃ clauses, c.gateClauses gate = .ok clauses) ↔ c.Evaluable gate := by
  unfold gateClauses Evaluable
  cases kind : c.kind gate with
  | not =>
    simp only [Outcome.map_eq_ok, onlyChild]
    cases c.children gate with
    | nil => simp
    | cons child rest => cases rest <;> simp
  | _ => simp

/-- The clauses of a gate say that it has the value that its children give it. -/
theorem satisfies_gateClauses {clauses : List Clause} (made : c.gateClauses gate = .ok clauses)
    (assignment : Nat → Bool) (world : World) : Satisfies assignment clauses ↔
      (c.kind gate ≠ .input → c.gateValue world assignment gate = .ok (assignment gate)) := by
  unfold gateClauses at made
  unfold gateValue
  cases kind : c.kind gate with
  | input =>
    simp only [kind, Except.ok.injEq] at made
    subst made
    simp [Satisfies]
  | and =>
    simp only [kind, Except.ok.injEq] at made
    subst made
    rw [satisfies_append]
    cases value : assignment gate with
    | false => simp [Satisfies, value]
    | true => simp [Satisfies, value]
  | or =>
    simp only [kind, Except.ok.injEq] at made
    subst made
    rw [satisfies_append]
    cases value : assignment gate with
    | false => simp [Satisfies, value]
    | true => simp [Satisfies, value]
  | not =>
    simp only [kind, Outcome.map_eq_ok] at made
    obtain ⟨child, only, rfl⟩ := made
    simp only [only, Except.map, Satisfies]
    cases value : assignment gate <;> cases below : assignment child <;> simp [value, below]
  | alternative => simp [kind] at made
  | undetermined => simp [kind] at made

theorem index_lt_of_gateClauses (within : ∀ gate, ∀ child ∈ c.children gate, child < c.size)
    (small : gate < c.size) {clauses : List Clause} (made : c.gateClauses gate = .ok clauses) :
    ∀ clause ∈ clauses, ∀ l ∈ clause, l.index < c.size := by
  have within := within gate
  unfold gateClauses at made
  cases kind : c.kind gate with
  | input =>
    simp only [kind, Except.ok.injEq] at made
    simp [← made]
  | and =>
    simp only [kind, Except.ok.injEq] at made
    subst made
    simpa [or_imp, forall_and, pos, neg, small] using within
  | or =>
    simp only [kind, Except.ok.injEq] at made
    subst made
    simpa [or_imp, forall_and, pos, neg, small] using within
  | not =>
    simp only [kind, Outcome.map_eq_ok, onlyChild] at made
    obtain ⟨child, only, rfl⟩ := made
    split at only
    · rename_i listed
      obtain rfl := Except.ok.inj only
      have inside := within _ (listed ▸ List.mem_singleton_self _)
      simp [pos, neg, small, inside]
    · simp at only
  | alternative => simp [kind] at made
  | undetermined => simp [kind] at made

/-! ## The formula -/

/-- The encoding exists when all gates are evaluable. -/
theorem exists_tseytin_iff :
    (∃ formula, c.tseytin root = .ok formula) ↔ ∀ gate < c.size, c.Evaluable gate := by
  simp only [tseytin, Outcome.bind_eq_ok, ← exists_gateClauses_iff]
  constructor
  · rintro ⟨_, clauses, made, _⟩ gate small
    obtain ⟨own, _, made⟩ := (Outcome.mem_of_mapM made).1 gate (List.mem_range.2 small)
    exact ⟨own, made⟩
  · intro each
    choose! own made using each
    exact ⟨_, _, Outcome.mapM_eq_ok fun gate listed => made gate (List.mem_range.1 listed), rfl⟩

theorem tseytin_eq_error_iff :
    (∃ failure, c.tseytin root = .error failure) ↔ ∃ gate < c.size, ¬ c.Evaluable gate := by
  rw [← not_iff_not]
  push Not
  rw [← exists_tseytin_iff]
  cases c.tseytin root with
  | error failure => simp
  | ok formula => simp

section Encoding

variable {formula : Cnf} (wellFormed : c.WellFormed) (made : c.tseytin root = .ok formula)

include wellFormed made

/-- All gates of a circuit that has an encoding are evaluable. -/
theorem isFormula_of_tseytin {gate : Nat} (small : gate < c.size) : c.IsFormula gate :=
  wellFormed.isFormula (exists_tseytin_iff.1 ⟨formula, made⟩) small

/-- Each world leaves one assignment that satisfies the definitions, the values of the gates. -/
theorem satisfies_definitions_iff {definitions : List Clause}
    (defines : ∀ assignment world, Satisfies assignment definitions ↔
      ∀ gate < c.size, c.kind gate ≠ .input →
        c.gateValue world assignment gate = .ok (assignment gate))
    (assignment : Nat → Bool) (world : World) :
    (∀ input, c.kind input = .input → assignment input = world input) ∧
        Satisfies assignment definitions ↔
      ∀ gate < c.size, c.evaluate gate world = .ok (assignment gate) := by
  have formula : ∀ {gate}, gate < c.size → c.IsFormula gate := isFormula_of_tseytin wellFormed made
  rw [defines assignment world]
  constructor
  · rintro ⟨agrees, values⟩ gate small
    have respects : c.Respects world assignment gate := by
      intro other path
      have small := wellFormed.inside small other path
      by_cases kind : c.kind other = .input
      · rw [agrees other kind, Circuit.gateValue, kind]
      · exact values other small kind
    rw [(formula small).evaluate, value_eq_of_respects (formula small) respects]
  · intro evaluated
    have value : ∀ gate < c.size, c.value world gate = assignment gate := by
      intro gate small
      have found := evaluated gate small
      rw [(formula small).evaluate] at found
      exact Except.ok.inj found
    refine ⟨fun input kind => ?_, fun gate small _ => ?_⟩
    · have small := lt_of_input kind
      rw [← value input small, (formula small).value_input world kind]
    · rw [← value gate small, ← (formula small).gateValue world]
      exact gateValue_congr fun child wire => (value child (wellFormed.within gate child wire)).symm

variable (inside : root < c.size)

include inside

/-- The formula consists of the definitions of the variables and the clause of the root. -/
theorem exists_definitions : ∃ definitions : List Clause,
    formula = ⟨c.size, definitions ++ [[pos root]]⟩ ∧
      ∀ assignment world, Satisfies assignment definitions ↔ ∀ gate < c.size, c.kind gate ≠ .input →
        c.gateValue world assignment gate = .ok (assignment gate) := by
  simp only [tseytin, Outcome.bind_eq_ok, Except.ok.injEq] at made
  obtain ⟨clauses, made, rfl⟩ := made
  obtain ⟨each, origin⟩ := Outcome.mem_of_mapM made
  have origin : ∀ own ∈ clauses, ∃ gate < c.size, c.gateClauses gate = .ok own := by
    intro own listed
    obtain ⟨gate, member, made⟩ := origin own listed
    exact ⟨gate, List.mem_range.1 member, made⟩
  have indices : ∀ clause ∈ clauses.flatten ++ [[pos root]], ∀ l ∈ clause, l.index < c.size := by
    intro clause listed l there
    rcases List.mem_append.1 listed with listed | last
    · obtain ⟨own, listed, member⟩ := List.mem_flatten.1 listed
      obtain ⟨gate, small, made⟩ := origin own listed
      exact index_lt_of_gateClauses wellFormed.within small made clause member l there
    · obtain rfl := List.mem_singleton.1 last
      obtain rfl := List.mem_singleton.1 there
      exact inside
  refine ⟨clauses.flatten, ?_, fun assignment world => ?_⟩
  · exact congrArg (Cnf.mk · _) (Cnf.varCount_ofClauses indices)
  · constructor
    · intro satisfied gate small
      obtain ⟨own, listed, made⟩ := each gate (List.mem_range.2 small)
      refine (satisfies_gateClauses made assignment world).1 fun clause member => ?_
      exact satisfied clause (List.mem_flatten.2 ⟨own, listed, member⟩)
    · intro values clause member
      obtain ⟨own, listed, member⟩ := List.mem_flatten.1 member
      obtain ⟨gate, small, made⟩ := origin own listed
      exact (satisfies_gateClauses made assignment world).2 (values gate small) clause member

theorem varCount_of_tseytin : formula.varCount = c.size := by
  obtain ⟨_, rfl, _⟩ := exists_definitions wellFormed made inside
  rfl

/-- An assignment that goes with a world satisfies the formula when it gives each gate its value and the
root is true. -/
theorem holds_iff_of_agrees {assignment : Nat → Bool} {world : World}
    (agrees : ∀ input, c.kind input = .input → assignment input = world input) :
    formula.holds assignment = true ↔
      (∀ gate < c.size, c.evaluate gate world = .ok (assignment gate)) ∧ assignment root = true := by
  obtain ⟨definitions, rfl, defines⟩ := exists_definitions wellFormed made inside
  have last : Satisfies assignment [[pos root]] ↔ assignment root = true := by
    simp [Satisfies]
  rw [Cnf.holds_iff, satisfies_append, last,
    ← satisfies_definitions_iff wellFormed made defines assignment world, and_iff_right agrees]

/-- A set of variables is a model when it is the set of gates that are true in the world of its inputs,
and the root is one of them. -/
theorem mem_models {M : Finset Nat} : M ∈ formula.models ↔ M ⊆ Finset.range c.size ∧ root ∈ M ∧
    ∀ gate < c.size, c.evaluate gate (among (M ∩ c.inputs.toFinset)) = .ok (among M gate) := by
  have agrees : ∀ input, c.kind input = .input →
      among M input = among (M ∩ c.inputs.toFinset) input := by
    intro input kind
    have member := (wellFormed.inStep.inputs input).2 kind
    simp [among, member]
  rw [Cnf.models, Finset.mem_filter, Finset.mem_powerset, varCount_of_tseytin wellFormed made inside,
    holds_iff_of_agrees wellFormed made inside agrees, and_comm (a := root ∈ M)]
  simp [among]

/-- The values of the gates in a world in which the root is true are a model. -/
theorem exists_model {W : Finset Nat} (inputs : W ⊆ c.inputs.toFinset)
    (root_true : c.evaluate root (among W) = .ok true) :
    ∃ M ∈ formula.models, M ∩ c.inputs.toFinset = W := by
  have isFormula : ∀ {gate}, gate < c.size → c.IsFormula gate := isFormula_of_tseytin wellFormed made
  obtain ⟨M, values⟩ : ∃ M, M = (Finset.range c.size).filter
      fun gate => c.value (among W) gate = true := ⟨_, rfl⟩
  have member : ∀ {gate}, gate < c.size → (gate ∈ M ↔ c.value (among W) gate = true) := by
    intro gate small
    rw [values, Finset.mem_filter, Finset.mem_range, and_iff_right small]
  have world : M ∩ c.inputs.toFinset = W := by
    ext input
    rw [Finset.mem_inter, GateSet.mem_toFinset]
    have truth : c.kind input = .input → (input ∈ M ↔ input ∈ W) := by
      intro kind
      have small := lt_of_input kind
      rw [member small, (isFormula small).value_input _ kind]
      simp [among]
    constructor
    · rintro ⟨there, listed⟩
      exact (truth ((wellFormed.inStep.inputs input).1 listed)).1 there
    · intro there
      have listed := GateSet.mem_toFinset.1 (inputs there)
      exact ⟨(truth ((wellFormed.inStep.inputs input).1 listed)).2 there, listed⟩
  refine ⟨M, (mem_models wellFormed made inside).2 ⟨?_, ?_, fun gate small => ?_⟩, world⟩
  · rw [values]
    exact Finset.filter_subset _ _
  · rw [(isFormula inside).evaluate] at root_true
    exact (member inside).2 (Except.ok.inj root_true)
  · rw [world, (isFormula small).evaluate, among, Bool.decide_congr (member small), Bool.decide_eq_true]

/-- Each model is found from its inputs, and these are the worlds in which the root is true. -/
theorem bijOn_models : Set.BijOn (· ∩ c.inputs.toFinset) formula.models
    {W | W ⊆ c.inputs.toFinset ∧ c.evaluate root (among W) = .ok true} := by
  have models := fun {M} => mem_models (M := M) wellFormed made inside
  refine ⟨fun M model => ?_, fun M model M' model' same => ?_, fun W ⟨inputs, root_true⟩ => ?_⟩
  · obtain ⟨_, root_true, values⟩ := models.1 model
    exact ⟨Finset.inter_subset_right, by rw [values root inside]; simp [among, root_true]⟩
  · obtain ⟨small, _, values⟩ := models.1 model
    obtain ⟨small', _, values'⟩ := models.1 model'
    ext gate
    by_cases inside : gate < c.size
    · have found := values gate inside
      rw [show M ∩ c.inputs.toFinset = M' ∩ c.inputs.toFinset from same, values' gate inside] at found
      exact (decide_eq_decide.1 (Except.ok.inj found)).symm
    · have outside := mt Finset.mem_range.1 inside
      exact iff_of_false (fun there => outside (small there)) fun there => outside (small' there)
  · exact exists_model wellFormed made inside inputs root_true

end Encoding

/-! ## Weights -/

section Weights

variable {c : Circuit Rat} {root : Nat} {formula : Cnf}

/-- The weight that the encoding gives to a literal, one when it gives none. -/
def literalWeight (c : Circuit Rat) (l : Literal) : Rat := (c.literalWeights.lookup l).getD 1

/-- The weight of an assignment of the variables of a formula. -/
def modelWeight (c : Circuit Rat) (formula : Cnf) (M : Finset Nat) : Rat :=
  ∏ index ∈ Finset.range formula.varCount, c.literalWeight ⟨index, among M index⟩

/-- Only literals of inputs have weights. -/
theorem literalWeight_eq (index : Nat) (positive : Bool) : c.literalWeight ⟨index, positive⟩ =
    if index ∈ c.inputs then if positive then c.prob index else 1 - c.prob index else 1 := by
  unfold literalWeight literalWeights
  simp only [GateSet.mem_def]
  induction c.inputs.toList with
  | nil => rfl
  | cons input rest ih =>
    rw [List.flatMap_cons, List.cons_append, List.cons_append, List.nil_append, List.lookup_cons,
      List.lookup_cons]
    by_cases same : index = input
    · subst same
      have opposite : ((⟨index, false⟩ : Literal) == pos index) = false := by simp [pos]
      cases positive with
      | true => simp [pos]
      | false => simp [opposite, neg, Scalar.complement]
    · have left : ((⟨index, positive⟩ : Literal) == pos input) = false := by simp [pos, same]
      have right : ((⟨index, positive⟩ : Literal) == neg input) = false := by simp [neg, same]
      rw [left, right]
      simpa [same] using ih

/-- The weight of an assignment is the probability of the world of its inputs. -/
theorem modelWeight_eq (inside : ∀ input ∈ c.inputs, input < formula.varCount) (M : Finset Nat) :
    c.modelWeight formula M = exactly c.prob c.inputs.toFinset (M ∩ c.inputs.toFinset) := by
  have subset : c.inputs.toFinset ⊆ Finset.range formula.varCount := fun input member =>
    Finset.mem_range.2 (inside input member)
  have others : ∀ index ∈ Finset.range formula.varCount, index ∉ c.inputs.toFinset →
      c.literalWeight ⟨index, among M index⟩ = 1 := by
    intro index _ other
    rw [literalWeight_eq, if_neg (mt GateSet.mem_toFinset.2 other)]
  have factors : ∀ input ∈ c.inputs.toFinset, c.literalWeight ⟨input, among M input⟩ =
      if input ∈ M then c.prob input else 1 - c.prob input := by
    intro input member
    rw [literalWeight_eq, if_pos (GateSet.mem_toFinset.1 member)]
    simp [among]
  rw [modelWeight, ← Finset.prod_subset subset others, Finset.prod_congr rfl factors,
    Finset.prod_ite, exactly]
  congr 2
  · rw [Finset.inter_comm, Finset.filter_mem_eq_inter]
  · ext input
    simp

/-- The weights of the models add up to the chance of the root. -/
theorem sum_modelWeight (wellFormed : c.WellFormed) (made : c.tseytin root = .ok formula)
    (inside : root < c.size) : ∑ M ∈ formula.models, c.modelWeight formula M = c.chance root := by
  have size := varCount_of_tseytin wellFormed made inside
  have small : ∀ input ∈ c.inputs, input < formula.varCount := fun input member =>
    size ▸ lt_of_input ((wellFormed.inStep.inputs input).1 member)
  have bijection := bijOn_models wellFormed made inside
  have formula_root := isFormula_of_tseytin wellFormed made inside
  rw [chance, Provenance.chance]
  refine Finset.sum_nbij (· ∩ c.inputs.toFinset) (fun M model => ?_) bijection.injOn
    (fun W there => ?_) fun M _ => modelWeight_eq small M
  · obtain ⟨subset, evaluated⟩ := bijection.mapsTo model
    rw [formula_root.evaluate] at evaluated
    exact Finset.mem_filter.2 ⟨Finset.mem_powerset.2 subset, Except.ok.inj evaluated⟩
  · obtain ⟨subset, value⟩ := Finset.mem_filter.1 there
    refine bijection.surjOn ⟨Finset.mem_powerset.1 subset, ?_⟩
    rw [formula_root.evaluate]
    exact congrArg Except.ok value

end Weights

/-! ## The encoding -/

/-- The encoding fails only on gates that have no clauses.  Otherwise each world leaves one assignment of
the variables that satisfies all clauses but the last one, the values of the gates; the models are in
bijection with the worlds in which the root is true; and their weights, as the encoding gives them, add up
to the probability of the root. -/
theorem tseytin_spec {c : Circuit Rat} {root : Nat} (wellFormed : c.WellFormed) (inside : root < c.size) :
    ((∃ failure, c.tseytin root = .error failure) ↔ ∃ gate < c.size, c.kind gate = .alternative ∨
      c.kind gate = .undetermined ∨ c.kind gate = .not ∧ (c.children gate).length ≠ 1) ∧
    ∀ formula, c.tseytin root = .ok formula → formula.varCount = c.size ∧
      (∃ definitions, formula.clauses = definitions ++ [[pos root]] ∧
        ∀ world : World, (∃ assignment : Nat → Bool,
            ∀ gate < c.size, c.evaluate gate world = .ok (assignment gate)) ∧
          ∀ assignment : Nat → Bool,
            (∀ input, c.kind input = .input → assignment input = world input) ∧
                Satisfies assignment definitions ↔
              ∀ gate < c.size, c.evaluate gate world = .ok (assignment gate)) ∧
      Set.BijOn (· ∩ c.inputs.toFinset) formula.models
        {W | W ⊆ c.inputs.toFinset ∧ c.evaluate root (among W) = .ok true} ∧
      c.cnfText root true =
        .ok (formula.dimacs ++ String.join (c.literalWeights.map weightLine)) ∧
      ∑ M ∈ formula.models, c.modelWeight formula M = c.chance root := by
  refine ⟨tseytin_eq_error_iff.trans (exists_congr fun gate => and_congr_right fun _ => ?_),
    fun formula made => ?_⟩
  · unfold Evaluable
    cases kind : c.kind gate with
    | not => simp [List.length_eq_one_iff]
    | _ => simp
  · obtain ⟨definitions, rfl, defines⟩ := exists_definitions wellFormed made inside
    refine ⟨rfl, ⟨definitions, rfl, fun world => ⟨⟨c.value world, fun gate small => ?_⟩,
      fun assignment => ?_⟩⟩, bijOn_models wellFormed made inside, ?_,
      sum_modelWeight wellFormed made inside⟩
    · exact (isFormula_of_tseytin wellFormed made small).evaluate world
    · exact satisfies_definitions_iff wellFormed made defines assignment world
    · simp [cnfText, made, bind, Except.bind]

/-- The models of the encoding of the conjunction of two inputs weigh its probability. -/
theorem tseytin_conjunction : conjunction.WellFormed ∧ 2 < conjunction.size ∧
    ∃ formula, conjunction.tseytin 2 = .ok formula ∧ formula.varCount = 3 ∧
      ∑ M ∈ formula.models, conjunction.modelWeight formula M = conjunction.chance 2 := by
  have inside : 2 < conjunction.size := by decide
  obtain ⟨_, spec⟩ := tseytin_spec wellFormed_conjunction inside
  obtain ⟨size, _, _, _, sum⟩ := spec _ rfl
  exact ⟨wellFormed_conjunction, inside, _, rfl, size, sum⟩

end Circuit

end Provenance
