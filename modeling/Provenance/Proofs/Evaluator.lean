import Provenance.Evaluator
import Provenance.Proofs.Circuit.Categorical
import Provenance.Proofs.Circuit.ReadOnce
import Provenance.Proofs.Circuit.Worlds
import Provenance.Proofs.DDnnf.Compiled
import Provenance.Proofs.Decomposition.OfTree

/-!
# Methods agree

What an evaluator computes without a tool is an outcome that is known before (`run_probability`), so the
methods are compared by their outcomes.  Enumeration and compilation along a decomposition both give the
chance of the root in the circuit without alternatives (`possibleWorlds_treeDecomposition_spec`).  The
automatic method gives the chance by whichever way it takes, and asks a compiler once at most
(`automatic_spec`).
-/

namespace Provenance

open Provenance.Circuit

/-! ## Circuits without alternatives -/

namespace Circuit

variable {α : Type} [Scalar α] {c : Circuit α}

theorem withoutAlternatives_eq_self (inStep : c.InStep) (boolean : ∀ gate, c.kind gate ≠ .alternative) :
    c.withoutAlternatives = c := by
  refine if_pos (GateSet.isEmpty_iff.2 fun gate member => ?_)
  exact boolean gate ((inStep.alternatives gate).1 member)

/-- Where all gates have values there are no alternatives. -/
theorem withoutAlternatives_of_evaluable (inStep : c.InStep) (evaluable : ∀ gate < c.size, c.Evaluable gate) :
    c.withoutAlternatives = c := by
  refine withoutAlternatives_eq_self inStep fun gate kind => ?_
  have has_value := evaluable gate (lt_of_alternative kind)
  simp [Evaluable, kind] at has_value

/-- Without alternatives all gates have values when all others had. -/
theorem withoutAlternatives_spec (wellFormed : c.WellFormed)
    (others : ∀ gate < c.size, c.kind gate ≠ .alternative → c.Evaluable gate) :
    c.withoutAlternatives.WellFormed ∧ c.size ≤ c.withoutAlternatives.size ∧
      ∀ gate < c.withoutAlternatives.size, c.withoutAlternatives.Evaluable gate := by
  unfold withoutAlternatives
  split
  · rename_i none
    refine ⟨wellFormed, Nat.le_refl _, fun gate inside => others gate inside fun kind => ?_⟩
    exact GateSet.isEmpty_iff.1 none gate ((wellFormed.inStep.alternatives gate).2 kind)
  · exact ⟨wellFormed.expandAlternatives, size_le_expandAlternatives wellFormed.inStep,
      fun gate => evaluable_expandAlternatives wellFormed.inStep others⟩

end Circuit

namespace Evaluator

variable {m : Type → Type} [Monad m] [LawfulMonad m] {σ : Type}

/-! ## Outcomes that are known -/

section Known

variable {α β γ : Type}

@[simp] theorem pureOutcome_ok_bind (y : β) (f : β → ExceptT Failure m γ) :
    pureOutcome (.ok y) >>= f = f y :=
  ExceptT.ext (pure_bind ..)

@[simp] theorem pureOutcome_error_bind (failure : Failure) (f : β → ExceptT Failure m γ) :
    pureOutcome (.error failure) >>= f = pureOutcome (.error failure) :=
  ExceptT.ext (pure_bind ..)

theorem pureOutcome_bind (outcome : Outcome β) (f : β → Outcome γ) :
    (pureOutcome outcome >>= fun y => pureOutcome (f y) : ExceptT Failure m γ) =
      pureOutcome (outcome >>= f) := by
  cases outcome with
  | ok y => exact pureOutcome_ok_bind y _
  | error failure => exact pureOutcome_error_bind failure _

variable [Scalar α]

/-- The probability between its bounds. -/
def clamped (outcome : Outcome α) : Outcome α := outcome.map (Scalar.clamp Scalar.zero Scalar.one)

variable {e : Evaluator m σ α} {c : Circuit α} {root : Nat}

theorem probability_of_known {method : Method α} {outcome : Outcome α}
    (known : e.rawProbability c root method = pureOutcome outcome) :
    e.probability c root method = pureOutcome (clamped outcome) := by
  rw [probability, known]
  exact pureOutcome_bind outcome fun p => .ok (Scalar.clamp Scalar.zero Scalar.one p)

variable (e c root)

theorem probability_possibleWorlds : e.probability c root .possibleWorlds =
    pureOutcome (clamped (c.withoutAlternatives.possibleWorlds root e.budget)) :=
  probability_of_known rfl

theorem probability_treeDecomposition : e.probability c root .treeDecomposition =
    pureOutcome (clamped (DDnnf.ofTree c.withoutAlternatives root >>= fun d => d.probability.1)) :=
  probability_of_known (pureOutcome_bind _ _)

end Known

/-! ## Enumeration and decomposition -/

/-- Where enumeration and compilation along a decomposition both find a probability it is the same one, and
the compilation fails only when the circuit is too wide. -/
theorem possibleWorlds_treeDecomposition_spec (e : Evaluator m σ Rat) {c : Circuit Rat} {root : Nat}
    (wellFormed : c.WellFormed) (inside : root < c.size)
    (defined : ∀ gate < c.size, c.kind gate ≠ .undetermined)
    (negations : ∀ gate < c.size, c.kind gate = .not → ∃ child, c.children gate = [child]) :
    ∃ worlds tree : Outcome Rat, (e.probability c root .possibleWorlds).run = pure worlds ∧
      (e.probability c root .treeDecomposition).run = pure tree ∧
      (∀ p q, worlds = .ok p → tree = .ok q → p = q) ∧
      ∀ failure, tree = .error failure → ∃ width, Circuit.widthLimit < width ∧
        failure = .of (.treewidthExceeded width Circuit.widthLimit) := by
  have others : ∀ gate < c.size, c.kind gate ≠ .alternative → c.Evaluable gate := by
    intro gate small other
    unfold Evaluable
    cases kind : c.kind gate with
    | input | and | or => trivial
    | not => exact negations gate small kind
    | alternative => exact other kind
    | undetermined => exact defined gate small kind
  obtain ⟨wellFormed', larger, evaluable⟩ := withoutAlternatives_spec wellFormed others
  have inside' := inside.trans_le larger
  have formula := wellFormed'.isFormula evaluable inside'
  refine ⟨_, _, congrArg ExceptT.run (e.probability_possibleWorlds c root),
    congrArg ExceptT.run (e.probability_treeDecomposition c root), fun p q worlds tree => ?_,
    fun failure tree => ?_⟩
  · obtain ⟨p, enumerated, rfl⟩ := Outcome.map_eq_ok.1 worlds
    obtain ⟨q, found, rfl⟩ := Outcome.map_eq_ok.1 tree
    obtain ⟨d, compiled, found⟩ := Outcome.bind_eq_ok.1 found
    rcases DDnnf.ofTree_cases wellFormed' evaluable inside' with
      ⟨_, _, _, failed⟩ | ⟨d', compiled', chance⟩
    · rw [compiled] at failed
      cases failed
    · rw [compiled] at compiled'
      obtain rfl := Except.ok.inj compiled'
      rw [found] at chance
      rw [possibleWorlds_eq_chance wellFormed'.inStep formula enumerated, Except.ok.inj chance]
  · rcases DDnnf.ofTree_cases wellFormed' evaluable inside' with
      ⟨width, wide, _, failed⟩ | ⟨d, compiled, chance⟩
    · rw [failed] at tree
      exact ⟨width, wide, (Except.error.inj tree).symm⟩
    · simp only [compiled, bind, Except.bind, chance] at tree
      cases tree

/-- An evaluator that has a compiler at most. -/
def withCompiler (compile? : Option (String → String → Id (Outcome String))) : Evaluator Id Unit Rat :=
  ⟨⟨compile?, none⟩, .unlimited, ⟨fun _ => (0, ())⟩, ()⟩

/-- Both methods find one sixth for the conjunction of two inputs. -/
theorem possibleWorlds_treeDecomposition_conjunction :
    conjunction.WellFormed ∧ 2 < conjunction.size ∧
    (∀ gate < conjunction.size, conjunction.kind gate ≠ .undetermined) ∧
    (∀ gate < conjunction.size, conjunction.kind gate = .not →
      ∃ child, conjunction.children gate = [child]) ∧
    ((withCompiler none).probability conjunction 2 .possibleWorlds).run = pure (.ok (1 / 6)) ∧
    ((withCompiler none).probability conjunction 2 .treeDecomposition).run = pure (.ok (1 / 6)) := by
  have inside : 2 < conjunction.size := by decide
  have kinds : ∀ gate < 3, conjunction.kind gate ≠ .undetermined ∧ conjunction.kind gate ≠ .not := by
    decide
  have defined : ∀ gate < conjunction.size, conjunction.kind gate ≠ .undetermined :=
    fun gate small => (kinds gate small).1
  have negations : ∀ gate < conjunction.size, conjunction.kind gate = .not →
      ∃ child, conjunction.children gate = [child] := fun gate small kind =>
    absurd kind (kinds gate small).2
  obtain ⟨worlds, tree, enumerated, compiled, same, _⟩ := possibleWorlds_treeDecomposition_spec
    (withCompiler none) wellFormed_conjunction inside defined negations
  have sixth : worlds = .ok (1 / 6) :=
    calc worlds = clamped (conjunction.withoutAlternatives.possibleWorlds 2 .unlimited) :=
          enumerated.symm.trans (congrArg ExceptT.run (probability_possibleWorlds _ _ _))
      _ = .ok (1 / 6) := by decide +kernel
  -- the compilation need not be looked at further than that it succeeds
  have succeeds : tree.isOk = true :=
    calc tree.isOk
        = (clamped (DDnnf.ofTree conjunction.withoutAlternatives 2 >>= fun d => d.probability.1)).isOk :=
          congrArg Except.isOk (compiled.symm.trans (congrArg ExceptT.run (probability_treeDecomposition _ _ _)))
      _ = true := by decide +kernel
  obtain ⟨q, found⟩ : ∃ q, tree = .ok q := by
    cases tree with
    | ok q => exact ⟨q, rfl⟩
    | error failure => cases succeeds
  rw [← same _ _ sixth found] at found
  rw [enumerated, compiled, sixth, found]
  exact ⟨wellFormed_conjunction, inside, defined, negations, rfl, rfl⟩

/-! ## The automatic method -/

/-- What a compiler should answer for an encoding: a deterministic formula with its models, or, when there is
no model, something that is no formula. -/
def Settles (c : Circuit Rat) (encoding : Cnf) (text : String) : Prop :=
  (∃ formula, DDnnf.Answers c encoding text formula ∧
      Nnf.Deterministic formula.nodes (formula.nodes.length - 1)) ∨
    (∀ assignment, encoding.holds assignment = false) ∧ DDnnf.dialectOf text = none

/-- What settles the encoding of a circuit is read as a d-DNNF with the probability of the root. -/
theorem Settles.ofCompiled {c : Circuit Rat} {root : Nat} {encoding : Cnf} {text : String}
    (settles : Settles c encoding text) (wellFormed : c.WellFormed) (inside : root < c.size)
    (made : c.tseytin root = .ok encoding) :
    ∃ d : DDnnf Rat, DDnnf.ofCompiled c text = .ok d ∧ d.probability.1 = .ok (c.chance root) := by
  rcases settles with ⟨formula, answers, deterministic⟩ | ⟨unsatisfiable, foreign⟩
  · obtain ⟨p, projects, taken⟩ := answers.exists_projects wellFormed.inStep
    exact ⟨_, taken, answers.probability_eq_chance wellFormed made inside deterministic projects⟩
  · refine ⟨DDnnf.falsum, by rw [DDnnf.ofCompiled, foreign], ?_⟩
    have none : encoding.models = ∅ := by
      refine Finset.eq_empty_of_forall_notMem fun M model => ?_
      rw [Cnf.models, Finset.mem_filter, unsatisfiable] at model
      exact Bool.false_ne_true model.2
    have zero : c.chance root = 0 := by
      rw [← sum_modelWeight wellFormed made inside, none, Finset.sum_empty]
    rw [zero]
    rfl

section Automatic

variable (e : Evaluator m σ Rat) {c : Circuit Rat} {root : Nat}
  {compile : String → String → m (Outcome String)}

/-- The text of an encoding without weights. -/
theorem cnfText_eq_ok {encoding : Cnf} (made : c.tseytin root = .ok encoding) :
    c.cnfText root false = .ok encoding.dimacs := by
  rw [cnfText, made]
  exact congrArg Except.ok String.append_empty

/-- A compiler is asked once, for the encoding of the root. -/
theorem compiled_eq {encoding : Cnf} (compiler : e.tools.compile? = some compile)
    (made : c.tseytin root = .ok encoding) (engine : String) : e.compiled c root engine =
      ExceptT.mk (compile encoding.dimacs engine) >>= fun text => pureOutcome (DDnnf.ofCompiled c text) := by
  rw [compiled, compiler, cnfText_eq_ok made]
  exact (pureOutcome_ok_bind _ _).trans (pureOutcome_ok_bind _ _)

/-- A method that asks a compiler gives the probability of the root when the answer settles the encoding. -/
theorem run_probability_of_settles {method : Method Rat} {engine : String} {encoding : Cnf}
    {answer : m {text // Settles c encoding text}} (wellFormed : c.WellFormed) (inside : root < c.size)
    (compiler : e.tools.compile? = some compile) (made : c.tseytin root = .ok encoding)
    (asks : e.rawProbability c root method =
      e.compiled c root engine >>= fun d => pureOutcome d.probability.1)
    (answers : compile encoding.dimacs engine = (fun text => .ok text.val) <$> answer) :
    (e.probability c root method).run =
      (fun _ => .ok (Scalar.clamp 0 1 (c.chance root))) <$> compile encoding.dimacs engine := by
  have leads : ∀ text : {text // Settles c encoding text},
      (pureOutcome (DDnnf.ofCompiled c text.val) >>= fun d => pureOutcome d.probability.1 >>=
        fun p => pure (Scalar.clamp Scalar.zero Scalar.one p) : ExceptT Failure m Rat).run =
        pure (.ok (Scalar.clamp 0 1 (c.chance root))) := by
    intro text
    obtain ⟨d, taken, chance⟩ := text.property.ofCompiled wellFormed inside made
    rw [taken, pureOutcome_ok_bind, chance, pureOutcome_ok_bind]
    rfl
  rw [probability, asks, compiled_eq e compiler made, bind_assoc, bind_assoc, ExceptT.run_bind,
    ExceptT.run_mk, answers, bind_map_left, Functor.map_map]
  exact (bind_congr leads).trans (bind_pure_comp _ _)

/-- A probability needs no clamping when those of the inputs are between their bounds. -/
theorem clamp_chance (inStep : c.InStep)
    (probs : ∀ input, c.kind input = .input → 0 ≤ c.prob input ∧ c.prob input ≤ 1) :
    Scalar.clamp 0 1 (c.chance root) = c.chance root := by
  have bounds : ∀ input ∈ c.inputs.toFinset, 0 ≤ c.prob input ∧ c.prob input ≤ 1 := fun input member =>
    probs input ((inStep.inputs input).1 (GateSet.mem_toFinset.1 member))
  exact Scalar.clamp_rat (chance_nonneg bounds) (chance_le_one bounds)

/-- The automatic method gives the probability of the root whichever way it takes.  It asks the compiler only
when the closed form fails and the circuit is too wide, and then once, for the encoding of the root. -/
theorem automatic_spec (wellFormed : c.WellFormed) (inside : root < c.size)
    (evaluable : ∀ gate < c.size, c.Evaluable gate)
    (probs : ∀ input, c.kind input = .input → 0 ≤ c.prob input ∧ c.prob input ≤ 1)
    (compiler : e.tools.compile? = some compile)
    (settles : ∀ encoding, c.tseytin root = .ok encoding →
      ∃ answer : m {text // Settles c encoding text},
        compile encoding.dimacs "d4" = (fun text => .ok text.val) <$> answer) :
    (e.probability c root .automatic).run = pure (.ok (c.chance root)) ∨
      (∃ failure, c.independentEvaluation root = .error failure) ∧
      (∃ width, Circuit.widthLimit < width ∧ c.decompose Circuit.widthLimit =
        .error (.of (.treewidthExceeded width Circuit.widthLimit))) ∧
      ∃ encoding, c.tseytin root = .ok encoding ∧ c.cnfText root false = .ok encoding.dimacs ∧
        (e.probability c root .automatic).run =
          (fun _ => .ok (c.chance root)) <$> compile encoding.dimacs "d4" := by
  have formula := wellFormed.isFormula evaluable inside
  have boolean : ∀ gate, c.kind gate ≠ .alternative := by
    intro gate kind
    have has_value := evaluable gate (lt_of_kind (by rw [kind]; decide))
    simp [Evaluable, kind] at has_value
  have within : Scalar.clamp 0 1 (c.chance root) = c.chance root := clamp_chance wellFormed.inStep probs
  have known : e.rawProbability c root .automatic = pureOutcome (.ok (c.chance root)) →
      (e.probability c root .automatic).run = pure (.ok (c.chance root)) := by
    intro known
    rw [probability_of_known known]
    exact congrArg (fun p => pure (Except.ok p)) within
  cases closed : c.independentEvaluation root with
  | ok p =>
    refine Or.inl (known ?_)
    rw [← independentEvaluation_eq_chance wellFormed.inStep boolean formula closed, rawProbability, closed]
    rfl
  | error failure =>
    have raw : e.rawProbability c root .automatic = e.viaDDnnf c root .automatic := by
      rw [rawProbability, closed]
    rcases DDnnf.ofTree_cases wellFormed evaluable inside with ⟨width, wide, eliminated, failed⟩ |
      ⟨d, compiled, chance⟩
    · obtain ⟨encoding, made⟩ : ∃ encoding, c.tseytin root = .ok encoding :=
        exists_tseytin_iff.2 evaluable
      obtain ⟨answer, answers⟩ := settles encoding made
      have asks : e.ddnnf c root .automatic = e.compiled c root "d4" := by
        rw [ddnnf, withoutAlternatives_eq_self wellFormed.inStep boolean, failed]
        rfl
      refine Or.inr ⟨⟨failure, rfl⟩, ⟨width, wide, eliminated⟩, encoding, made, cnfText_eq_ok made, ?_⟩
      rw [run_probability_of_settles e wellFormed inside compiler made (by rw [raw, viaDDnnf, asks]) answers,
        within]
    · refine Or.inl (known ?_)
      rw [raw, viaDDnnf, ddnnf, withoutAlternatives_eq_self wellFormed.inStep boolean, compiled]
      exact (pureOutcome_bind _ _).trans (congrArg pureOutcome chance)

end Automatic

/-- The automatic method gives the probability of the conjunction of two inputs with a compiler that answers
for it. -/
theorem automatic_conjunction :
    conjunction.WellFormed ∧ 2 < conjunction.size ∧
    (∀ gate < conjunction.size, conjunction.Evaluable gate) ∧
    (∀ input, conjunction.kind input = .input →
      0 ≤ conjunction.prob input ∧ conjunction.prob input ≤ 1) ∧
    ∃ encoding, conjunction.tseytin 2 = .ok encoding ∧
      Settles conjunction encoding DDnnf.conjunctionAnswer ∧
      ((withCompiler (some fun _ _ => .ok DDnnf.conjunctionAnswer)).probability conjunction 2
        .automatic).run = .ok (conjunction.chance 2) := by
  have inside : 2 < conjunction.size := by decide
  have evaluable : ∀ gate < conjunction.size, conjunction.Evaluable gate := by
    intro gate small
    have small : gate < 3 := small
    obtain rfl | rfl | rfl : gate = 0 ∨ gate = 1 ∨ gate = 2 := by omega
    all_goals exact trivial
  have probs : ∀ input, conjunction.kind input = .input →
      0 ≤ conjunction.prob input ∧ conjunction.prob input ≤ 1 := by
    intro input kind
    have small : input < 3 := lt_of_input kind
    obtain rfl | rfl | rfl : input = 0 ∨ input = 1 ∨ input = 2 := by omega
    · show 0 ≤ (1 / 2 : Rat) ∧ (1 / 2 : Rat) ≤ 1
      norm_num
    · show 0 ≤ (1 / 3 : Rat) ∧ (1 / 3 : Rat) ≤ 1
      norm_num
    · exact absurd kind (by decide)
  obtain ⟨encoding, formula, made, answers, deterministic⟩ := DDnnf.answers_conjunction
  have settles : Settles conjunction encoding DDnnf.conjunctionAnswer :=
    Or.inl ⟨formula, answers, deterministic⟩
  refine ⟨wellFormed_conjunction, inside, evaluable, probs, encoding, made, settles, ?_⟩
  have spec := automatic_spec (withCompiler (some fun _ _ => .ok DDnnf.conjunctionAnswer))
    wellFormed_conjunction inside evaluable probs rfl fun encoding' made' => by
      obtain rfl := Except.ok.inj (made.symm.trans made')
      exact ⟨⟨_, settles⟩, rfl⟩
  rcases spec with found | ⟨_, _, _, _, _, found⟩
  · exact found
  · exact found

end Evaluator

end Provenance
