import Provenance.Proofs.Circuit.Chance
import Provenance.Proofs.DDnnf.Memo

/-!
# Products and sums

The evaluation of a d-DNNF finds any weights of the gates that follow its rules: products for
conjunctions, sums for disjunctions, complements for negations (`Weighs`, `probabilityOf_eq_ok`).  It may
start from weights that were remembered, if they are right.  Where the children of conjunctions read
different inputs and those of disjunctions exclude each other, the chances of the gates follow the rules
(`weighs_chance`).
-/

namespace Provenance.DDnnf

open Provenance.Order Provenance.Network

/-- Whether the weight of a gate is what products and sums make of the weights of its children. -/
def Weighs (c : Circuit Rat) (weight : Nat → Rat) (gate : Nat) : Prop :=
  match c.kind gate with
  | .input => weight gate = c.prob gate
  | .and => weight gate = ((c.children gate).map weight).prod
  | .or => weight gate = ((c.children gate).map weight).sum
  | .not => ∃ child, c.children gate = [child] ∧ weight gate = 1 - weight child
  | .alternative | .undetermined => False

variable {c : Circuit Rat} {weight : Nat → Rat} {gate : Nat}

/-- What the rules make of the weights of the children. -/
def combined (c : Circuit Rat) (weight : Nat → Rat) (gate : Nat) : Rat :=
  match c.kind gate with
  | .and => ((c.children gate).map weight).prod
  | .or => ((c.children gate).map weight).sum
  | .not => 1 - ((c.children gate).map weight).sum
  | _ => c.prob gate

/-- The rules give weights to the gates of a circuit without cycles. -/
theorem exists_weights (acyclic : c.Acyclic) :
    ∃ weight : Nat → Rat, ∀ gate, c.Evaluable gate → Weighs c weight gate := by
  let weight := acyclic.wellFounded.fix fun gate below =>
    combined c (fun child => if wire : child ∈ c.children gate then below child wire else 0) gate
  have unfolded : ∀ gate, weight gate = combined c weight gate := by
    intro gate
    have same : (c.children gate).map (fun child => if _ : child ∈ c.children gate then weight child else 0) =
        (c.children gate).map weight := List.map_congr_left fun child wire => dif_pos wire
    show acyclic.wellFounded.fix _ gate = _
    rw [WellFounded.fix_eq]
    unfold combined
    exact same ▸ rfl
  refine ⟨weight, fun gate evaluable => ?_⟩
  have equal := unfolded gate
  unfold combined at equal
  unfold Weighs
  cases kind : c.kind gate with
  | input | and | or => simpa only [kind] using equal
  | not =>
    obtain ⟨child, only⟩ := evaluable.onlyChild kind
    simp only [kind, only, List.map_singleton, List.sum_singleton] at equal
    exact ⟨child, only, equal⟩
  | alternative | undetermined => simp [Circuit.Evaluable, kind] at evaluable

/-- The rule of a gate finds its weight. -/
theorem finish_eq_ok (weighs : Weighs c weight gate) :
    finish c gate ((c.children gate).map weight) = .ok (weight gate) := by
  unfold finish
  unfold Weighs at weighs
  cases kind : c.kind gate with
  | input => simp only [kind] at weighs; rw [weighs]
  | and => simp only [kind] at weighs; rw [weighs]; exact congrArg _ (Scalar.product_rat _)
  | or => simp only [kind] at weighs; rw [weighs]; exact congrArg _ (Scalar.sum_rat _)
  | not =>
    simp only [kind] at weighs
    obtain ⟨child, only, equal⟩ := weighs
    rw [equal, Circuit.onlyChild, only]
    show Except.ok (Scalar.complement (Scalar.sum [weight child])) = _
    rw [Scalar.sum_rat, List.sum_singleton]
    rfl
  | alternative => simp [kind] at weighs
  | undetermined => simp [kind] at weighs

/-- The weight of a gate is found from those of its children. -/
theorem gateProbability_eq_ok {memo : Std.TreeMap Nat Rat} (weighs : Weighs c weight gate)
    (below : ∀ child ∈ c.children gate, memo[child]? = some (weight child)) :
    gateProbability c memo gate = .ok (weight gate) := by
  have children : (c.children gate).mapM
      (fun child => Outcome.ofOption (.cyclic gate) memo[child]?) =
        .ok ((c.children gate).map weight) :=
    Outcome.mapM_eq_ok fun child wire => by rw [below child wire]; rfl
  rw [gateProbability_eq_bind, children]
  exact finish_eq_ok weighs

/-- Going through gates with the children first finds all weights. -/
theorem remember_eq_ok {order : List Nat} (first : ChildrenFirst c.children order)
    (weighs : ∀ gate ∈ order, Weighs c weight gate) (before rest : List Nat)
    {memo : Std.TreeMap Nat Rat} (split : order = before ++ rest)
    (right : ∀ gate ∈ order, ∀ p, memo[gate]? = some p → p = weight gate)
    (there : ∀ gate ∈ before, memo[gate]? = some (weight gate)) :
    ∃ memo', remember c rest memo = (.ok (), memo') ∧
      ∀ gate ∈ order, memo'[gate]? = some (weight gate) := by
  induction rest generalizing before memo with
  | nil =>
    rw [List.append_nil] at split
    exact ⟨memo, rfl, split ▸ there⟩
  | cons gate rest ih =>
    have here : gate ∈ order := by simp [split]
    have split' : order = (before ++ [gate]) ++ rest := by simp [split]
    rw [remember]
    by_cases remembered : memo.contains gate = true
    · rw [if_pos remembered]
      refine ih (before ++ [gate]) split' right fun other member => ?_
      rcases List.mem_append.1 member with earlier | last
      · exact there other earlier
      · obtain rfl := List.mem_singleton.1 last
        rw [Std.TreeMap.contains_eq_isSome_getElem?, Option.isSome_iff_exists] at remembered
        obtain ⟨p, found⟩ := remembered
        rw [found, right other here p found]
    · rw [if_neg remembered, gateProbability_eq_ok (weighs gate here) fun child wire =>
        there child (first before gate rest split child wire)]
      have found : ∀ other, (memo.insert gate (weight gate))[other]? =
          if gate = other then some (weight gate) else memo[other]? := by
        intro other
        rw [Std.TreeMap.getElem?_insert]
        simp only [Nat.compare_eq_eq]
      refine ih (before ++ [gate]) split' (fun other member p => ?_) fun other member => ?_
      · rw [found]
        split
        · rename_i same
          exact fun equal => same ▸ (Option.some.inj equal).symm
        · exact right other member p
      · rw [found]
        split
        · rename_i same
          rw [same]
        · rename_i different
          refine there other ((List.mem_append.1 member).resolve_right fun last => different ?_)
          exact (List.mem_singleton.1 last).symm

/-- The evaluation of a gate finds its weight, whatever right weights are remembered already. -/
theorem probabilityOf_eq_ok {d : DDnnf Rat} (even : d.circuit.Even) (acyclic : d.circuit.Acyclic)
    (inside : d.circuit.Inside gate)
    (weighs : ∀ other, d.circuit.Reaches gate other → Weighs d.circuit weight other)
    (right : ∀ other, d.circuit.Reaches gate other → ∀ p, d.memo[other]? = some p → p = weight other) :
    (d.probabilityOf gate).1 = .ok (weight gate) := by
  have member : ∀ {other}, other ∈ d.circuit.postOrder gate ↔ d.circuit.Reaches gate other :=
    mem_postOrder even inside
  rw [probabilityOf]
  cases remembered : d.memo[gate]? with
  | some p => exact congrArg Except.ok (right gate (.refl gate) p remembered)
  | none =>
    obtain ⟨memo, computed, found⟩ := remember_eq_ok
      (childrenFirst_postOrder even inside acyclic)
      (fun other listed => weighs other (member.1 listed)) [] (d.circuit.postOrder gate) rfl
      (fun other listed => right other (member.1 listed)) fun _ none => absurd none List.not_mem_nil
    simp only [computed, Except.bind, found gate (member.2 (.refl gate))]
    rfl

/-! ## Chances -/

/-- In a deterministic decomposable formula the chances follow the rules. -/
theorem weighs_chance (inStep : c.InStep) (formula : c.IsFormula gate)
    (decomposable : c.Decomposable gate) (deterministic : c.Deterministic gate) :
    Weighs c c.chance gate := by
  have below := fun {child} (wire : child ∈ c.children gate) => formula.child wire
  have evaluable := formula.evaluable gate (.refl gate)
  have same : ∀ {event : Circuit.World → Bool}, (∀ world, c.value world gate = event world) →
      c.chance gate = chance c.prob c.inputs.toFinset event :=
    fun equal => chance_congr fun N _ => equal _
  unfold Weighs
  cases kind : c.kind gate with
  | input =>
    rw [same fun world => formula.value_input world kind]
    exact chance_input (GateSet.mem_toFinset.2 ((inStep.inputs gate).2 kind))
  | and =>
    rw [same fun world => formula.value_and world kind]
    refine chance_all (fun child wire => (below wire).dependsOn) ?_
    exact (decomposable gate (.refl gate) kind).imp fun apart =>
      Set.disjoint_left.2 fun input left right => apart input ⟨left, right⟩
  | or =>
    rw [same fun world => formula.value_or world kind]
    exact chance_any (deterministic gate (.refl gate) kind)
  | not =>
    obtain ⟨child, only⟩ := evaluable.onlyChild kind
    refine ⟨child, only, ?_⟩
    rw [same fun world => formula.value_not world kind only]
    exact chance_not
  | alternative => simp [Circuit.Evaluable, kind] at evaluable
  | undetermined => simp [Circuit.Evaluable, kind] at evaluable

/-- The evaluation of a deterministic decomposable formula finds the probability of its root. -/
theorem probability_eq_chance (inStep : c.InStep) {root : Nat} (formula : c.IsFormula root)
    (decomposable : c.Decomposable root) (deterministic : c.Deterministic root) :
    (ofCircuit c root).probability.1 = .ok (c.chance root) := by
  refine probabilityOf_eq_ok formula.even formula.acyclic formula.inside (fun gate path => ?_)
    fun gate _ p remembered => ?_
  · exact weighs_chance inStep (formula.of_reaches path)
      (fun other lower => decomposable other (path.trans lower))
      fun other lower => deterministic other (path.trans lower)
  · simp [ofCircuit] at remembered

end Provenance.DDnnf
