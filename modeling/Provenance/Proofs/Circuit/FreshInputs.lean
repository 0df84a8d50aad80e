import Provenance.Proofs.Circuit.Faithful
import Provenance.Proofs.Readers

/-!
# The probabilities of new inputs

The expansion of alternatives makes two sorts of inputs.  The choices of a decision tree have shares of weights
that are not negative, which are probabilities whatever the weights add up to (`lowerShare_isProbability`).  The
input in front of a tree has the sum of the weights of its key, which no reader bounds: the weights are looked
at one by one.  So after the expansion of a circuit that was read all inputs have probabilities if and only if
no key has weights that exceed one by more than a rounding error (`expandAlternatives_inputs`), and a text may
hold such weights (`ofText_heavyKey`).
-/

namespace Provenance

theorem isProbability_rat {p : Rat} : IsProbability p ↔ 0 ≤ p ∧ p ≤ 1 := by
  have low : Scalar.le Scalar.zero p = true ↔ 0 ≤ p := decide_eq_true_iff
  have high : Scalar.le p Scalar.one = true ↔ p ≤ 1 := decide_eq_true_iff
  exact ⟨fun between => ⟨low.1 between.nonneg, high.1 between.small⟩,
    fun ⟨nonneg, small⟩ => ⟨low.2 nonneg, high.2 small⟩⟩

namespace Circuit

variable {c c' : Circuit Rat} {group : List Nat} {P : Rat → Prop}

/-- The probability of each input has a property. -/
def EachInput (c : Circuit Rat) (P : Rat → Prop) : Prop := ∀ gate, c.kind gate = .input → P (c.prob gate)

/-! ## The choices of a tree -/

/-- Sums that do not decrease have shares between zero and one. -/
theorem lowerShare_isProbability {sums : Array Rat} {bound : Nat}
    (rising : ∀ low high, low ≤ high → high ≤ bound → sums.getD low 0 ≤ sums.getD high 0) {first last : Nat}
    (ordered : first ≤ last) (inside : last < bound) : IsProbability (lowerShare sums first last) := by
  have lower := rising first ((first + last) / 2 + 1) (by omega) (by omega)
  have upper := rising ((first + last) / 2 + 1) (last + 1) (by omega) (by omega)
  rw [isProbability_rat, lowerShare_rat]
  split
  · rename_i positive
    exact ⟨div_nonneg (sub_nonneg.2 lower) positive.le, (div_le_one₀ positive).2 (by linarith)⟩
  · exact ⟨le_refl 0, zero_le_one⟩

/-- `c'` has the gates of `c`, possibly with other children, and behind them new ones.  The inputs among these
have probabilities. -/
structure Grown (c c' : Circuit Rat) : Prop where
  inStep : c'.InStep
  size_le : c.size ≤ c'.size
  kind : ∀ gate < c.size, c'.kind gate = c.kind gate
  prob : ∀ gate < c.size, c'.prob gate = c.prob gate
  fresh : ∀ gate, c.size ≤ gate → c'.kind gate = .input → IsProbability (c'.prob gate)

namespace Grown

theorem refl (inStep : c.InStep) : c.Grown c where
  inStep := inStep
  size_le := Nat.le_refl _
  kind _ _ := rfl
  prob _ _ := rfl
  fresh _ new kind := absurd (lt_of_input kind) (Nat.not_lt_of_le new)

theorem addChoice (grown : c.Grown c') {p : Rat} (probability : IsProbability p) : c.Grown (c'.addChoice p) := by
  have rewired := Rewired.addChoice grown.inStep p
  refine
    { inStep := rewired.inStep
      size_le := grown.size_le.trans rewired.size_le
      kind := fun gate small => ?_
      prob := fun gate small => ?_
      fresh := fun gate new kind => ?_ }
  · rw [rewired.kind gate (small.trans_le grown.size_le), grown.kind gate small]
  · rw [rewired.prob gate (small.trans_le grown.size_le), grown.prob gate small]
  · rw [kind_addChoice] at kind
    rw [prob_addChoice grown.inStep]
    split_ifs at kind ⊢ with negation here
    · exact probability
    · exact grown.fresh gate new kind

theorem setChildren (grown : c.Grown c') (gate : Nat) (guards : List Nat) :
    c.Grown (c'.setChildren gate guards) :=
  ⟨grown.inStep.setChildren guards, grown.size_le, grown.kind, grown.prob, grown.fresh⟩

/-- What holds of probabilities holds of the new inputs. -/
theorem eachInput_iff (grown : c.Grown c') (weaker : ∀ p, IsProbability p → P p) :
    c'.EachInput P ↔ c.EachInput P := by
  constructor
  · intro each gate kind
    have small := lt_of_input kind
    rw [← grown.prob gate small]
    exact each gate ((grown.kind gate small).trans kind)
  · intro each gate kind
    rcases Nat.lt_or_ge gate c.size with small | new
    · rw [grown.prob gate small]
      exact each gate ((grown.kind gate small).symm.trans kind)
    · exact weaker _ (grown.fresh gate new kind)

end Grown

/-- The tree over weights that are not negative adds inputs with probabilities. -/
theorem grown_decisionTree (inStep : c.InStep) {weights : List Rat} (nonneg : ∀ weight ∈ weights, 0 ≤ weight)
    (alternatives : Array Nat) (first : Nat) {last : Nat} (inside : last < weights.length) (guards : List Nat) :
    c.Grown (c.decisionTree alternatives (cumulated weights) first last guards) := by
  have rising : ∀ low high, low ≤ high → high ≤ weights.length →
      (cumulated weights).getD low 0 ≤ (cumulated weights).getD high 0 := by
    intro low high ordered inside
    have prefixes := (cumulated_spec weights).2
    rw [prefixes low (ordered.trans inside), prefixes high inside]
    exact List.Sublist.sum_le_sum (List.take_sublist_take_left ordered)
      fun weight listed => nonneg weight (List.mem_of_mem_take listed)
  exact decisionTree_induction
    (fun c' first last ordered inside grown => grown.addChoice (lowerShare_isProbability rising ordered inside))
    (fun c' gate guards grown => grown.setChildren gate guards) inside guards (Grown.refl inStep)

/-! ## The front of a tree -/

theorem eachInput_addInput_iff (inStep : c.InStep) {p : Rat} :
    (c.addInput p).2.EachInput P ↔ c.EachInput P ∧ P p := by
  constructor
  · intro each
    refine ⟨fun gate kind => ?_, ?_⟩
    · have old : gate ≠ c.size := Nat.ne_of_lt (lt_of_input kind)
      have kept := each gate
      rw [kind_addInput, prob_addInput p inStep, if_neg old, if_neg old] at kept
      exact kept kind
    · have new := each c.size
      rw [kind_addInput, prob_addInput p inStep, if_pos rfl, if_pos rfl] at new
      exact new rfl
  · rintro ⟨each, holds⟩ gate kind
    rw [kind_addInput] at kind
    rw [prob_addInput p inStep]
    split_ifs at kind ⊢
    · exact holds
    · exact each gate kind

/-- The front has a probability unless the total is more than a rounding error above one. -/
theorem eachInput_withFront_iff (inStep : c.InStep) (weaker : ∀ p, IsProbability p → P p) {total : Rat}
    (nonneg : 0 ≤ total) :
    (c.withFront total).2.EachInput P ↔ c.EachInput P ∧ (1 + Scalar.tolerance ≤ total → P total) := by
  have tolerance := tolerance_pos
  unfold withFront
  split
  · rename_i close
    obtain ⟨above, _⟩ := almostEqual_one_rat.1 close
    rw [iff_self_and]
    exact fun _ heavy => absurd heavy (by linarith)
  · rename_i apart
    rw [almostEqual_one_rat, not_and, not_lt] at apart
    rw [eachInput_addInput_iff inStep]
    refine and_congr_right fun _ => ⟨fun holds _ => holds, fun heavy => ?_⟩
    rcases le_or_gt (1 + Scalar.tolerance) total with above | below
    · exact heavy above
    · have below := apart (by linarith)
      exact weaker total (isProbability_rat.2 ⟨nonneg, by linarith⟩)

/-! ## One key -/

section Group

theorem nonneg_of_mem_weights (nonneg : ∀ gate ∈ group, 0 ≤ c.prob gate) :
    ∀ weight ∈ group.map c.prob, 0 ≤ weight := by
  intro weight listed
  obtain ⟨gate, member, rfl⟩ := List.mem_map.1 listed
  exact nonneg gate member

variable (inStep : c.InStep) (some_gate : group ≠ []) (all : ∀ gate ∈ group, c.kind gate = .alternative)
  (nonneg : ∀ gate ∈ group, 0 ≤ c.prob gate)

include inStep some_gate all nonneg

/-- The expansion of a key adds a front, then a tree, and makes the leaves conjunctions. -/
theorem exists_grown : ∃ tree, (c.withFront (group.map c.prob).sum).2.Grown tree ∧
    tree.Conjoined group (c.expandGroup group) ∧ ∀ gate ∈ group, tree.kind gate = .alternative := by
  have front := Rewired.withFront inStep (group.map c.prob).sum
  have inside : group.length - 1 < (group.map c.prob).length := by
    rw [List.length_map]
    exact Nat.sub_lt (List.length_pos_iff.2 some_gate) Nat.one_pos
  have grown := grown_decisionTree front.inStep (nonneg_of_mem_weights nonneg) group.toArray 0 inside
    (c.withFront (group.map c.prob).sum).1
  have small : ∀ gate ∈ group, gate < (c.withFront (group.map c.prob).sum).2.size := fun gate listed =>
    (lt_of_alternative (all gate listed)).trans_le front.size_le
  refine ⟨_, grown, ?_, fun gate listed => ?_⟩
  · rw [expandGroup_eq, back?_cumulated]
    exact Conjoined.foldl grown.inStep fun gate listed => (small gate listed).trans_le grown.size_le
  · rw [grown.kind gate (small gate listed), front.kind gate (lt_of_alternative (all gate listed))]
    exact all gate listed

/-- The expansion of a key adds inputs with probabilities, but for its own weight when that is too large. -/
theorem eachInput_expandGroup_iff (weaker : ∀ p, IsProbability p → P p) :
    (c.expandGroup group).EachInput P ↔ c.EachInput P ∧
      (1 + Scalar.tolerance ≤ (group.map c.prob).sum → P (group.map c.prob).sum) := by
  obtain ⟨tree, grown, conjoined, leaves⟩ := exists_grown inStep some_gate all nonneg
  have total := List.sum_nonneg (nonneg_of_mem_weights nonneg)
  rw [← eachInput_withFront_iff inStep weaker total, ← grown.eachInput_iff weaker]
  refine forall_congr' fun gate => ?_
  by_cases listed : gate ∈ group
  · rw [conjoined.kind, if_pos listed, leaves gate listed]
    exact iff_of_true (fun kind => absurd kind (by decide)) fun kind => absurd kind (by decide)
  · rw [conjoined.kind, if_neg listed, conjoined.prob gate listed]

/-- Other gates keep their kinds and probabilities. -/
theorem kept_expandGroup : (c.expandGroup group).InStep ∧ ∀ gate < c.size, gate ∉ group →
    (c.expandGroup group).kind gate = c.kind gate ∧ (c.expandGroup group).prob gate = c.prob gate := by
  obtain ⟨tree, grown, conjoined, _⟩ := exists_grown inStep some_gate all nonneg
  have front := Rewired.withFront inStep (group.map c.prob).sum
  refine ⟨conjoined.inStep, fun gate small other => ?_⟩
  have small' := small.trans_le front.size_le
  rw [conjoined.kind, if_neg other, conjoined.prob gate other, grown.kind gate small', grown.prob gate small',
    front.kind gate small, front.prob gate small]
  exact ⟨rfl, rfl⟩

end Group

/-! ## All keys -/

/-- The weight of the alternatives of a key. -/
def weightOfKey (c : Circuit Rat) (key : Nat) : Rat := ∑ gate ∈ c.alternativesOf key, c.prob gate

theorem weightOfKey_eq (c : Circuit Rat) (key : Nat) : ((c.keyGroup key).map c.prob).sum = c.weightOfKey key :=
  sum_map_eq (c.alternatives.nodup_toList.filter _) (c.mem_keyGroup key) c.prob

section Keys

variable (inStep : c.InStep) (nonneg : ∀ gate, c.kind gate = .alternative → 0 ≤ c.prob gate)
  (weaker : ∀ p, IsProbability p → P p)

include inStep nonneg weaker

/-- The expansion of several keys, whose alternatives are as they were. -/
theorem eachInput_foldl_iff {rest : List Nat} (nodup : rest.Nodup) (present : ∀ key ∈ rest, key ∈ c.keySet)
    (inStep' : c'.InStep) (kept : ∀ key ∈ rest, ∀ gate ∈ c.keyGroup key,
      c'.kind gate = .alternative ∧ c'.prob gate = c.prob gate) :
    ((rest.map c.keyGroup).foldl expandGroup c').EachInput P ↔ c'.EachInput P ∧
      ∀ key ∈ rest, 1 + Scalar.tolerance ≤ c.weightOfKey key → P (c.weightOfKey key) := by
  induction rest generalizing c' with
  | nil => simp
  | cons key rest ih =>
    obtain ⟨new, nodup⟩ := List.nodup_cons.1 nodup
    obtain ⟨first, member⟩ := (mem_keySet inStep).1 (present key List.mem_cons_self)
    have some_gate : c.keyGroup key ≠ [] := List.ne_nil_of_mem ((mem_keyGroup c key first).2 member)
    have here := kept key List.mem_cons_self
    have kinds := fun gate listed => (here gate listed).1
    have weights : (c.keyGroup key).map c'.prob = (c.keyGroup key).map c.prob :=
      List.map_congr_left fun gate listed => (here gate listed).2
    have nonneg' : ∀ gate ∈ c.keyGroup key, 0 ≤ c'.prob gate := fun gate listed => by
      rw [(here gate listed).2]
      exact nonneg gate (kind_of_mem_alternativesOf inStep ((mem_keyGroup c key gate).1 listed))
    have step := eachInput_expandGroup_iff inStep' some_gate kinds nonneg' weaker
    obtain ⟨inStep'', others⟩ := kept_expandGroup inStep' some_gate kinds nonneg'
    rw [weights, weightOfKey_eq] at step
    rw [List.map_cons, List.foldl_cons, ih nodup (fun other listed => present other (List.mem_cons_of_mem key listed))
      inStep'' fun other listed gate member => ?_, step, List.forall_mem_cons, and_assoc]
    -- the alternatives of another key are not in the group
    obtain ⟨kind, prob⟩ := kept other (List.mem_cons_of_mem key listed) gate member
    have outside : gate ∉ c.keyGroup key := fun there => by
      have different : key ≠ other := fun same => new (same ▸ listed)
      exact Finset.disjoint_left.1 (apart_alternativesOf c different) ((mem_keyGroup c key gate).1 there)
        ((mem_keyGroup c other gate).1 member)
    obtain ⟨kind', prob'⟩ := others gate (lt_of_alternative kind) outside
    exact ⟨kind'.trans kind, prob'.trans prob⟩

theorem eachInput_expandAlternatives_iff
    (keyed : ∀ gate, c.kind gate = .alternative → ∃ key, c.key? gate = some key) :
    c.expandAlternatives.EachInput P ↔ c.EachInput P ∧
      ∀ key ∈ c.keySet, 1 + Scalar.tolerance ≤ c.weightOfKey key → P (c.weightOfKey key) := by
  obtain ⟨keys, nodup, all, groups⟩ := exists_keys inStep keyed
  have members : ∀ key, key ∈ c.keySet ↔ key ∈ keys := fun key => by rw [← all, List.mem_toFinset]
  simp only [members]
  rw [expandAlternatives, groups]
  refine eachInput_foldl_iff inStep nonneg weaker nodup (fun key listed => (members key).2 listed) inStep
    fun key _ gate listed => ⟨?_, rfl⟩
  exact kind_of_mem_alternativesOf inStep ((mem_keyGroup c key gate).1 listed)

end Keys

/-! ## Circuits that were read -/

/-- A circuit comes from records or from plain text. -/
def Read (c : Circuit Rat) : Prop := (∃ lines, ofRecordLines lines = .ok c) ∨ ∃ text, ofText text = .ok c

theorem Read.labelled (read : c.Read) : c.WellFormed ∧ ∀ gate, c.Labelled gate := by
  rcases read with ⟨lines, read⟩ | ⟨text, read⟩
  · obtain ⟨wellFormed, conforms⟩ := conforms_of_ofRecordLines read
    exact ⟨wellFormed, fun gate => (conforms gate).toLabelled⟩
  · exact labelled_of_ofText read

/-- After the expansion of a circuit that was read every input has a probability, except for those in front of
keys whose weights exceed one by more than a rounding error; so all have one just when there is no such key. -/
theorem expandAlternatives_inputs (read : c.Read) :
    (c.expandAlternatives.EachInput IsProbability ↔
      ∀ key ∈ c.keySet, c.weightOfKey key < 1 + Scalar.tolerance) ∧
    c.expandAlternatives.EachInput fun p => IsProbability p ∨
      ∃ key ∈ c.keySet, 1 + Scalar.tolerance ≤ c.weightOfKey key ∧ p = c.weightOfKey key := by
  obtain ⟨wellFormed, labelled⟩ := read.labelled
  have nonneg : ∀ gate, c.kind gate = .alternative → 0 ≤ c.prob gate := fun gate kind =>
    (isProbability_rat.1 ((labelled gate).probability (Or.inr kind))).1
  have before : c.EachInput IsProbability := fun gate kind => (labelled gate).probability (Or.inl kind)
  have keyed := fun gate => (labelled gate).key
  have tolerance := tolerance_pos
  constructor
  · rw [eachInput_expandAlternatives_iff wellFormed.inStep nonneg (fun _ => id) keyed, and_iff_right before]
    refine forall₂_congr fun key _ => ⟨fun probable => ?_, fun light heavy => absurd light (not_lt.2 heavy)⟩
    by_contra heavy
    have small := (isProbability_rat.1 (probable (not_lt.1 heavy))).2
    linarith
  · rw [eachInput_expandAlternatives_iff wellFormed.inStep nonneg (fun _ => Or.inl) keyed]
    exact ⟨fun gate kind => Or.inl (before gate kind),
      fun key listed heavy => Or.inr ⟨key, listed, heavy, rfl⟩⟩

/-- A key that is not too heavy: the weights leave a quarter. -/
theorem expandAlternatives_inputs_lightKey : ∃ c : Circuit Rat, c.Read ∧ c.keySet = {1} ∧ c.weightOfKey 1 = 3 / 4 ∧
    c.expandAlternatives.EachInput IsProbability := by
  have computed : ((ofText "2\nMULIN 0.25 1\nMULIN 0.5 1\n" : Outcome (Circuit Rat)).toOption.map fun c =>
      (c.keySet, c.weightOfKey 1)) = some ({1}, 3 / 4) := by decide +kernel
  obtain ⟨c, found, same⟩ := Outcome.toOption_map_eq_some.1 computed
  obtain ⟨keys, weight⟩ := Prod.mk.inj same
  have read : c.Read := Or.inr ⟨_, found⟩
  refine ⟨c, read, keys, weight, (expandAlternatives_inputs read).1.2 fun key listed => ?_⟩
  rw [keys, Finset.mem_singleton] at listed
  have tolerance := tolerance_pos
  rw [listed, weight]
  linarith

/-- Weights that add up to three halves, each of them a probability: the input in front has their sum. -/
theorem ofText_heavyKey : ∃ c : Circuit Rat, ofText "2\nMULIN 0.75 1\nMULIN 0.75 1\n" = .ok c ∧
    c.expandAlternatives.kind 2 = .input ∧ c.expandAlternatives.prob 2 = 3 / 2 ∧
      ¬ c.expandAlternatives.EachInput IsProbability := by
  have computed : ((ofText "2\nMULIN 0.75 1\nMULIN 0.75 1\n" : Outcome (Circuit Rat)).toOption.map fun c =>
      (c.expandAlternatives.kind 2, c.expandAlternatives.prob 2)) = some (.input, 3 / 2) := by decide +kernel
  obtain ⟨c, found, same⟩ := Outcome.toOption_map_eq_some.1 computed
  obtain ⟨kind, prob⟩ := Prod.mk.inj same
  refine ⟨c, found, kind, prob, fun each => ?_⟩
  have small := (isProbability_rat.1 (each 2 kind)).2
  rw [prob] at small
  norm_num at small

end Circuit

end Provenance
