import Provenance.Proofs.Circuit.Choice
import Provenance.Proofs.Circuit.Likelihood

/-!
# The expansion of alternatives keeps likelihoods

After the expansion of one key a choice made by new inputs tells which of its alternatives is true, if any,
each with its weight (`Decides`, `exists_decides`).  The choice is independent of everything else, so a gate
has the likelihood that it had while the key selected the alternative (`Decides.likelihood`).

Key after key the alternatives disappear (`Settles`), and with them all that is left of the likelihoods is
the chance that inputs give (`expandAlternatives_faithful`).
-/

namespace Provenance.Circuit

open Provenance.Network

variable {c c' c'' : Circuit Rat} {group : List Nat} {key : Nat}

/-! ## Sums of weights -/

theorem back?_getD {sums : Array Rat} {n : Nat} (size : sums.size = n + 1) :
    sums.back?.getD Scalar.zero = sums.getD n 0 := by
  rw [Array.getD_eq_getD_getElem?, Array.back?, size, Nat.add_sub_cancel]
  rfl

/-- The entries of the cumulated weights are the sums of the first weights. -/
theorem cumulated_spec (weights : List Rat) : (cumulated weights).size = weights.length + 1 ∧
    ∀ n ≤ weights.length, (cumulated weights).getD n 0 = (weights.take n).sum := by
  induction weights using List.reverseRecOn with
  | nil =>
    refine ⟨rfl, fun n inside => ?_⟩
    obtain rfl := Nat.le_zero.1 inside
    rfl
  | append_singleton weights weight ih =>
    obtain ⟨size, sums⟩ := ih
    have last : (cumulated weights).back?.getD Scalar.zero = weights.sum := by
      rw [back?_getD size, sums weights.length (Nat.le_refl _), List.take_length]
    have pushed : cumulated (weights ++ [weight]) = (cumulated weights).push (weights.sum + weight) := by
      rw [← last]
      simp only [cumulated, List.foldl_append, List.foldl_cons, List.foldl_nil]
    rw [pushed, Array.size_push, size, List.length_append, List.length_singleton]
    refine ⟨rfl, fun n inside => ?_⟩
    rcases Nat.lt_succ_iff_lt_or_eq.1 (Nat.lt_succ_of_le inside) with small | rfl
    · have small : n ≤ weights.length := Nat.le_of_lt_succ small
      rw [List.take_append_of_le_length small, ← sums n small]
      rw [Table.getD_push, size, if_neg (Nat.ne_of_lt (Nat.lt_succ_of_le small))]
    · rw [List.take_of_length_le (by simp), List.sum_append, List.sum_singleton]
      rw [Table.getD_push, size, if_pos rfl]

theorem back?_cumulated (weights : List Rat) :
    (cumulated weights).back?.getD Scalar.zero = weights.sum := by
  obtain ⟨size, sums⟩ := cumulated_spec weights
  rw [back?_getD size, sums weights.length (Nat.le_refl _), List.take_length]

/-! ## Leaves become conjunctions -/

/-- Some gates have become conjunctions, and nothing else has changed. -/
structure Conjoined (c : Circuit Rat) (group : List Nat) (c' : Circuit Rat) : Prop where
  inStep : c'.InStep
  size : c'.size = c.size
  kind : ∀ gate, c'.kind gate = if gate ∈ group then .and else c.kind gate
  children : c'.children = c.children
  name? : c'.name? = c.name?
  prob : ∀ gate, gate ∉ group → c'.prob gate = c.prob gate
  key? : ∀ gate, gate ∉ group → c'.key? gate = c.key? gate

theorem Conjoined.toConjunction (inStep : c.InStep) {gate : Nat} (small : gate < c.size) :
    c.Conjoined [gate] (c.toConjunction gate) := by
  have kinds := kind_setKind c gate .and
  refine
    { inStep := ((inStep.setKind .and small).setProb Scalar.one).dropKey
      size := size_setKind c gate .and
      kind := fun other => ?_
      children := rfl
      name? := rfl
      prob := fun other different => ?_
      key? := fun other different => ?_ }
  · exact (kinds other small).trans (if_congr List.mem_singleton.symm rfl rfl)
  · have different : other ≠ gate := List.mem_singleton.not.1 different
    have set := prob_setProb (c.setKind gate .and) gate other Scalar.one
      (by rw [(inStep.setKind .and small).probs, size_setKind]; exact small)
    rw [if_neg different] at set
    exact set
  · have different : other ≠ gate := List.mem_singleton.not.1 different
    show (c.keys.erase gate)[other]? = c.keys[other]?
    rw [Std.TreeMap.getElem?_erase, if_neg fun same => different (compare_eq_iff_eq.1 same).symm]

theorem Conjoined.trans {rest : List Nat} (first : c.Conjoined group c') (second : c'.Conjoined rest c'') :
    c.Conjoined (group ++ rest) c'' where
  inStep := second.inStep
  size := second.size.trans first.size
  kind gate := by
    rw [second.kind, first.kind]
    simp only [List.mem_append]
    split_ifs <;> simp_all
  children := second.children.trans first.children
  name? := second.name?.trans first.name?
  prob gate outside := by
    have outside := not_or.1 (mt List.mem_append.2 outside)
    rw [second.prob gate outside.2, first.prob gate outside.1]
  key? gate outside := by
    have outside := not_or.1 (mt List.mem_append.2 outside)
    rw [second.key? gate outside.2, first.key? gate outside.1]

theorem Conjoined.foldl (inStep : c.InStep) (small : ∀ gate ∈ group, gate < c.size) :
    c.Conjoined group (group.foldl Circuit.toConjunction c) := by
  induction group generalizing c with
  | nil => exact ⟨inStep, rfl, fun gate => by simp, rfl, rfl, fun _ _ => rfl, fun _ _ => rfl⟩
  | cons gate rest ih =>
    have first := Conjoined.toConjunction inStep (small gate List.mem_cons_self)
    refine first.trans (ih first.inStep fun other listed => ?_)
    rw [first.size]
    exact small other (List.mem_cons_of_mem gate listed)

/-! ## The alternatives of one key -/

/-- The gates of a group have become conjunctions of new gates.  In each world at most one of them is true,
as a choice says that new inputs make. -/
structure Decides (c : Circuit Rat) (group : List Nat) (pick : World → Option Nat) (c' : Circuit Rat) :
    Prop where
  inStep : c'.InStep
  size_le : c.size ≤ c'.size
  kind : ∀ gate < c.size, c'.kind gate = if gate ∈ group then .and else c.kind gate
  children : ∀ gate < c.size, gate ∉ group → c'.children gate = c.children gate
  name? : ∀ gate < c.size, c'.name? gate = c.name? gate
  prob : ∀ gate < c.size, gate ∉ group → c'.prob gate = c.prob gate
  key? : ∀ gate, gate ∉ group → c'.key? gate = c.key? gate
  fresh : ∀ gate, c.size ≤ gate → c'.kind gate ≠ .alternative
  takes : ∀ world, ∀ gate ∈ group, c'.Takes world gate (decide (pick world = some gate))
  picks : ∀ world gate, pick world = some gate → gate ∈ group
  dependsOn : DependsOn pick {gate | c.size ≤ gate}
  chance : ∀ gate ∈ group, Provenance.chance c'.prob c'.inputs.toFinset
    (fun world => decide (pick world = some gate)) = c.prob gate

/-- The weights of a group are complete, or what they leave is too much for a rounding error. -/
def ClearTotal (total : Rat) : Prop := total = 1 ∨ total < 1 ∧ Scalar.tolerance ≤ 1 - total

theorem tolerance_pos : (0 : Rat) < Scalar.tolerance := by
  show (0 : Rat) < 1 / ((1000000000 : Nat) : Rat)
  norm_num

theorem almostEqual_one_rat {total : Rat} : Scalar.almostEqual total Scalar.one = true ↔
    total - 1 < Scalar.tolerance ∧ 0 - Scalar.tolerance < total - 1 := by
  rw [Scalar.almostEqual, Bool.and_eq_true]
  exact and_congr decide_eq_true_iff decide_eq_true_iff

theorem almostEqual_one_iff {total : Rat} (clear : ClearTotal total) :
    Scalar.almostEqual total Scalar.one = true ↔ total = 1 := by
  have tolerance := tolerance_pos
  rw [almostEqual_one_rat]
  constructor
  · rintro ⟨_, close⟩
    rcases clear with whole | ⟨_, much⟩
    · exact whole
    · linarith
  · rintro rfl
    constructor <;> linarith

theorem Rewired.withFront (inStep : c.InStep) (total : Rat) : c.Rewired [] (c.withFront total).2 := by
  unfold Circuit.withFront
  split
  · refine ⟨inStep, Nat.le_refl _, fun _ _ => rfl, fun _ _ _ => rfl, fun _ _ => rfl, fun _ _ => rfl, rfl,
      fun gate outside => ?_⟩
    rw [kind_of_le outside]
    decide
  · exact Rewired.addInput inStep total

/-- The gates in front of a tree are true together with the total weight. -/
theorem withFront_spec (inStep : c.InStep) {total : Rat} (clear : ClearTotal total) :
    (∀ guard ∈ (c.withFront total).1, c.size ≤ guard ∧ (c.withFront total).2.kind guard = .input) ∧
      ∀ (p : Nat → Rat) (V : Finset Nat),
        (∀ guard ∈ (c.withFront total).1, p guard = (c.withFront total).2.prob guard ∧ guard ∈ V) →
          Provenance.chance p V (fun world => (c.withFront total).1.all world) = total := by
  unfold withFront
  split
  · rename_i close
    refine ⟨fun _ none => absurd none List.not_mem_nil, fun p V _ => ?_⟩
    rw [(almostEqual_one_iff clear).1 close]
    exact chance_true
  · refine ⟨fun guard listed => ?_, fun p V given => ?_⟩
    · obtain rfl := List.mem_singleton.1 listed
      exact ⟨Nat.le_refl _, by rw [kind_addInput, if_pos rfl]⟩
    · obtain ⟨prob, member⟩ := given c.size (List.mem_singleton.2 rfl)
      simp only [List.all_cons, List.all_nil, Bool.and_true]
      rw [chance_input member, prob, prob_addInput _ inStep, if_pos rfl]

/-- New inputs are ready to decide among the gates of a group, which are not conjunctions yet. -/
structure Prepares (c : Circuit Rat) (group guards : List Nat) (tree : ChoiceTree) (c' : Circuit Rat) :
    Prop where
  rewired : c.Rewired group c'
  members : tree.members = group
  wired : c'.Wired tree guards
  balanced : tree.Balanced c'.prob c.prob
  distinct : tree.choices.Nodup
  guarding : ∀ guard ∈ guards, c.size ≤ guard ∧ guard ∉ tree.choices ∧ c'.kind guard = .input
  choosing : ∀ choice ∈ tree.choices, c.size ≤ choice
  whole : ∀ V : Finset Nat, (∀ guard ∈ guards, guard ∈ V) →
    Provenance.chance c'.prob V (fun world => guards.all world) = tree.total c.prob

section Group

variable (inStep : c.InStep) (some_gate : group ≠ []) (nodup : group.Nodup)
  (all : ∀ gate ∈ group, c.kind gate = .alternative)

include inStep some_gate nodup all

/-- The expansion of a key puts a tree behind its front and makes the leaves conjunctions. -/
theorem exists_prepares (nonneg : ∀ gate ∈ group, 0 ≤ c.prob gate)
    (clear : ClearTotal (group.map c.prob).sum) : ∃ guards tree c',
      c.Prepares group guards tree c' ∧
        c.expandGroup group = group.foldl Circuit.toConjunction c' := by
  have old : ∀ gate ∈ group, gate < c.size := fun gate listed =>
    lt_of_alternative (all gate listed)
  have positive := List.length_pos_iff.2 some_gate
  have front := Rewired.withFront inStep (group.map c.prob).sum
  obtain ⟨guarding, sure⟩ := withFront_spec inStep clear
  have prefixes : ∀ n ≤ group.toArray.size, (cumulated (group.map c.prob)).getD n 0 =
      ((group.toArray.extract 0 n).toList.map c.prob).sum := by
    intro n inside
    rw [(cumulated_spec _).2 n (by simpa using inside), Array.toList_extract]
    simp [List.map_take]
  have old' : ∀ gate ∈ group.toArray, gate < (c.withFront (group.map c.prob).sum).2.size :=
    fun gate listed => (old gate (List.mem_toArray.1 listed)).trans_le front.size_le
  obtain ⟨tree, members, planted⟩ := decisionTree_spec front.inStep old' (by simpa using nodup)
    (fun gate listed => nonneg gate (List.mem_toArray.1 listed)) prefixes
    (Nat.zero_le (group.length - 1)) (by rw [List.size_toArray]; omega) (c.withFront (group.map c.prob).sum).1
  have members : tree.members = group := by
    rw [members, Array.toList_extract, Nat.sub_add_cancel positive]
    simp
  have small : ∀ guard ∈ (c.withFront (group.map c.prob).sum).1,
      guard < (c.withFront (group.map c.prob).sum).2.size := fun guard listed =>
    lt_of_input (guarding guard listed).2
  have rewired := front.trans planted.rewired
  rw [List.nil_append, members] at rewired
  refine ⟨_, tree, _,
    { rewired := rewired
      members := members
      wired := planted.wired
      balanced := planted.balanced
      distinct := planted.distinct
      guarding := fun guard listed => ⟨(guarding guard listed).1, fun there => ?_, ?_⟩
      choosing := fun choice listed => front.size_le.trans (planted.fresh choice listed).1
      whole := fun V listed => ?_ }, ?_⟩
  · exact absurd (small guard listed) (Nat.not_lt_of_le (planted.fresh guard there).1)
  · rw [planted.rewired.kind guard (small guard listed)]
    exact (guarding guard listed).2
  · rw [ChoiceTree.total, members]
    exact sure _ V fun guard there => ⟨planted.rewired.prob guard (small guard there), listed guard there⟩
  · rw [expandGroup_eq, back?_cumulated]

/-- The expansion of a key makes new inputs decide among its alternatives. -/
theorem exists_decides (nonneg : ∀ gate ∈ group, 0 ≤ c.prob gate)
    (clear : ClearTotal (group.map c.prob).sum) : ∃ pick, c.Decides group pick (c.expandGroup group) := by
  obtain ⟨guards, tree, c', prepares, unfolded⟩ := exists_prepares inStep some_gate nodup all nonneg clear
  obtain ⟨rewired, rfl, wired, balanced, distinct, guarding, choosing, whole⟩ := prepares
  have old : ∀ gate ∈ tree.members, gate < c.size := fun gate listed =>
    lt_of_alternative (all gate listed)
  have conjoined := Conjoined.foldl rewired.inStep fun gate listed =>
    (old gate listed).trans_le rewired.size_le
  rw [← unfolded] at conjoined
  -- new gates are not in the group
  have kinds : ∀ gate, c.size ≤ gate → (c.expandGroup tree.members).kind gate = c'.kind gate := by
    intro gate outside
    rw [conjoined.kind, if_neg fun listed => absurd (old gate listed) (Nat.not_lt_of_le outside)]
  have wired : (c.expandGroup tree.members).Wired tree guards := wired.congr
    (fun gate _ => by rw [conjoined.children]) fun choice listed =>
      ⟨kinds choice (choosing choice listed), kinds _ (Nat.le_succ_of_le (choosing choice listed)),
        by rw [conjoined.children]⟩
  have inputs : ∀ guard ∈ guards, (c.expandGroup tree.members).kind guard = .input := by
    intro guard listed
    rw [kinds guard (guarding guard listed).1]
    exact (guarding guard listed).2.2
  have probs : ∀ input ∈ (c.expandGroup tree.members).inputs.toFinset,
      (c.expandGroup tree.members).prob input = c'.prob input := by
    intro input listed
    refine conjoined.prob input fun member => ?_
    have kind := (mem_inputs_toFinset conjoined.inStep).1 listed
    rw [conjoined.kind, if_pos member] at kind
    exact absurd kind (by decide)
  refine ⟨tree.pick guards,
    { inStep := conjoined.inStep
      size_le := conjoined.size ▸ rewired.size_le
      kind := fun gate small => by rw [conjoined.kind, rewired.kind gate small]
      children := fun gate small other => by rw [conjoined.children, rewired.children gate small other]
      name? := fun gate small => by rw [conjoined.name?, rewired.name? gate small]
      prob := fun gate small other => by rw [conjoined.prob gate other, rewired.prob gate small]
      key? := fun gate other => by rw [conjoined.key? gate other, rewired.key?]
      fresh := fun gate outside => by
        rw [kinds gate outside]
        exact rewired.fresh gate outside
      takes := fun world gate listed => wired.takes_pick nodup
        (fun gate listed => by rw [conjoined.kind, if_pos listed]) inputs world listed
      picks := fun world gate => ChoiceTree.mem_of_pick
      dependsOn := ChoiceTree.dependsOn_pick (fun guard listed => (guarding guard listed).1) choosing
      chance := fun gate listed => ?_ }⟩
  have member : ∀ {gate}, (c.expandGroup tree.members).kind gate = .input →
      gate ∈ (c.expandGroup tree.members).inputs.toFinset := (mem_inputs_toFinset conjoined.inStep).2
  rw [chance_congr_probs probs]
  exact ChoiceTree.chance_pick balanced distinct (fun choice there => member (wired.kind there)) nodup
    (fun guard there => (guarding guard there).2.1) (whole _ fun guard there => member (inputs guard there))
    listed

end Group

end Provenance.Circuit
