import Provenance.Proofs.Circuit.Categorical
import Provenance.Proofs.Circuit.Chance
import Provenance.Proofs.Circuit.Truth

/-!
# Choices by decision trees

A tree of inputs selects one of its leaves in every world (`ChoiceTree.selected`).  When each input has the
share that the lower half has in the weight of both halves, a leaf is selected with its share in the whole
weight (`ChoiceTree.chance_selected`).

A circuit holds a tree when the inputs and their negations are there and the leaves have those on their way
as children (`Wired`): then a leaf that is a conjunction is true when it is selected (`Wired.takes`).  The
decision tree over a range of alternatives is such a tree (`decisionTree_spec`).
-/

namespace Provenance

open Circuit (World)

/-- A tree of inputs that choose between two halves, the lower one when they are true. -/
inductive ChoiceTree where
  | leaf (gate : Nat)
  | fork (choice : Nat) (lower upper : ChoiceTree)

namespace ChoiceTree

/-- The leaves, from the lowest. -/
def members : ChoiceTree → List Nat
  | leaf gate => [gate]
  | fork _ lower upper => lower.members ++ upper.members

/-- The inputs. -/
def choices : ChoiceTree → List Nat
  | leaf _ => []
  | fork choice lower upper => choice :: (lower.choices ++ upper.choices)

/-- The leaf to which the choices of a world lead. -/
def selected (world : World) : ChoiceTree → Nat
  | leaf gate => gate
  | fork choice lower upper => if world choice then lower.selected world else upper.selected world

/-- The weight of all leaves. -/
def total (weight : Nat → Rat) (tree : ChoiceTree) : Rat := (tree.members.map weight).sum

/-- Each choice is the lower one with the share of the lower half. -/
def Balanced (p weight : Nat → Rat) : ChoiceTree → Prop
  | leaf _ => True
  | fork choice lower upper =>
    p choice * (lower.total weight + upper.total weight) = lower.total weight ∧
      lower.Balanced p weight ∧ upper.Balanced p weight

variable {p weight : Nat → Rat} {V : Finset Nat} {gate : Nat}

theorem total_fork (choice : Nat) (lower upper : ChoiceTree) :
    (fork choice lower upper).total weight = lower.total weight + upper.total weight := by
  rw [total, members, List.map_append, List.sum_append, total, total]

theorem selected_mem (tree : ChoiceTree) (world : World) : tree.selected world ∈ tree.members := by
  induction tree with
  | leaf gate => exact List.mem_singleton.2 rfl
  | fork choice lower upper left right =>
    rw [selected, members]
    split
    · exact List.mem_append_left _ left
    · exact List.mem_append_right _ right

theorem dependsOn_selected (tree : ChoiceTree) :
    DependsOn (fun world => tree.selected world) {choice | choice ∈ tree.choices} := by
  intro world world' same
  show tree.selected world = tree.selected world'
  induction tree with
  | leaf gate => rfl
  | fork choice lower upper left right =>
    rw [selected, selected, same choice List.mem_cons_self,
      left fun other listed => same other (List.mem_cons_of_mem _ (List.mem_append_left _ listed)),
      right fun other listed => same other (List.mem_cons_of_mem _ (List.mem_append_right _ listed))]

/-- A leaf of one half is selected when the choice leads there and the half selects it. -/
theorem selected_fork_eq (gate choice : Nat) (lower upper : ChoiceTree) (world : World)
    (nodup : (lower.members ++ upper.members).Nodup) :
    (gate ∈ lower.members → decide ((fork choice lower upper).selected world = gate) =
      (world choice && decide (lower.selected world = gate))) ∧
    (gate ∈ upper.members → decide ((fork choice lower upper).selected world = gate) =
      (!world choice && decide (upper.selected world = gate))) := by
  have apart := List.disjoint_of_nodup_append nodup
  constructor
  · intro member
    have other : upper.selected world ≠ gate := fun same =>
      apart member (same ▸ upper.selected_mem world)
    cases chosen : world choice with
    | true => simp [selected, chosen]
    | false => simp [selected, chosen, other]
  · intro member
    have other : lower.selected world ≠ gate := fun same =>
      apart (same ▸ lower.selected_mem world) member
    cases chosen : world choice with
    | true => simp [selected, chosen, other]
    | false => simp [selected, chosen]

theorem Balanced.congr {p' : Nat → Rat} {tree : ChoiceTree} (balanced : tree.Balanced p weight)
    (same : ∀ choice ∈ tree.choices, p' choice = p choice) : tree.Balanced p' weight := by
  induction tree with
  | leaf gate => trivial
  | fork choice lower upper left right =>
    obtain ⟨share, balanced_lower, balanced_upper⟩ := balanced
    have below := fun other listed => same other (List.mem_cons_of_mem choice listed)
    rw [← same choice List.mem_cons_self] at share
    exact ⟨share, left balanced_lower fun other listed => below other (List.mem_append_left _ listed),
      right balanced_upper fun other listed => below other (List.mem_append_right _ listed)⟩

/-- A leaf is selected with its share in the whole weight. -/
theorem chance_selected {tree : ChoiceTree} (balanced : tree.Balanced p weight)
    (distinct : tree.choices.Nodup) (inputs : ∀ choice ∈ tree.choices, choice ∈ V)
    (nodup : tree.members.Nodup) (member : gate ∈ tree.members) :
    tree.total weight * chance p V (fun world => decide (tree.selected world = gate)) = weight gate := by
  induction tree with
  | leaf other =>
    obtain rfl := List.mem_singleton.1 member
    simp [total, members, selected]
  | fork choice lower upper left right =>
    obtain ⟨share, balanced_lower, balanced_upper⟩ := balanced
    obtain ⟨new, distinct⟩ := List.nodup_cons.1 distinct
    obtain ⟨distinct_lower, distinct_upper, _⟩ := List.nodup_append.1 distinct
    obtain ⟨nodup_lower, nodup_upper, _⟩ := List.nodup_append.1 nodup
    have here : choice ∈ V := inputs choice List.mem_cons_self
    have below := fun other listed => inputs other (List.mem_cons_of_mem choice listed)
    -- the choice is independent of what the halves select
    have depends : DependsOn (fun world : World => world choice) {choice} := fun _ _ same => same choice rfl
    have depends' : DependsOn (fun world : World => !world choice) {choice} :=
      fun _ _ same => congrArg _ (same choice rfl)
    have selects : ∀ half : ChoiceTree,
        DependsOn (fun world => decide (half.selected world = gate)) {other | other ∈ half.choices} :=
      fun half _ _ same => congrArg (fun leaf => decide (leaf = gate)) (half.dependsOn_selected same)
    have events := fun world => selected_fork_eq gate choice lower upper world nodup
    rw [total_fork]
    rcases List.mem_append.1 member with member | member
    · have apart : Disjoint {choice} {other | other ∈ lower.choices} :=
        Set.disjoint_singleton_left.2 fun listed => new (List.mem_append_left _ listed)
      simp only [fun world => (events world).1 member]
      rw [chance_and apart depends (selects lower), chance_input here, ← mul_assoc, mul_comm _ (p choice),
        share]
      exact left balanced_lower distinct_lower
        (fun other listed => below other (List.mem_append_left _ listed)) nodup_lower member
    · have apart : Disjoint {choice} {other | other ∈ upper.choices} :=
        Set.disjoint_singleton_left.2 fun listed => new (List.mem_append_right _ listed)
      have rest : (lower.total weight + upper.total weight) * (1 - p choice) = upper.total weight := by
        rw [mul_sub, mul_one, mul_comm _ (p choice), share, add_sub_cancel_left]
      simp only [fun world => (events world).2 member]
      rw [chance_and apart depends' (selects upper), chance_not, chance_input here, ← mul_assoc, rest]
      exact right balanced_upper distinct_upper
        (fun other listed => below other (List.mem_append_right _ listed)) nodup_upper member

/-! ## A tree behind guards -/

/-- The leaf that is selected when all guards are true. -/
def pick (guards : List Nat) (tree : ChoiceTree) (world : World) : Option Nat :=
  if guards.all world then some (tree.selected world) else none

section Pick

variable {guards : List Nat} {tree : ChoiceTree}

theorem decide_pick_eq (world : World) : decide (tree.pick guards world = some gate) =
    (guards.all world && decide (tree.selected world = gate)) := by
  cases guarded : guards.all world with
  | true => simp [pick, guarded]
  | false => simp [pick, guarded]

theorem mem_of_pick {world : World} (picked : tree.pick guards world = some gate) :
    gate ∈ tree.members := by
  rw [pick] at picked
  split at picked
  · obtain rfl := Option.some.inj picked
    exact tree.selected_mem world
  · exact absurd picked (by simp)

theorem dependsOn_guards (guards : List Nat) :
    DependsOn (fun world : World => guards.all world) {guard | guard ∈ guards} := by
  intro world world' same
  show guards.all world = guards.all world'
  rw [Bool.eq_iff_iff, List.all_eq_true, List.all_eq_true]
  exact forall₂_congr fun guard listed => by rw [same guard listed]

theorem dependsOn_pick {s : Set Nat} (guarding : ∀ guard ∈ guards, guard ∈ s)
    (choosing : ∀ choice ∈ tree.choices, choice ∈ s) : DependsOn (tree.pick guards) s := by
  intro world world' same
  have first : guards.all world = guards.all world' :=
    dependsOn_guards guards fun guard listed => same guard (guarding guard listed)
  have second : tree.selected world = tree.selected world' :=
    tree.dependsOn_selected fun choice listed => same choice (choosing choice listed)
  rw [pick, pick, first, second]

/-- Behind guards that have the whole weight as their chance each leaf has its weight. -/
theorem chance_pick (balanced : tree.Balanced p weight) (distinct : tree.choices.Nodup)
    (inputs : ∀ choice ∈ tree.choices, choice ∈ V) (nodup : tree.members.Nodup)
    (apart : ∀ guard ∈ guards, guard ∉ tree.choices)
    (whole : chance p V (fun world => guards.all world) = tree.total weight)
    (member : gate ∈ tree.members) :
    chance p V (fun world => decide (tree.pick guards world = some gate)) = weight gate := by
  have selects : DependsOn (fun world => decide (tree.selected world = gate))
      {choice | choice ∈ tree.choices} :=
    fun _ _ same => congrArg (fun leaf => decide (leaf = gate)) (tree.dependsOn_selected same)
  simp only [decide_pick_eq]
  rw [chance_and (Set.disjoint_left.2 apart) (dependsOn_guards guards) selects, whole]
  exact chance_selected balanced distinct inputs nodup member

end Pick

end ChoiceTree

namespace Circuit

open Network

/-! ## Trees in a circuit -/

section Wired

variable {α : Type} {c c' : Circuit α} {tree : ChoiceTree} {guards : List Nat} {world : World}

/-- The choices of a tree are inputs, each followed by its negation, and the children of a leaf are the
gates on the way to it, behind those that guard the tree. -/
def Wired (c : Circuit α) : ChoiceTree → List Nat → Prop
  | .leaf gate, guards => c.children gate = guards
  | .fork choice lower upper, guards =>
    c.kind choice = .input ∧ c.kind (choice + 1) = .not ∧ c.children (choice + 1) = [choice] ∧
      c.Wired lower (guards ++ [choice]) ∧ c.Wired upper (guards ++ [choice + 1])

/-- The choices of a tree are inputs. -/
theorem Wired.kind (wired : c.Wired tree guards) {choice : Nat} (listed : choice ∈ tree.choices) :
    c.kind choice = .input := by
  induction tree generalizing guards with
  | leaf gate => exact absurd listed List.not_mem_nil
  | fork other lower upper left right =>
    obtain ⟨kind, _, _, wired_lower, wired_upper⟩ := wired
    rcases List.mem_cons.1 listed with rfl | listed
    · exact kind
    · rcases List.mem_append.1 listed with listed | listed
      · exact left wired_lower listed
      · exact right wired_upper listed

/-- A tree stays in a circuit that changes other gates. -/
theorem Wired.congr (wired : c.Wired tree guards)
    (leaves : ∀ gate ∈ tree.members, c'.children gate = c.children gate)
    (choices : ∀ choice ∈ tree.choices, c'.kind choice = c.kind choice ∧
      c'.kind (choice + 1) = c.kind (choice + 1) ∧
      c'.children (choice + 1) = c.children (choice + 1)) : c'.Wired tree guards := by
  induction tree generalizing guards with
  | leaf gate => exact (leaves gate (List.mem_singleton.2 rfl)).trans wired
  | fork choice lower upper left right =>
    obtain ⟨kind, negation, only, wired_lower, wired_upper⟩ := wired
    obtain ⟨kinds, negations, wires⟩ := choices choice List.mem_cons_self
    have choices := fun other listed => choices other (List.mem_cons_of_mem choice listed)
    refine ⟨kinds.trans kind, negations.trans negation, wires.trans only, ?_, ?_⟩
    · exact left wired_lower (fun gate listed => leaves gate (List.mem_append_left _ listed))
        fun other listed => choices other (List.mem_append_left _ listed)
    · exact right wired_upper (fun gate listed => leaves gate (List.mem_append_right _ listed))
        fun other listed => choices other (List.mem_append_right _ listed)

/-- Leaves that are conjunctions are true when the guards are and when they are selected. -/
theorem Wired.takes (wired : c.Wired tree guards) (nodup : tree.members.Nodup)
    (kinds : ∀ gate ∈ tree.members, c.kind gate = .and)
    (guarded : ∀ guard ∈ guards, c.Takes world guard (c.truth world guard)) {gate : Nat}
    (member : gate ∈ tree.members) :
    c.Takes world gate (guards.all (c.truth world) && decide (tree.selected world = gate)) := by
  induction tree generalizing guards with
  | leaf other =>
    obtain rfl := List.mem_singleton.1 member
    have children : c.children gate = guards := wired
    have takes := Takes.and (kinds gate member) (children ▸ guarded)
    rw [children] at takes
    simpa [ChoiceTree.selected] using takes
  | fork choice lower upper left right =>
    obtain ⟨kind, negation, only, wired_lower, wired_upper⟩ := wired
    obtain ⟨nodup_lower, nodup_upper, _⟩ := List.nodup_append.1 nodup
    have chosen : c.Takes world choice (world choice) := .input kind
    have opposite : c.Takes world (choice + 1) (!world choice) := .not negation only chosen
    have extended : ∀ {other value}, c.Takes world other value →
        ∀ guard ∈ guards ++ [other], c.Takes world guard (c.truth world guard) := by
      intro other value takes guard listed
      rcases List.mem_append.1 listed with listed | listed
      · exact guarded guard listed
      · obtain rfl := List.mem_singleton.1 listed
        rwa [takes.truth_eq]
    have event := ChoiceTree.selected_fork_eq gate choice lower upper world nodup
    rcases List.mem_append.1 member with member | member
    · have takes := left wired_lower nodup_lower
        (fun gate listed => kinds gate (List.mem_append_left _ listed)) (extended chosen) member
      rw [event.1 member, ← Bool.and_assoc]
      simpa [chosen.truth_eq] using takes
    · have takes := right wired_upper nodup_upper
        (fun gate listed => kinds gate (List.mem_append_right _ listed)) (extended opposite) member
      rw [event.2 member, ← Bool.and_assoc]
      simpa [opposite.truth_eq] using takes

/-- Behind guards that are inputs the leaf that is picked is true, and no other. -/
theorem Wired.takes_pick (wired : c.Wired tree guards) (nodup : tree.members.Nodup)
    (kinds : ∀ gate ∈ tree.members, c.kind gate = .and)
    (inputs : ∀ guard ∈ guards, c.kind guard = .input) (world : World) {gate : Nat}
    (member : gate ∈ tree.members) :
    c.Takes world gate (decide (tree.pick guards world = some gate)) := by
  have guarded : ∀ guard ∈ guards, c.Takes world guard (world guard) :=
    fun guard listed => .input (inputs guard listed)
  have same : guards.all (c.truth world) = guards.all world := by
    rw [Bool.eq_iff_iff, List.all_eq_true, List.all_eq_true]
    exact forall₂_congr fun guard listed => by rw [(guarded guard listed).truth_eq]
  have takes := wired.takes nodup kinds
    (fun guard listed => by rw [(guarded guard listed).truth_eq]; exact guarded guard listed) member
  rwa [same, ← ChoiceTree.decide_pick_eq] at takes

end Wired

/-! ## Circuits with other children and more gates -/

/-- `c'` has the gates of `c` as they are, but for the children of some, and possibly others behind them
that are no alternatives. -/
structure Rewired {α : Type} [Scalar α] (c : Circuit α) (gates : List Nat) (c' : Circuit α) : Prop where
  inStep : c'.InStep
  size_le : c.size ≤ c'.size
  kind : ∀ gate < c.size, c'.kind gate = c.kind gate
  children : ∀ gate < c.size, gate ∉ gates → c'.children gate = c.children gate
  name? : ∀ gate < c.size, c'.name? gate = c.name? gate
  prob : ∀ gate < c.size, c'.prob gate = c.prob gate
  key? : c'.key? = c.key?
  fresh : ∀ gate, c.size ≤ gate → c'.kind gate ≠ .alternative

section Rewired

variable {α : Type} [Scalar α] {c c' c'' : Circuit α}

theorem kind_addChoice (c : Circuit α) (p : α) (other : Nat) : (c.addChoice p).kind other =
    if other = c.size + 1 then .not else if other = c.size then .input else c.kind other := by
  rw [addChoice, kind_addNode, size_addInput, kind_addInput]

theorem children_addChoice (inStep : c.InStep) (p : α) (other : Nat) : (c.addChoice p).children other =
    if other = c.size + 1 then [c.size] else c.children other := by
  rw [addChoice, children_addNode _ _ _ (inStep.addInput p), size_addInput, children_addInput]

theorem prob_addChoice (inStep : c.InStep) (p : α) (other : Nat) :
    (c.addChoice p).prob other = if other = c.size then p else c.prob other := by
  rw [addChoice, prob_addNode, prob_addInput _ inStep]

namespace Rewired

variable {gates gates' : List Nat}

theorem trans (first : c.Rewired gates c') (second : c'.Rewired gates' c'') :
    c.Rewired (gates ++ gates') c'' where
  inStep := second.inStep
  size_le := first.size_le.trans second.size_le
  kind gate small := (second.kind gate (small.trans_le first.size_le)).trans (first.kind gate small)
  children gate small other := by
    have other := not_or.1 (mt List.mem_append.2 other)
    rw [second.children gate (small.trans_le first.size_le) other.2, first.children gate small other.1]
  name? gate small := (second.name? gate (small.trans_le first.size_le)).trans (first.name? gate small)
  prob gate small := (second.prob gate (small.trans_le first.size_le)).trans (first.prob gate small)
  key? := second.key?.trans first.key?
  fresh gate outside := by
    rcases Nat.lt_or_ge gate c'.size with small | new
    · rw [second.kind gate small]
      exact first.fresh gate outside
    · exact second.fresh gate new

theorem addInput (inStep : c.InStep) (p : α) : c.Rewired [] (c.addInput p).2 where
  inStep := inStep.addInput p
  size_le := by simp
  kind gate small := by rw [kind_addInput, if_neg (Nat.ne_of_lt small)]
  children gate _ _ := by rw [children_addInput]
  name? gate _ := rfl
  prob gate small := by rw [prob_addInput _ inStep, if_neg (Nat.ne_of_lt small)]
  key? := rfl
  fresh gate outside := by
    rw [kind_addInput]
    split
    · decide
    · rw [kind_of_le outside]
      decide

theorem addChoice (inStep : c.InStep) (p : α) : c.Rewired [] (c.addChoice p) where
  inStep := InStep.addNode _ _ _ (inStep.addInput p)
  size_le := by simp
  kind gate small := by
    rw [kind_addChoice, if_neg (by omega), if_neg (by omega)]
  children gate small _ := by rw [children_addChoice inStep, if_neg (by omega)]
  name? gate _ := by
    rw [Circuit.addChoice, name?_addNode]
    rfl
  prob gate small := by rw [prob_addChoice inStep, if_neg (Nat.ne_of_lt small)]
  key? := by
    funext gate
    show (((c.addInput p).2.addGate .not).2.addWires _ [c.size]).keys[gate]? = c.keys[gate]?
    rw [keys_addWires]
    rfl
  fresh gate outside := by
    rw [kind_addChoice]
    split
    · decide
    · split
      · decide
      · rw [kind_of_le outside]
        decide

theorem setChildren (inStep : c.InStep) {gate : Nat} (small : gate < c.size) (guards : List Nat) :
    c.Rewired [gate] (c.setChildren gate guards) where
  inStep := inStep.setChildren guards
  size_le := Nat.le_refl _
  kind _ _ := rfl
  children other _ different := by
    rw [children_setChildren _ _ _ _ (inStep.wires ▸ small), if_neg (List.mem_singleton.not.1 different)]
  name? _ _ := rfl
  prob _ _ := rfl
  key? := rfl
  fresh other outside := by
    rw [kind_setChildren, kind_of_le outside]
    decide

end Rewired

end Rewired

/-! ## The decision tree over a range -/

/-- A tree with new inputs over some gates is put into a circuit. -/
structure Plants (c : Circuit Rat) (weight : Nat → Rat) (tree : ChoiceTree) (guards : List Nat)
    (c' : Circuit Rat) : Prop where
  rewired : c.Rewired tree.members c'
  wired : c'.Wired tree guards
  balanced : tree.Balanced c'.prob weight
  distinct : tree.choices.Nodup
  fresh : ∀ choice ∈ tree.choices, c.size ≤ choice ∧ choice + 1 < c'.size

/-- The weights of a range are the difference of two sums. -/
theorem sum_extract {alternatives : Array Nat} {sums : Array Rat} {weight : Nat → Rat}
    (prefixes : ∀ n ≤ alternatives.size,
      sums.getD n 0 = ((alternatives.extract 0 n).toList.map weight).sum) {first stop : Nat}
    (ordered : first ≤ stop) (inside : stop ≤ alternatives.size) :
    ((alternatives.extract first stop).toList.map weight).sum = sums.getD stop 0 - sums.getD first 0 := by
  have split : alternatives.extract 0 first ++ alternatives.extract first stop =
      alternatives.extract (min 0 first) (max first stop) := Array.extract_append_extract
  rw [Nat.min_eq_left (Nat.zero_le _), Nat.max_eq_right ordered] at split
  rw [prefixes stop inside, prefixes first (ordered.trans inside), ← split, Array.toList_append,
    List.map_append, List.sum_append, add_sub_cancel_left]

theorem lowerShare_rat (sums : Array Rat) (first last : Nat) :
    lowerShare sums first last = if 0 < sums.getD (last + 1) 0 - sums.getD first 0 then
      (sums.getD ((first + last) / 2 + 1) 0 - sums.getD first 0) /
        (sums.getD (last + 1) 0 - sums.getD first 0) else 0 := by
  simp only [lowerShare, Scalar.zero_rat]
  exact if_congr decide_eq_true_iff rfl rfl

/-- The share of a part in the whole gives back the part. -/
theorem lowerShare_mul {sums : Array Rat} {first last : Nat}
    (lower : 0 ≤ sums.getD ((first + last) / 2 + 1) 0 - sums.getD first 0)
    (upper : 0 ≤ sums.getD (last + 1) 0 - sums.getD ((first + last) / 2 + 1) 0) :
    lowerShare sums first last * (sums.getD (last + 1) 0 - sums.getD first 0) =
      sums.getD ((first + last) / 2 + 1) 0 - sums.getD first 0 := by
  rw [lowerShare_rat]
  split
  · rename_i positive
    exact div_mul_cancel₀ _ (ne_of_gt positive)
  · rename_i zero
    rw [zero_mul]
    linarith

section Planting

variable {c : Circuit Rat} {alternatives : Array Nat} {sums : Array Rat} {weight : Nat → Rat}

/-- A choice between two trees that are put into the circuit one after the other. -/
theorem Plants.fork {c₁ c₂ : Circuit Rat} {lower upper : ChoiceTree} {guards : List Nat} {p : Rat}
    (inStep : c.InStep) (small : ∀ gate ∈ lower.members ++ upper.members, gate < c.size)
    (nodup : (lower.members ++ upper.members).Nodup)
    (share : p * (lower.total weight + upper.total weight) = lower.total weight)
    (left : (c.addChoice p).Plants weight lower (guards ++ [c.size]) c₁)
    (right : c₁.Plants weight upper (guards ++ [c.size + 1]) c₂) :
    c.Plants weight (.fork c.size lower upper) guards c₂ := by
  have size := size_addChoice c p
  have larger := left.rewired.size_le
  have larger' := right.rewired.size_le
  -- the two new gates stay as they are
  have kept : ∀ gate, c.size ≤ gate → gate < c.size + 2 →
      c₂.kind gate = (c.addChoice p).kind gate ∧ c₂.children gate = (c.addChoice p).children gate ∧
        c₂.prob gate = (c.addChoice p).prob gate := by
    intro gate new inside
    have other : gate ∉ lower.members := fun listed =>
      absurd (small gate (List.mem_append_left _ listed)) (Nat.not_lt_of_le new)
    have other' : gate ∉ upper.members := fun listed =>
      absurd (small gate (List.mem_append_right _ listed)) (Nat.not_lt_of_le new)
    rw [right.rewired.kind gate (by omega), right.rewired.children gate (by omega) other',
      right.rewired.prob gate (by omega)]
    exact ⟨left.rewired.kind gate (by omega), left.rewired.children gate (by omega) other,
      left.rewired.prob gate (by omega)⟩
  obtain ⟨kind, _, prob⟩ := kept c.size (Nat.le_refl _) (by omega)
  obtain ⟨kind', children', _⟩ := kept (c.size + 1) (by omega) (by omega)
  refine
    { rewired := (Rewired.addChoice inStep p).trans (left.rewired.trans right.rewired)
      wired := ⟨?_, ?_, ?_, ?_, right.wired⟩
      balanced := ⟨?_, left.balanced.congr fun choice listed => ?_, right.balanced⟩
      distinct := List.nodup_cons.2 ⟨fun listed => ?_, List.nodup_append.2
        ⟨left.distinct, right.distinct, fun choice listed other listed' same => ?_⟩⟩
      fresh := fun choice listed => ?_ }
  · rw [kind, kind_addChoice, if_neg (by omega), if_pos rfl]
  · rw [kind', kind_addChoice, if_pos rfl]
  · rw [children', children_addChoice inStep, if_pos rfl]
  · refine left.wired.congr (fun gate listed => ?_) fun choice listed => ?_
    · refine right.rewired.children gate ?_ fun listed' =>
        List.disjoint_of_nodup_append nodup listed listed'
      have := small gate (List.mem_append_left _ listed)
      omega
    · obtain ⟨new, inside⟩ := left.fresh choice listed
      refine ⟨right.rewired.kind choice (by omega), right.rewired.kind _ inside,
        right.rewired.children _ inside fun listed' => ?_⟩
      have := small _ (List.mem_append_right _ listed')
      omega
  · rw [prob, prob_addChoice inStep, if_pos rfl]
    exact share
  · obtain ⟨_, inside⟩ := left.fresh choice listed
    exact right.rewired.prob choice (by omega)
  · rcases List.mem_append.1 listed with listed | listed
    · have := left.fresh _ listed
      omega
    · have := right.fresh _ listed
      omega
  · have := left.fresh choice listed
    have := right.fresh other listed'
    omega
  · rcases List.mem_cons.1 listed with rfl | listed
    · exact ⟨Nat.le_refl _, by omega⟩
    · rcases List.mem_append.1 listed with listed | listed
      · have := left.fresh choice listed
        omega
      · have := right.fresh choice listed
        omega

/-- The decision tree over a range is a balanced tree with the range as its leaves. -/
theorem decisionTree_spec (inStep : c.InStep) (small : ∀ gate ∈ alternatives, gate < c.size)
    (nodup : alternatives.toList.Nodup) (nonneg : ∀ gate ∈ alternatives, 0 ≤ weight gate)
    (prefixes : ∀ n ≤ alternatives.size,
      sums.getD n 0 = ((alternatives.extract 0 n).toList.map weight).sum)
    {first last : Nat} (ordered : first ≤ last) (inside : last < alternatives.size) (guards : List Nat) :
    ∃ tree : ChoiceTree, tree.members = (alternatives.extract first (last + 1)).toList ∧
      c.Plants weight tree guards (c.decisionTree alternatives sums first last guards) := by
  obtain ⟨width, equal⟩ : ∃ width, last - first = width := ⟨_, rfl⟩
  induction width using Nat.strong_induction_on generalizing first last guards c with
  | _ width ih =>
    by_cases several : first < last
    · obtain ⟨middle, half⟩ : ∃ middle, (first + last) / 2 = middle := ⟨_, rfl⟩
      have size := size_addChoice c (lowerShare sums first last)
      have chosen := Rewired.addChoice inStep (lowerShare sums first last)
      obtain ⟨lower, low, left⟩ := ih (middle - first) (by omega) chosen.inStep
        (fun gate listed => (small gate listed).trans_le chosen.size_le) (by omega) (by omega)
        (guards ++ [c.size]) rfl
      obtain ⟨upper, high, right⟩ := ih (last - (middle + 1)) (by omega) left.rewired.inStep
        (fun gate listed => (small gate listed).trans_le
          (chosen.size_le.trans left.rewired.size_le)) (by omega) inside (guards ++ [c.size + 1]) rfl
      have both : lower.members ++ upper.members = (alternatives.extract first (last + 1)).toList := by
        rw [low, high, ← Array.toList_append, Array.extract_append_extract,
          Nat.min_eq_left (by omega), Nat.max_eq_right (by omega)]
      have part : (lower.members ++ upper.members).Sublist alternatives.toList := by
        rw [both, Array.toList_extract]
        exact (List.take_sublist _ _).trans (List.drop_sublist _ _)
      have weigh : ∀ {half : ChoiceTree}, (∀ gate ∈ half.members, gate ∈ alternatives.toList) →
          0 ≤ half.total weight := fun listed => List.sum_nonneg fun x member => by
        obtain ⟨gate, there, rfl⟩ := List.mem_map.1 member
        exact nonneg gate (Array.mem_toList_iff.1 (listed gate there))
      have lower_nonneg := weigh fun gate listed => part.subset (List.mem_append_left _ listed)
      have upper_nonneg := weigh fun gate listed => part.subset (List.mem_append_right _ listed)
      have lower_total := sum_extract prefixes (Nat.le_succ_of_le (by omega : first ≤ middle))
        (by omega : middle + 1 ≤ alternatives.size)
      have upper_total := sum_extract prefixes (by omega : middle + 1 ≤ last + 1) inside
      rw [← low] at lower_total
      rw [← high] at upper_total
      rw [ChoiceTree.total, lower_total, ← half] at lower_nonneg
      rw [ChoiceTree.total, upper_total, ← half] at upper_nonneg
      have share := lowerShare_mul lower_nonneg upper_nonneg
      refine ⟨.fork c.size lower upper, both, ?_⟩
      rw [decisionTree_of_lt c alternatives sums several guards, half]
      refine Plants.fork inStep (fun gate listed => ?_) (nodup.sublist part) ?_ left right
      · exact small gate (Array.mem_toList_iff.1 (part.subset listed))
      · rw [ChoiceTree.total, ChoiceTree.total, lower_total, upper_total, add_comm, sub_add_sub_cancel,
          ← half]
        exact share
    · have same : last = first := by omega
      subst same
      have leaf : alternatives.getD last 0 = alternatives[last] := by
        rw [Array.getD_eq_getD_getElem?, Array.getElem?_eq_getElem inside, Option.getD_some]
      refine ⟨.leaf alternatives[last], ?_, ?_⟩
      · simp [ChoiceTree.members, List.take_one, inside]
      · rw [decisionTree_of_not_lt c alternatives sums several, leaf]
        have here := small _ (Array.getElem_mem inside)
        refine ⟨Rewired.setChildren inStep here guards, ?_, trivial, List.nodup_nil,
          fun _ none => absurd none List.not_mem_nil⟩
        exact (children_setChildren _ _ _ _ (inStep.wires ▸ here)).trans (if_pos rfl)

end Planting

end Circuit

end Provenance
