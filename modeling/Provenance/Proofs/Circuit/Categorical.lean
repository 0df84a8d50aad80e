import Provenance.Circuit.Categorical
import Provenance.Proofs.Circuit.Classes

/-!
# Expansion of alternatives

The expansion adds gates that lead to other new gates only, and turns alternatives into conjunctions of new
gates (`Expanded`).  So it makes no cycle, and when it is done there is no alternative left:
`wellFormed_expandAlternatives`, `evaluable_expandAlternatives`.
-/

namespace Provenance.Circuit

open Provenance.Network

variable {α : Type} {c c' : Circuit α} {done : List Nat}

/-- What becomes of a circuit when some alternatives are expanded, those in `done` completely. -/
structure Expanded (c : Circuit α) (done : List Nat) (c' : Circuit α) : Prop where
  inStep : c'.InStep
  size_le : c.size ≤ c'.size
  kind : ∀ gate < c.size, c'.kind gate = if gate ∈ done then .and else c.kind gate
  children : ∀ gate < c.size, c'.children gate = c.children gate ∨
    c.kind gate = .alternative ∧ ∀ child ∈ c'.children gate, c.size ≤ child ∧ child < c'.size
  evaluable : ∀ gate, c.size ≤ gate → gate < c'.size → c'.Evaluable gate
  below : ∀ gate, c.size ≤ gate → ∀ child ∈ c'.children gate, c.size ≤ child ∧ child < gate

namespace Expanded

theorem start (inStep : c.InStep) : c.Expanded [] c where
  inStep := inStep
  size_le := Nat.le_refl _
  kind _ _ := (if_neg List.not_mem_nil).symm
  children _ _ := Or.inl rfl
  evaluable _ outside inside := absurd inside (Nat.not_lt_of_le outside)
  below gate outside child wire := by
    rw [children_eq_nil_of_le (inStep.wires ▸ outside)] at wire
    exact absurd wire List.not_mem_nil

/-- A new gate may have any new gates as children. -/
theorem grow (expanded : c.Expanded done c') {c'' : Circuit α} {kind : Kind} {children : List Nat}
    (inStep : c''.InStep) (size : c''.size = c'.size + 1)
    (kinds : ∀ gate, c''.kind gate = if gate = c'.size then kind else c'.kind gate)
    (wires : ∀ gate, c''.children gate = if gate = c'.size then children else c'.children gate)
    (evaluable : c''.Evaluable c'.size)
    (inside : ∀ child ∈ children, c.size ≤ child ∧ child < c'.size) : c.Expanded done c'' where
  inStep := inStep
  size_le := by
    rw [size]
    exact expanded.size_le.trans (Nat.le_succ _)
  kind gate small := by
    rw [kinds, if_neg (Nat.ne_of_lt (small.trans_le expanded.size_le)), expanded.kind gate small]
  children gate small := by
    rw [wires, if_neg (Nat.ne_of_lt (small.trans_le expanded.size_le)), size]
    refine (expanded.children gate small).imp_right fun ⟨kind, new⟩ => ⟨kind, fun child wire => ?_⟩
    exact ⟨(new child wire).1, (new child wire).2.trans (Nat.lt_succ_self _)⟩
  evaluable gate outside small := by
    by_cases last : gate = c'.size
    · exact last ▸ evaluable
    · have old := expanded.evaluable gate outside (by omega)
      unfold Evaluable at old ⊢
      rwa [kinds, wires, if_neg last, if_neg last]
  below gate outside child wire := by
    rw [wires] at wire
    split at wire
    · rename_i last
      exact last ▸ inside child wire
    · exact expanded.below gate outside child wire

variable [Scalar α]

theorem addInput (expanded : c.Expanded done c') (p : α) : c.Expanded done (c'.addInput p).2 := by
  have kinds := kind_addInput p c'
  have wires : ∀ gate, (c'.addInput p).2.children gate = if gate = c'.size then [] else c'.children gate := by
    intro gate
    rw [children_addInput]
    split
    · rename_i last
      rw [last, children_eq_nil_of_le (Nat.le_of_eq expanded.inStep.wires)]
    · rfl
  refine expanded.grow (expanded.inStep.addInput p) (size_addInput p c') kinds wires ?_
    fun _ none => absurd none List.not_mem_nil
  rw [Evaluable, kinds, if_pos rfl]
  trivial

theorem addNot (expanded : c.Expanded done c') {child : Nat} (fresh : c.size ≤ child)
    (inside : child < c'.size) : c.Expanded done (c'.addNode .not [child]).2 := by
  have kinds := kind_addNode c' .not [child]
  have wires := children_addNode c' .not [child] expanded.inStep
  refine expanded.grow (InStep.addNode _ _ _ expanded.inStep) (size_addNode _ _ _) kinds wires ?_ ?_
  · rw [Evaluable, kinds, if_pos rfl]
    exact ⟨child, by rw [wires, if_pos rfl]⟩
  · intro other listed
    obtain rfl := List.mem_singleton.1 listed
    exact ⟨fresh, inside⟩

omit [Scalar α] in
/-- An alternative may get new gates as children. -/
theorem setChildren (expanded : c.Expanded done c') {gate : Nat} (kind : c.kind gate = .alternative)
    {guards : List Nat} (fresh : ∀ guard ∈ guards, c.size ≤ guard ∧ guard < c'.size) :
    c.Expanded done (c'.setChildren gate guards) := by
  have small := lt_of_alternative kind
  have exists_gate : gate < c'.wires.size := by
    rw [expanded.inStep.wires]
    exact small.trans_le expanded.size_le
  have wires := fun other => children_setChildren c' gate guards other exists_gate
  refine
    { inStep := expanded.inStep.setChildren guards
      size_le := expanded.size_le
      kind := expanded.kind
      children := fun other inside => ?_
      evaluable := fun other outside inside => ?_
      below := fun other outside child wire => ?_ }
  · rw [wires]
    split
    · rename_i same
      exact Or.inr ⟨same ▸ kind, fresh⟩
    · exact expanded.children other inside
  · have old := expanded.evaluable other outside inside
    unfold Evaluable at old ⊢
    rwa [wires, if_neg (Nat.ne_of_gt (small.trans_le outside))]
  · rw [wires, if_neg (Nat.ne_of_gt (small.trans_le outside))] at wire
    exact expanded.below other outside child wire

/-- An alternative is expanded completely when it has become a conjunction. -/
theorem finish (expanded : c.Expanded done c') {gate : Nat} (kind : c.kind gate = .alternative) :
    c.Expanded (done ++ [gate]) (((c'.setKind gate .and).setProb gate Scalar.one).dropKey gate) := by
  have small := lt_of_alternative kind
  have kinds := fun other =>
    kind_setKind c' gate .and other (small.trans_le expanded.size_le)
  refine
    { inStep := ((expanded.inStep.setKind .and (small.trans_le expanded.size_le)).setProb
        Scalar.one).dropKey
      size_le := ?_
      kind := fun other inside => ?_
      children := fun other inside => ?_
      evaluable := fun other outside inside => ?_
      below := expanded.below }
  · show c.size ≤ (c'.setKind gate .and).size
    rw [size_setKind]
    exact expanded.size_le
  · refine (kinds other).trans ?_
    rw [expanded.kind other inside]
    simp only [List.mem_append, List.mem_singleton]
    split_ifs <;> simp_all
  · refine (expanded.children other inside).imp_right fun ⟨is_alternative, new⟩ =>
      ⟨is_alternative, fun child wire => ?_⟩
    refine ⟨(new child wire).1, ?_⟩
    show child < (c'.setKind gate .and).size
    rw [size_setKind]
    exact (new child wire).2
  · have inside : other < (c'.setKind gate .and).size := inside
    rw [size_setKind] at inside
    have old := expanded.evaluable other outside inside
    show (c'.setKind gate .and).Evaluable other
    unfold Evaluable at old ⊢
    rwa [kinds, if_neg (Nat.ne_of_gt (small.trans_le outside)), children_setKind]

end Expanded

/-! ## One group -/

section Groups

variable [Scalar α]

/-- The share of the lower half in the weight of the alternatives from `first` to `last`. -/
def lowerShare (sums : Array α) (first last : Nat) : α :=
  let sum (n : Nat) : α := sums.getD n Scalar.zero
  let total := sum (last + 1) - sum first
  if Scalar.lt Scalar.zero total then (sum ((first + last) / 2 + 1) - sum first) / total else Scalar.zero

/-- The circuit with a new input and its negation. -/
def addChoice (c : Circuit α) (p : α) : Circuit α := ((c.addInput p).2.addNode .not [c.size]).2

@[simp] theorem size_addChoice (c : Circuit α) (p : α) : (c.addChoice p).size = c.size + 2 := by
  simp [addChoice]

/-- Where there are several alternatives an input and its negation choose between the halves. -/
theorem decisionTree_of_lt (c : Circuit α) (alternatives : Array Nat) (sums : Array α)
    {first last : Nat} (several : first < last) (guards : List Nat) :
    c.decisionTree alternatives sums first last guards =
      ((c.addChoice (lowerShare sums first last)).decisionTree alternatives sums first
          ((first + last) / 2) (guards ++ [c.size])).decisionTree alternatives sums
        ((first + last) / 2 + 1) last (guards ++ [c.size + 1]) := by
  rw [decisionTree, if_pos several, ← size_addInput _ c]
  rfl

/-- Where there is one alternative the gates on the way become its children. -/
theorem decisionTree_of_not_lt (c : Circuit α) (alternatives : Array Nat) (sums : Array α)
    {first last : Nat} (single : ¬ first < last) (guards : List Nat) :
    c.decisionTree alternatives sums first last guards =
      c.setChildren (alternatives.getD first 0) guards := by
  rw [decisionTree, if_neg single]

/-- What choices and new children keep, a decision tree keeps. -/
theorem decisionTree_induction {motive : Circuit α → Prop} {alternatives : Array Nat} {sums : Array α} {bound : Nat}
    (choice : ∀ c first last, first ≤ last → last < bound → motive c →
      motive (c.addChoice (lowerShare sums first last)))
    (leaf : ∀ c gate guards, motive c → motive (c.setChildren gate guards)) {first last : Nat}
    (inside : last < bound) (guards : List Nat) (holds : motive c) :
    motive (c.decisionTree alternatives sums first last guards) := by
  -- by the width of the range: the halves are planted one after the other into what the choice has become
  obtain ⟨width, equal⟩ : ∃ width, last - first = width := ⟨_, rfl⟩
  induction width using Nat.strong_induction_on generalizing first last guards c with
  | _ width ih =>
    by_cases several : first < last
    · rw [decisionTree_of_lt c alternatives sums several]
      have chosen := choice c first last several.le inside holds
      have lower := ih ((first + last) / 2 - first) (by omega) (by omega) (guards ++ [c.size]) chosen rfl
      exact ih (last - ((first + last) / 2 + 1)) (by omega) inside (guards ++ [c.size + 1]) lower rfl
    · rw [decisionTree_of_not_lt c alternatives sums several]
      exact leaf c _ guards holds

theorem Expanded.decisionTree (expanded : c.Expanded done c') {alternatives : Array Nat}
    (all : ∀ gate ∈ alternatives, c.kind gate = .alternative) (sums : Array α) {first last : Nat}
    (ordered : first ≤ last) (inside : last < alternatives.size) {guards : List Nat}
    (fresh : ∀ guard ∈ guards, c.size ≤ guard ∧ guard < c'.size) :
    c.Expanded done (c'.decisionTree alternatives sums first last guards) ∧
      c'.size ≤ (c'.decisionTree alternatives sums first last guards).size := by
  obtain ⟨width, equal⟩ : ∃ width, last - first = width := ⟨_, rfl⟩
  induction width using Nat.strong_induction_on generalizing first last guards c' with
  | _ width ih =>
    by_cases several : first < last
    · have unfolded := decisionTree_of_lt c' alternatives sums several guards
      have old := expanded.size_le
      have new : c'.size < (c'.addInput (lowerShare sums first last)).2.size := by simp
      have opposed : c.Expanded done (c'.addChoice (lowerShare sums first last)) :=
        (expanded.addInput (lowerShare sums first last)).addNot old new
      have size := size_addChoice c' (lowerShare sums first last)
      have extended : ∀ gate, c.size ≤ gate → gate < c'.size + 2 → ∀ guard ∈ guards ++ [gate],
          c.size ≤ guard ∧ guard < c'.size + 2 := by
        intro gate new small guard listed
        rcases List.mem_append.1 listed with listed | listed
        · exact ⟨(fresh guard listed).1, (fresh guard listed).2.trans (by omega)⟩
        · exact List.mem_singleton.1 listed ▸ ⟨new, small⟩
      obtain ⟨lower, more⟩ := ih ((first + last) / 2 - first) (by omega) opposed (by omega)
        (by omega) (size ▸ extended c'.size old (by omega)) rfl
      obtain ⟨upper, more'⟩ := ih (last - ((first + last) / 2 + 1)) (by omega) lower (by omega)
        inside (fun guard listed => (extended (c'.size + 1) (by omega) (by omega) guard listed).imp_right
          fun small => by omega) rfl
      rw [unfolded]
      exact ⟨upper, by omega⟩
    · rw [decisionTree_of_not_lt c' alternatives sums several]
      have here : first < alternatives.size := ordered.trans_lt inside
      have kind : c.kind (alternatives.getD first 0) = .alternative := by
        rw [Array.getD_eq_getD_getElem?, Array.getElem?_eq_getElem here]
        exact all _ (Array.getElem_mem here)
      exact ⟨expanded.setChildren kind fresh, Nat.le_refl _⟩

/-- An alternative becomes a conjunction. -/
def toConjunction (c : Circuit α) (gate : Nat) : Circuit α :=
  ((c.setKind gate .and).setProb gate Scalar.one).dropKey gate

/-- The circuit with an input in front of a decision tree, which stands for the total weight where that is
not one, and the gates that guard the tree. -/
def withFront (c : Circuit α) (total : α) : List Nat × Circuit α :=
  if Scalar.almostEqual total Scalar.one then ([], c) else ([c.size], (c.addInput total).2)

/-- The expansion of one key plants a decision tree behind its front and turns the leaves into
conjunctions. -/
theorem expandGroup_eq (c : Circuit α) (group : List Nat) :
    c.expandGroup group = group.foldl toConjunction
      ((c.withFront ((cumulated (group.map c.prob)).back?.getD Scalar.zero)).2.decisionTree
        group.toArray (cumulated (group.map c.prob)) 0 (group.length - 1)
        (c.withFront ((cumulated (group.map c.prob)).back?.getD Scalar.zero)).1) := by
  unfold expandGroup
  rfl

/-- A front is made of new gates. -/
theorem Expanded.withFront (expanded : c.Expanded done c') (total : α) :
    c.Expanded done (c'.withFront total).2 ∧
      ∀ guard ∈ (c'.withFront total).1, c.size ≤ guard ∧ guard < (c'.withFront total).2.size := by
  unfold Circuit.withFront
  split
  · exact ⟨expanded, fun _ none => absurd none List.not_mem_nil⟩
  · refine ⟨expanded.addInput total, fun guard listed => ?_⟩
    obtain rfl := List.mem_singleton.1 listed
    exact ⟨expanded.size_le, by simp⟩

theorem Expanded.foldl_toConjunction {group : List Nat} (expanded : c.Expanded done c')
    (all : ∀ gate ∈ group, c.kind gate = .alternative) :
    c.Expanded (done ++ group) (group.foldl toConjunction c') := by
  induction group generalizing done c' with
  | nil => rwa [List.append_nil]
  | cons gate rest ih =>
    rw [← List.singleton_append, ← List.append_assoc]
    exact ih (expanded.finish (all gate List.mem_cons_self))
      fun other listed => all other (List.mem_cons_of_mem gate listed)

/-- The expansion of the alternatives of one key is complete. -/
theorem Expanded.expandGroup (expanded : c.Expanded done c') {group : List Nat} (some_gate : group ≠ [])
    (all : ∀ gate ∈ group, c.kind gate = .alternative) :
    c.Expanded (done ++ group) (c'.expandGroup group) := by
  have inside : group.length - 1 < group.toArray.size :=
    Nat.sub_lt (List.length_pos_iff.2 some_gate) Nat.one_pos
  have all' : ∀ gate ∈ group.toArray, c.kind gate = .alternative :=
    fun gate listed => all gate (List.mem_toArray.1 listed)
  obtain ⟨grown, fresh⟩ := expanded.withFront ((cumulated (group.map c'.prob)).back?.getD Scalar.zero)
  rw [expandGroup_eq]
  exact (grown.decisionTree all' _ (Nat.zero_le _) inside fresh).1.foldl_toConjunction all

end Groups

/-! ## All groups -/

/-- The groups hold the alternatives, and none is empty. -/
theorem keyGroups_spec (c : Circuit α) :
    (∀ group ∈ c.keyGroups, group ≠ [] ∧ ∀ gate ∈ group, gate ∈ c.alternatives) ∧
      ∀ gate ∈ c.alternatives, ∃ group ∈ c.keyGroups, gate ∈ group := by
  -- the groups with a key, and that of the alternatives without one
  obtain ⟨keyless, first⟩ : ∃ keyless, keyless =
      c.alternatives.toList.filter (c.key? · |>.isNone) := ⟨_, rfl⟩
  obtain ⟨keys, listed⟩ : ∃ keys, keys =
      (GateSet.ofList (c.alternatives.toList.filterMap c.key?)).toList := ⟨_, rfl⟩
  have mem_keys : ∀ key, key ∈ keys ↔ ∃ gate ∈ c.alternatives, c.key? gate = some key := by
    intro key
    rw [listed, ← GateSet.mem_def, GateSet.mem_ofList, List.mem_filterMap]
    rfl
  have mem_groups : ∀ group, group ∈ c.keyGroups ↔ (group = keyless ∧ keyless ≠ []) ∨
      ∃ key ∈ keys, c.alternatives.toList.filter (c.key? · == some key) = group := by
    intro group
    rw [keyGroups, ← first, ← listed]
    cases keyless with
    | nil => simp
    | cons _ _ => simp
  constructor
  · intro group member
    rcases (mem_groups group).1 member with ⟨rfl, some_gate⟩ | ⟨key, inside, rfl⟩
    · exact ⟨some_gate, fun gate listed => List.mem_of_mem_filter (first ▸ listed)⟩
    · obtain ⟨gate, there, key⟩ := (mem_keys key).1 inside
      refine ⟨List.ne_nil_of_mem (a := gate) (List.mem_filter.2 ⟨there, by simp [key]⟩), ?_⟩
      exact fun gate listed => List.mem_of_mem_filter listed
  · intro gate there
    cases key : c.key? gate with
    | none =>
      have member : gate ∈ keyless := first ▸ List.mem_filter.2 ⟨there, by simp [key]⟩
      exact ⟨keyless, (mem_groups _).2 (Or.inl ⟨rfl, List.ne_nil_of_mem member⟩), member⟩
    | some key' =>
      refine ⟨_, (mem_groups _).2 (Or.inr ⟨key', (mem_keys key').2 ⟨gate, there, key⟩, rfl⟩), ?_⟩
      exact List.mem_filter.2 ⟨there, by simp [key]⟩

/-- The expansion is complete. -/
theorem expanded_expandAlternatives [Scalar α] (inStep : c.InStep) :
    ∃ done, c.Expanded done c.expandAlternatives ∧ ∀ gate, c.kind gate = .alternative → gate ∈ done := by
  obtain ⟨inside, covered⟩ := keyGroups_spec c
  have folded : ∀ (groups : List (List Nat)) (done : List Nat) (c' : Circuit α), c.Expanded done c' →
      (∀ group ∈ groups, group ≠ [] ∧ ∀ gate ∈ group, gate ∈ c.alternatives) →
      c.Expanded (done ++ groups.flatten) (groups.foldl expandGroup c') := by
    intro groups
    induction groups with
    | nil =>
      intro done c' expanded _
      rwa [List.flatten_nil, List.append_nil]
    | cons group groups ih =>
      intro done c' expanded all
      obtain ⟨some_gate, members⟩ := all group List.mem_cons_self
      rw [List.flatten_cons, ← List.append_assoc]
      refine ih (done ++ group) _ (expanded.expandGroup some_gate fun gate listed => ?_)
        fun other listed => all other (List.mem_cons_of_mem group listed)
      exact (inStep.alternatives gate).1 (members gate listed)
  refine ⟨_, folded c.keyGroups [] c (Expanded.start inStep) inside, fun gate kind => ?_⟩
  obtain ⟨group, listed, member⟩ := covered gate ((inStep.alternatives gate).2 kind)
  exact List.mem_append_right _ (List.mem_flatten.2 ⟨group, listed, member⟩)

/-! ## What comes of it -/

namespace Expanded

variable (expanded : c.Expanded done c')

include expanded

/-- Wires between old gates are old. -/
theorem old_wire {gate child : Nat} (wire : child ∈ c'.children gate) (old : child < c.size) :
    gate < c.size ∧ child ∈ c.children gate := by
  have small : gate < c.size := by
    by_contra outside
    exact absurd old (Nat.not_lt_of_le (expanded.below gate (Nat.le_of_not_lt outside) child wire).1)
  refine ⟨small, ?_⟩
  rcases expanded.children gate small with same | ⟨_, new⟩
  · exact same ▸ wire
  · exact absurd old (Nat.not_lt_of_le (new child wire).1)

/-- A path to an old gate is an old path, and paths of new gates go down. -/
theorem acyclic (acyclic : c.Acyclic) : c'.Acyclic := by
  have down : ∀ gate other, Relation.TransGen c'.Wire gate other → c.size ≤ gate →
      c.size ≤ other ∧ other < gate := by
    intro gate other path new
    induction path with
    | single wire => exact expanded.below gate new _ wire
    | tail _ wire ih =>
      have next := expanded.below _ ih.1 _ wire
      exact ⟨next.1, next.2.trans ih.2⟩
  have old : ∀ gate other, Relation.TransGen c'.Wire gate other → other < c.size →
      Relation.TransGen c.Wire gate other := by
    intro gate other path
    induction path with
    | single wire => exact fun small => .single (expanded.old_wire wire small).2
    | tail _ wire ih =>
      intro small
      obtain ⟨before, wire⟩ := expanded.old_wire wire small
      exact (ih before).tail wire
  intro gate cycle
  rcases Nat.lt_or_ge gate c.size with small | new
  · exact acyclic gate (old gate gate cycle small)
  · exact Nat.lt_irrefl gate (down gate gate cycle new).2

theorem within (within : ∀ gate, ∀ child ∈ c.children gate, child < c.size) (gate : Nat) :
    ∀ child ∈ c'.children gate, child < c'.size := by
  intro child wire
  rcases Nat.lt_or_ge gate c.size with small | new
  · rcases expanded.children gate small with same | ⟨_, fresh⟩
    · exact (within gate child (same ▸ wire)).trans_le expanded.size_le
    · exact (fresh child wire).2
  · have inside := expanded.inStep.even.lt_of_wire wire
    exact (expanded.below gate new child wire).2.trans inside

end Expanded

variable [Scalar α]

theorem WellFormed.expandAlternatives (wellFormed : c.WellFormed) : c.expandAlternatives.WellFormed := by
  obtain ⟨_, expanded, _⟩ := expanded_expandAlternatives wellFormed.inStep
  exact ⟨expanded.inStep, expanded.acyclic wellFormed.acyclic, expanded.within wellFormed.within⟩

/-- Where all gates were evaluable but for the alternatives, all gates are. -/
theorem evaluable_expandAlternatives (inStep : c.InStep)
    (others : ∀ gate < c.size, c.kind gate ≠ .alternative → c.Evaluable gate) {gate : Nat}
    (inside : gate < c.expandAlternatives.size) : c.expandAlternatives.Evaluable gate := by
  obtain ⟨done, expanded, complete⟩ := expanded_expandAlternatives inStep
  rcases Nat.lt_or_ge gate c.size with small | new
  · have kind := expanded.kind gate small
    unfold Evaluable
    rw [kind]
    split_ifs with listed
    · trivial
    · have other : c.kind gate ≠ .alternative := fun kind => listed (complete gate kind)
      have evaluable := others gate small other
      have same := (expanded.children gate small).resolve_right fun former => other former.1
      unfold Evaluable at evaluable
      rwa [same]
  · exact expanded.evaluable gate new inside

theorem size_le_expandAlternatives (inStep : c.InStep) : c.size ≤ c.expandAlternatives.size := by
  obtain ⟨_, expanded, _⟩ := expanded_expandAlternatives inStep
  exact expanded.size_le

end Provenance.Circuit
