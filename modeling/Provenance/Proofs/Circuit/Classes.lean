import Provenance.Proofs.Circuit.InStep
import Provenance.Proofs.Circuit.Value

/-!
# Deterministic decomposable circuits

A root is decomposable when the children of each conjunction that it reaches read different inputs,
deterministic when at most one child of each disjunction is true, and smooth when the children of each
disjunction read the same inputs.

A circuit that is built from the leaves up is sound when all its gates are like that and each was added
behind its children (`Sound`).  New gates leave the values of the old ones as they are
(`Extends.value_eq`) and keep the circuit sound under the evident conditions (`Sound.addNode`).
-/

namespace Provenance.Circuit

open Provenance.Network

variable {α : Type} {c c' : Circuit α}

/-- All gates of a circuit are formulas when each of them is evaluable. -/
theorem WellFormed.isFormula (wellFormed : c.WellFormed) (evaluable : ∀ gate < c.size, c.Evaluable gate)
    {root : Nat} (inside : root < c.size) : c.IsFormula root where
  even := wellFormed.inStep.even
  acyclic := wellFormed.acyclic
  evaluable gate path := evaluable gate (wellFormed.inside inside gate path)

/-- Gates that are no formulas have no value. -/
theorem WellFormed.value_eq_false (wellFormed : c.WellFormed) {gate : Nat} (inside : gate < c.size)
    (other : ¬ c.IsFormula gate) (world : World) : c.value world gate = false :=
  Circuit.value_eq_false wellFormed.inStep.even wellFormed.acyclic (wellFormed.inside inside) other world

/-! ## The three classes -/

/-- Gates of which no two read the same input. -/
def Disjoint (c : Circuit α) (gates : List Nat) : Prop :=
  gates.Pairwise fun left right => ∀ input, ¬ (c.Reads left input ∧ c.Reads right input)

/-- Gates of which no two are true in the same world. -/
def Exclusive (c : Circuit α) (gates : List Nat) : Prop :=
  ∀ world, gates.Pairwise fun left right =>
    ¬ (c.value world left = true ∧ c.value world right = true)

/-- Gates that read the same inputs. -/
def ReadAlike (c : Circuit α) (gates : List Nat) : Prop :=
  ∀ left ∈ gates, ∀ right ∈ gates, ∀ input, c.Reads left input ↔ c.Reads right input

/-- The children of conjunctions read different inputs. -/
def Decomposable (c : Circuit α) (root : Nat) : Prop :=
  ∀ gate, c.Reaches root gate → c.kind gate = .and → c.Disjoint (c.children gate)

/-- At most one child of a disjunction is true. -/
def Deterministic (c : Circuit α) (root : Nat) : Prop :=
  ∀ gate, c.Reaches root gate → c.kind gate = .or → c.Exclusive (c.children gate)

/-- The children of a disjunction read the same inputs. -/
def Smooth (c : Circuit α) (root : Nat) : Prop :=
  ∀ gate, c.Reaches root gate → c.kind gate = .or →
    ∀ left ∈ c.children gate, ∀ right ∈ c.children gate, ∀ input,
      c.Reads left input ↔ c.Reads right input

/-- The children of a disjunction below a smooth root read what the disjunction reads. -/
theorem Smooth.reads_child {root gate child : Nat} (smooth : c.Smooth root) (path : c.Reaches root gate)
    (is_or : c.kind gate = .or) (wire : child ∈ c.children gate) (input : Nat) :
    c.Reads child input ↔ c.Reads gate input := by
  have other : c.kind gate ≠ .input := by rw [is_or]; decide
  rw [reads_iff_of_ne_input other]
  constructor
  · exact fun reads => ⟨child, wire, reads⟩
  · rintro ⟨other, wire', reads⟩
    exact (smooth gate path is_or child wire other wire' input).2 reads

section Congr

variable {gates : List Nat}

theorem disjoint_congr (reads : ∀ gate ∈ gates, ∀ input, c'.Reads gate input ↔ c.Reads gate input) :
    c'.Disjoint gates ↔ c.Disjoint gates := by
  refine List.Pairwise.iff_of_mem fun {left right} listed listed' => ?_
  exact forall_congr' fun input => not_congr (and_congr (reads left listed input) (reads right listed' input))

/-- Gates that read no more than before read different inputs still. -/
theorem Disjoint.of_reads (apart : c.Disjoint gates)
    (fewer : ∀ gate ∈ gates, ∀ input, c'.Reads gate input → c.Reads gate input) : c'.Disjoint gates := by
  refine List.Pairwise.imp_of_mem (fun {left right} listed listed' apart input both => ?_) apart
  exact apart input ⟨fewer left listed input both.1, fewer right listed' input both.2⟩

theorem exclusive_congr (value : ∀ gate ∈ gates, ∀ world, c'.value world gate = c.value world gate) :
    c'.Exclusive gates ↔ c.Exclusive gates := by
  refine forall_congr' fun world => List.Pairwise.iff_of_mem fun {left right} listed listed' => ?_
  rw [value left listed, value right listed']

theorem readAlike_congr (reads : ∀ gate ∈ gates, ∀ input, c'.Reads gate input ↔ c.Reads gate input) :
    c'.ReadAlike gates ↔ c.ReadAlike gates := by
  refine forall₂_congr fun left listed => forall₂_congr fun right listed' => forall_congr' fun input => ?_
  rw [reads left listed, reads right listed']

end Congr

/-! ## Circuits with more gates -/

section Extends

variable [Scalar α]

/-- `c'` has the gates of `c` as they are, and possibly others behind them. -/
structure Extends (c c' : Circuit α) : Prop where
  size_le : c.size ≤ c'.size
  kind : ∀ gate < c.size, c'.kind gate = c.kind gate
  children : ∀ gate < c.size, c'.children gate = c.children gate
  name? : ∀ gate < c.size, c'.name? gate = c.name? gate
  prob : ∀ gate < c.size, c'.prob gate = c.prob gate

namespace Extends

variable {c'' : Circuit α}

theorem refl (c : Circuit α) : c.Extends c :=
  ⟨Nat.le_refl _, fun _ _ => rfl, fun _ _ => rfl, fun _ _ => rfl, fun _ _ => rfl⟩

theorem trans (first : c.Extends c') (second : c'.Extends c'') : c.Extends c'' where
  size_le := first.size_le.trans second.size_le
  kind gate inside :=
    (second.kind gate (inside.trans_le first.size_le)).trans (first.kind gate inside)
  children gate inside :=
    (second.children gate (inside.trans_le first.size_le)).trans (first.children gate inside)
  name? gate inside :=
    (second.name? gate (inside.trans_le first.size_le)).trans (first.name? gate inside)
  prob gate inside :=
    (second.prob gate (inside.trans_le first.size_le)).trans (first.prob gate inside)

theorem addNode (inStep : c.InStep) (kind : Kind) (children : List Nat) :
    c.Extends (c.addNode kind children).2 where
  size_le := by
    rw [size_addNode]
    exact Nat.le_succ _
  kind gate inside := by rw [kind_addNode, if_neg (Nat.ne_of_lt inside)]
  children gate inside := by rw [children_addNode _ _ _ inStep, if_neg (Nat.ne_of_lt inside)]
  name? gate _ := by rw [name?_addNode]
  prob gate _ := by rw [prob_addNode]

/-- Gates have values when the old ones and the new one have. -/
theorem evaluable (extends_ : c.Extends c') (size : c'.size = c.size + 1)
    (old : ∀ gate < c.size, c.Evaluable gate) (new : c'.Evaluable c.size) :
    ∀ gate < c'.size, c'.Evaluable gate := by
  intro gate inside
  rcases Nat.lt_succ_iff_lt_or_eq.1 (size ▸ inside) with small | rfl
  · have evaluable := old gate small
    unfold Evaluable at evaluable ⊢
    rwa [extends_.kind gate small, extends_.children gate small]
  · exact new

end Extends

end Extends

/-! ## Sound circuits -/

/-- Each gate has a value, was added behind its children, and is fit for a deterministic decomposable
circuit. -/
structure Sound (c : Circuit α) : Prop where
  inStep : c.InStep
  layered : ∀ gate, ∀ child ∈ c.children gate, child < gate
  evaluable : ∀ gate < c.size, c.Evaluable gate
  disjoint : ∀ gate, c.kind gate = .and → c.Disjoint (c.children gate)
  exclusive : ∀ gate, c.kind gate = .or → c.Exclusive (c.children gate)

namespace Sound

variable {gate : Nat}

theorem wellFormed (sound : c.Sound) : c.WellFormed :=
  sound.inStep.wellFormed fun gate _ => sound.layered gate

theorem acyclic (sound : c.Sound) : c.Acyclic := sound.wellFormed.acyclic

/-- What a gate reaches is not behind it. -/
theorem le_of_reaches (sound : c.Sound) {other : Nat} (path : c.Reaches gate other) :
    other ≤ gate := by
  induction path with
  | refl => exact Nat.le_refl _
  | tail _ wire ih => exact (Nat.le_of_lt (sound.layered _ _ wire)).trans ih

theorem isFormula (sound : c.Sound) (inside : gate < c.size) : c.IsFormula gate where
  even := sound.inStep.even
  acyclic := sound.acyclic
  evaluable other path := sound.evaluable other ((sound.le_of_reaches path).trans_lt inside)

theorem decomposable (sound : c.Sound) (root : Nat) : c.Decomposable root :=
  fun gate _ => sound.disjoint gate

theorem deterministic (sound : c.Sound) (root : Nat) : c.Deterministic root :=
  fun gate _ => sound.exclusive gate

end Sound

/-- The circuit without gates is sound. -/
theorem sound_empty : (empty : Circuit α).Sound where
  inStep := inStep_empty
  layered gate child wire := absurd wire (notMem_children_empty gate child)
  evaluable gate inside := absurd inside (Nat.not_lt_zero gate)
  disjoint gate kind := by
    rw [kind_of_le (Nat.zero_le gate)] at kind
    exact absurd kind (by decide)
  exclusive gate kind := by
    rw [kind_of_le (Nat.zero_le gate)] at kind
    exact absurd kind (by decide)

/-! ## Old gates keep their meaning -/

section Agree

variable (wellFormed : c.WellFormed) {gate : Nat} (inside : gate < c.size)
  (children : ∀ gate < c.size, c'.children gate = c.children gate)
  (kinds : ∀ gate < c.size, c'.kind gate = c.kind gate)

include wellFormed inside children

theorem reaches_iff_of_same {other : Nat} : c'.Reaches gate other ↔ c.Reaches gate other :=
  reaches_of_agree fun _ path => children _ (wellFormed.inside inside _ path)

include kinds

/-- Old gates read the same inputs. -/
theorem reads_iff_of_same (input : Nat) : c'.Reads gate input ↔ c.Reads gate input :=
  reads_of_agree (fun _ path => children _ (wellFormed.inside inside _ path))
    fun _ path => kinds _ (wellFormed.inside inside _ path)

variable (wellFormed' : c'.WellFormed)

include wellFormed'

theorem isFormula_iff_of_same : c'.IsFormula gate ↔ c.IsFormula gate := by
  have same : ∀ {other}, c.Reaches gate other → (c'.Evaluable other ↔ c.Evaluable other) := by
    intro other path
    have small := wellFormed.inside inside _ path
    unfold Evaluable
    rw [kinds other small, children other small]
  have paths : ∀ {other}, c'.Reaches gate other ↔ c.Reaches gate other :=
    reaches_iff_of_same wellFormed inside children
  constructor
  · exact fun formula => ⟨wellFormed.inStep.even, wellFormed.acyclic, fun other path =>
      (same path).1 (formula.evaluable other (paths.2 path))⟩
  · exact fun formula => ⟨wellFormed'.inStep.even, wellFormed'.acyclic, fun other path =>
      (same (paths.1 path)).2 (formula.evaluable other (paths.1 path))⟩

/-- Old gates keep their values. -/
theorem value_eq_of_same (size : c.size ≤ c'.size) (world : World) :
    c'.value world gate = c.value world gate := by
  have within : ∀ {other}, c.Reaches gate other → other < c.size := fun path =>
    wellFormed.inside inside _ path
  have formulas := isFormula_iff_of_same wellFormed inside children kinds wellFormed'
  by_cases formula : c.IsFormula gate
  · exact value_of_agree formula (formulas.2 formula) (fun other path => children other (within path))
      fun other path => kinds other (within path)
  · rw [wellFormed.value_eq_false inside formula,
      wellFormed'.value_eq_false (inside.trans_le size) (mt formulas.1 formula)]

end Agree

/-- A circuit that differs in names and probabilities only is sound too. -/
theorem Sound.of_same (sound : c.Sound) (inStep : c'.InStep) (size : c'.size = c.size)
    (kinds : c'.kind = c.kind) (children : c'.children = c.children) : c'.Sound := by
  have layered : ∀ gate, ∀ child ∈ c'.children gate, child < gate := by
    rw [children]
    exact sound.layered
  have wellFormed' : c'.WellFormed := inStep.wellFormed fun gate _ => layered gate
  have within : ∀ {gate child}, child ∈ c.children gate → child < c.size := fun wire =>
    sound.wellFormed.within _ _ wire
  have children_eq : ∀ gate < c.size, c'.children gate = c.children gate := fun _ _ => by rw [children]
  have kind_eq : ∀ gate < c.size, c'.kind gate = c.kind gate := fun _ _ => by rw [kinds]
  refine ⟨inStep, layered, fun gate inside => ?_, fun gate kind => ?_, fun gate kind => ?_⟩
  · have evaluable := sound.evaluable gate (size ▸ inside)
    unfold Evaluable at evaluable ⊢
    rwa [kinds, children]
  · rw [kinds] at kind
    rw [children]
    refine (disjoint_congr fun child wire => ?_).2 (sound.disjoint gate kind)
    exact reads_iff_of_same sound.wellFormed (within wire) children_eq kind_eq
  · rw [kinds] at kind
    rw [children]
    refine (exclusive_congr fun child wire => ?_).2 (sound.exclusive gate kind)
    exact value_eq_of_same sound.wellFormed (within wire) children_eq kind_eq wellFormed' size.ge

/-! ## New gates -/

section NewGates

variable [Scalar α]

theorem Extends.reads_iff (extends_ : c.Extends c') (wellFormed : c.WellFormed) {gate : Nat}
    (inside : gate < c.size) {input : Nat} : c'.Reads gate input ↔ c.Reads gate input :=
  reads_iff_of_same wellFormed inside extends_.children extends_.kind input

/-- Gates keep their values. -/
theorem Extends.value_eq (extends_ : c.Extends c') (wellFormed : c.WellFormed) (wellFormed' : c'.WellFormed)
    {gate : Nat} (inside : gate < c.size) (world : World) : c'.value world gate = c.value world gate :=
  value_eq_of_same wellFormed inside extends_.children extends_.kind wellFormed' extends_.size_le world

theorem Sound.addNode (sound : c.Sound) (kind : Kind) {children : List Nat}
    (inside : ∀ child ∈ children, child < c.size)
    (evaluable : match kind with
      | .input | .and | .or => True
      | .not => ∃ child, children = [child]
      | .alternative | .undetermined => False)
    (disjoint : kind = .and → c.Disjoint children)
    (exclusive : kind = .or → c.Exclusive children) : (c.addNode kind children).2.Sound := by
  have inStep := InStep.addNode c kind children sound.inStep
  have kinds := kind_addNode c kind children
  have wires := children_addNode c kind children sound.inStep
  have extends_ := Extends.addNode sound.inStep kind children
  have layered : ∀ gate, ∀ child ∈ (c.addNode kind children).2.children gate, child < gate := by
    intro gate child wire
    rw [wires] at wire
    split at wire
    · rename_i last
      exact last ▸ inside child wire
    · exact sound.layered gate child wire
  have wellFormed' := inStep.wellFormed fun gate _ => layered gate
  have reads : ∀ gate < c.size, ∀ input,
      (c.addNode kind children).2.Reads gate input ↔ c.Reads gate input := fun gate small input =>
    extends_.reads_iff sound.wellFormed small
  have value : ∀ gate < c.size, ∀ world,
      (c.addNode kind children).2.value world gate = c.value world gate := fun gate small =>
    extends_.value_eq sound.wellFormed wellFormed' small
  have within : ∀ {gate child}, child ∈ c.children gate → child < c.size := fun wire =>
    sound.wellFormed.within _ _ wire
  refine ⟨inStep, layered, fun gate small => ?_, fun gate is_and => ?_, fun gate is_or => ?_⟩
  · unfold Evaluable
    rw [kinds, wires]
    split_ifs with last
    · exact evaluable
    · rw [size_addNode] at small
      exact sound.evaluable gate (by omega)
  · rw [kinds] at is_and
    rw [wires]
    split_ifs at is_and ⊢ with last
    · exact (disjoint_congr fun child listed => reads child (inside child listed)).2 (disjoint is_and)
    · exact (disjoint_congr fun child wire => reads child (within wire)).2 (sound.disjoint gate is_and)
  · rw [kinds] at is_or
    rw [wires]
    split_ifs at is_or ⊢ with last
    · exact (exclusive_congr fun child listed => value child (inside child listed)).2 (exclusive is_or)
    · exact (exclusive_congr fun child wire => value child (within wire)).2 (sound.exclusive gate is_or)

/-- The value of a new gate. -/
theorem Sound.value_addNode_and {children : List Nat} (sound : c.Sound)
    (sound' : (c.addNode .and children).2.Sound) (inside : ∀ child ∈ children, child < c.size)
    (world : World) :
    (c.addNode .and children).2.value world c.size = children.all (c.value world) := by
  have extends_ := Extends.addNode sound.inStep .and children
  have last : c.size < (c.addNode .and children).2.size := by
    rw [size_addNode]
    exact Nat.lt_succ_self _
  rw [(sound'.isFormula last).value_and world (by rw [kind_addNode, if_pos rfl]),
    children_addNode _ _ _ sound.inStep, if_pos rfl, Bool.eq_iff_iff, List.all_eq_true,
    List.all_eq_true]
  refine forall₂_congr fun child listed => ?_
  rw [extends_.value_eq sound.wellFormed sound'.wellFormed (inside child listed)]

theorem Sound.value_addNode_or {children : List Nat} (sound : c.Sound)
    (sound' : (c.addNode .or children).2.Sound) (inside : ∀ child ∈ children, child < c.size)
    (world : World) :
    (c.addNode .or children).2.value world c.size = children.any (c.value world) := by
  have extends_ := Extends.addNode sound.inStep .or children
  have last : c.size < (c.addNode .or children).2.size := by
    rw [size_addNode]
    exact Nat.lt_succ_self _
  rw [(sound'.isFormula last).value_or world (by rw [kind_addNode, if_pos rfl]),
    children_addNode _ _ _ sound.inStep, if_pos rfl, Bool.eq_iff_iff, List.any_eq_true,
    List.any_eq_true]
  refine exists_congr fun child => and_congr_right fun listed => ?_
  rw [extends_.value_eq sound.wellFormed sound'.wellFormed (inside child listed)]

/-- A new gate that is no input reads what its children read. -/
theorem Sound.reads_addNode {kind : Kind} {children : List Nat} (sound : c.Sound)
    (other : kind ≠ .input) (inside : ∀ child ∈ children, child < c.size) {input : Nat} :
    (c.addNode kind children).2.Reads c.size input ↔ ∃ child ∈ children, c.Reads child input := by
  have extends_ := Extends.addNode sound.inStep kind children
  have kind_last : (c.addNode kind children).2.kind c.size = kind := by rw [kind_addNode, if_pos rfl]
  rw [reads_iff_of_ne_input (kind_last.symm ▸ other), children_addNode _ _ _ sound.inStep, if_pos rfl]
  exact exists_congr fun child => and_congr_right fun listed =>
    extends_.reads_iff sound.wellFormed (inside child listed)

end NewGates

end Provenance.Circuit
