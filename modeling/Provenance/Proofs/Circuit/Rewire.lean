import Provenance.Proofs.Circuit.Classes

/-!
# Other children for a gate

A circuit refines another one when the old gates read the same inputs, have the same values and are as
decomposable, deterministic and smooth as before (`Refines`).  Two changes do that: new gates that are no
inputs (`Enlarges.refines`), and other children for a conjunction or a disjunction when they stand for the
old ones (`Replaces.refines`).  Such children do not reach the gate, so no cycle comes about, and what is
said of all gates below a root passes from the children of a gate to the gate.
-/

namespace Provenance

open Provenance.Network

/-- The value of a conjunction or a disjunction from those of its children. -/
def Kind.combine (kind : Kind) (value : Nat → Bool) (children : List Nat) : Bool :=
  if kind = .and then children.all value else children.any value

theorem Kind.combine_append (kind : Kind) (value : Nat → Bool) (left right : List Nat) :
    kind.combine value (left ++ right) =
      if kind = .and then kind.combine value left && kind.combine value right
      else kind.combine value left || kind.combine value right := by
  unfold combine
  split
  · exact List.all_append
  · exact List.any_append

theorem Kind.combine_singleton (kind : Kind) (value : Nat → Bool) (child : Nat) :
    kind.combine value [child] = value child := by
  unfold combine
  split
  · rw [List.all_cons, List.all_nil, Bool.and_true]
  · rw [List.any_cons, List.any_nil, Bool.or_false]

namespace Circuit

variable {α : Type} {c c' c'' : Circuit α}

theorem evaluable_of_connective {gate : Nat} (connective : c.kind gate = .and ∨ c.kind gate = .or) :
    c.Evaluable gate := by
  unfold Evaluable
  rcases connective with kind | kind <;> rw [kind] <;> trivial

theorem IsFormula.value_combine {gate : Nat} (formula : c.IsFormula gate)
    (connective : c.kind gate = .and ∨ c.kind gate = .or) (world : World) :
    c.value world gate = (c.kind gate).combine (c.value world) (c.children gate) := by
  rcases connective with kind | kind
  · rw [Kind.combine, if_pos kind, formula.value_and world kind]
  · rw [Kind.combine, if_neg (by rw [kind]; decide), formula.value_or world kind]

/-! ## The classes gate by gate -/

section

variable {gate : Nat}

theorem decomposable_iff : c.Decomposable gate ↔
    (c.kind gate = .and → c.Disjoint (c.children gate)) ∧ ∀ child ∈ c.children gate, c.Decomposable child :=
  forall_reaches_iff

theorem deterministic_iff : c.Deterministic gate ↔
    (c.kind gate = .or → c.Exclusive (c.children gate)) ∧ ∀ child ∈ c.children gate, c.Deterministic child :=
  forall_reaches_iff

theorem smooth_iff : c.Smooth gate ↔
    (c.kind gate = .or → c.ReadAlike (c.children gate)) ∧ ∀ child ∈ c.children gate, c.Smooth child :=
  forall_reaches_iff

end

/-! ## Children that stand for others -/

/-- Under a gate of a kind the children `new` come to the same as `old`. -/
structure Replaces (c : Circuit α) (kind : Kind) (old new : List Nat) : Prop where
  within : ∀ child ∈ new, child < c.size
  nonempty : new ≠ [] → old ≠ []
  reads_iff : ∀ input, (∃ child ∈ new, c.Reads child input) ↔ ∃ child ∈ old, c.Reads child input
  isFormula_iff : (∀ child ∈ new, c.IsFormula child) ↔ ∀ child ∈ old, c.IsFormula child
  value : (∀ child ∈ old, c.IsFormula child) → ∀ world,
    kind.combine (c.value world) new = kind.combine (c.value world) old
  /-- What makes a disjunction true is behind one of the old children. -/
  true_of : kind = .or → ∀ world, ∀ child ∈ new, c.value world child = true →
    ∃ other ∈ old, c.value world other = true
  disjoint : kind = .and → c.Disjoint old → c.Disjoint new
  exclusive : kind = .or → c.Exclusive old → c.Exclusive new
  readAlike : kind = .or → c.ReadAlike old → c.ReadAlike new
  decomposable : (kind = .and → c.Disjoint old) → (∀ child ∈ old, c.Decomposable child) →
    ∀ child ∈ new, c.Decomposable child
  deterministic : (kind = .or → c.Exclusive old) → (∀ child ∈ old, c.Deterministic child) →
    ∀ child ∈ new, c.Deterministic child
  smooth : (kind = .or → c.ReadAlike old) → (∀ child ∈ old, c.Smooth child) →
    ∀ child ∈ new, c.Smooth child

/-! ## New children for a gate -/

section Rewired

variable (wellFormed : c.WellFormed) {gate : Nat} (inside : gate < c.size)

include wellFormed inside

theorem children_rewired (children : List Nat) (other : Nat) :
    (c.setChildren gate children).children other = if other = gate then children else c.children other :=
  children_setChildren c gate children other (wellFormed.inStep.wires ▸ inside)

/-- New children that do not reach the gate make no cycle. -/
theorem WellFormed.setChildren {children : List Nat} (apart : ∀ child ∈ children, ¬ c.Reaches child gate)
    (within : ∀ child ∈ children, child < c.size) : (c.setChildren gate children).WellFormed := by
  have wires := children_rewired wellFormed inside children
  -- paths from what does not reach the gate stay as they are
  have beside : ∀ other, ¬ c.Reaches other gate →
      Acc (fun child parent => child ∈ (c.setChildren gate children).children parent) other := by
    intro other
    induction other using wellFormed.acyclic.induction with
    | step other ih =>
      intro away
      refine ⟨other, fun child wire => ?_⟩
      rw [wires, if_neg (by rintro rfl; exact away (.refl other))] at wire
      exact ih child wire fun path => away (.of_child wire path)
  have here : Acc (fun child parent => child ∈ (c.setChildren gate children).children parent) gate := by
    refine ⟨gate, fun child wire => ?_⟩
    rw [wires, if_pos rfl] at wire
    exact beside child (apart child wire)
  have ends : WellFounded fun child parent => child ∈ (c.setChildren gate children).children parent := by
    refine ⟨fun other => ?_⟩
    induction other using wellFormed.acyclic.induction with
    | step other ih =>
      by_cases same : other = gate
      · exact same ▸ here
      · refine ⟨other, fun child wire => ih child ?_⟩
        rwa [wires, if_neg same] at wire
  refine ⟨wellFormed.inStep.setChildren children, acyclic_of_wellFounded ends, fun other child wire => ?_⟩
  rw [size_setChildren]
  rw [wires] at wire
  split at wire
  · exact within child wire
  · exact wellFormed.within other child wire

end Rewired

section Replaced

variable {gate : Nat} {new : List Nat} (replaces : c.Replaces (c.kind gate) (c.children gate) new)
  (wellFormed : c.WellFormed) (inside : gate < c.size) (apart : ∀ child ∈ new, ¬ c.Reaches child gate)

include replaces wellFormed inside apart

/-- What is said of all gates below a root can be said of them again when it stays true of the other gates
and passes from the old children of the gate to the new ones. -/
theorem Replaces.forall_reaches {P P' : Nat → Prop} (stays : ∀ other ≠ gate, P other → P' other)
    (passes : P gate → (∀ child ∈ c.children gate, ∀ other, c.Reaches child other → P other) →
      P' gate ∧ ∀ child ∈ new, ∀ other, c.Reaches child other → P other) {root : Nat}
    (below : ∀ other, c.Reaches root other → P other) :
    ∀ other, (c.setChildren gate new).Reaches root other → P' other := by
  have wires := children_rewired wellFormed inside new
  have acyclic := (wellFormed.setChildren inside apart replaces.within).acyclic
  induction root using acyclic.induction with
  | step root ih =>
    obtain ⟨here, lower⟩ := forall_reaches_iff.1 below
    refine forall_reaches_iff.2 ?_
    by_cases same : root = gate
    · subst same
      obtain ⟨here', lower'⟩ := passes here lower
      refine ⟨here', fun child wire => ih child wire (lower' child ?_)⟩
      rwa [wires, if_pos rfl] at wire
    · refine ⟨stays root same here, fun child wire => ih child wire (lower child ?_)⟩
      rwa [wires, if_neg same] at wire

/-- So what holds of the children of all gates of a kind below a root holds of those that they have then. -/
theorem Replaces.forall_children {Q : Circuit α → List Nat → Prop} {k : Kind}
    (stays : ∀ children, (∀ child ∈ children, child < c.size) → Q c children →
      Q (c.setChildren gate new) children)
    (here : c.kind gate = k → Q c (c.children gate) → Q c new)
    (lower : (c.kind gate = k → Q c (c.children gate)) → (∀ child ∈ c.children gate,
        ∀ other, c.Reaches child other → c.kind other = k → Q c (c.children other)) →
      ∀ child ∈ new, ∀ other, c.Reaches child other → c.kind other = k → Q c (c.children other))
    {root : Nat} (below : ∀ other, c.Reaches root other → c.kind other = k → Q c (c.children other)) :
    ∀ other, (c.setChildren gate new).Reaches root other → (c.setChildren gate new).kind other = k →
      Q (c.setChildren gate new) ((c.setChildren gate new).children other) := by
  have wires := children_rewired wellFormed inside new
  refine replaces.forall_reaches wellFormed inside apart (fun other different holds kind => ?_)
    (fun holds below => ⟨fun kind => ?_, lower holds below⟩) below
  · rw [wires, if_neg different]
    exact stays _ (wellFormed.within other) (holds kind)
  · rw [wires, if_pos rfl]
    exact stays _ replaces.within (here kind (holds kind))

theorem Replaces.reads_setChildren {root input : Nat} :
    (c.setChildren gate new).Reads root input ↔ c.Reads root input := by
  have wires := children_rewired wellFormed inside new
  have acyclic := (wellFormed.setChildren inside apart replaces.within).acyclic
  induction root using acyclic.induction with
  | step root ih =>
    have below : (∃ child ∈ (c.setChildren gate new).children root,
        (c.setChildren gate new).Reads child input) ↔ ∃ child ∈ c.children root, c.Reads child input := by
      rw [exists_congr fun child => and_congr_right (ih child), wires]
      split
      · rename_i same
        rw [replaces.reads_iff input, same]
      · rfl
    rw [Circuit.reads_iff, below, kind_setChildren, ← Circuit.reads_iff]

variable (connective : c.kind gate = .and ∨ c.kind gate = .or)

include connective

theorem Replaces.isFormula_setChildren {root : Nat} :
    (c.setChildren gate new).IsFormula root ↔ c.IsFormula root := by
  have wires := children_rewired wellFormed inside new
  have wellFormed' := wellFormed.setChildren inside apart replaces.within
  induction root using wellFormed'.acyclic.induction with
  | step root ih =>
    have evaluable : (c.setChildren gate new).Evaluable root ↔ c.Evaluable root := by
      by_cases same : root = gate
      · subst same
        exact iff_of_true (evaluable_of_connective (c := c.setChildren root new) connective)
          (evaluable_of_connective connective)
      · unfold Evaluable
        rw [kind_setChildren, wires, if_neg same]
    have below : (∀ child ∈ (c.setChildren gate new).children root, (c.setChildren gate new).IsFormula child) ↔
        ∀ child ∈ c.children root, c.IsFormula child := by
      rw [forall₂_congr ih, wires]
      split
      · rename_i same
        rw [same, replaces.isFormula_iff]
      · rfl
    rw [Circuit.isFormula_iff wellFormed'.inStep.even wellFormed'.acyclic, evaluable, below,
      ← Circuit.isFormula_iff wellFormed.inStep.even wellFormed.acyclic]

theorem Replaces.value_setChildren {root : Nat} (small : root < c.size) (world : World) :
    (c.setChildren gate new).value world root = c.value world root := by
  have wires := children_rewired wellFormed inside new
  have wellFormed' := wellFormed.setChildren inside apart replaces.within
  have formulas : ∀ {root}, (c.setChildren gate new).IsFormula root ↔ c.IsFormula root :=
    replaces.isFormula_setChildren wellFormed inside apart connective
  by_cases formula : c.IsFormula root
  · refine value_eq_of_respects (formulas.2 formula) fun other path => ?_
    have formula := formulas.1 ((formulas.2 formula).of_reaches path)
    by_cases same : other = gate
    · subst same
      have value := replaces.value (fun child wire => formula.child wire) world
      rw [← formula.value_combine connective] at value
      rcases connective with kind | kind <;> simp [gateValue, kind, wires, ← value, Kind.combine]
    · rw [← formula.gateValue world]
      simp only [gateValue, onlyChild, wires, if_neg same, kind_setChildren]
  · rw [wellFormed.value_eq_false small formula,
      wellFormed'.value_eq_false small (mt formulas.1 formula)]

end Replaced

/-! ## Refinement -/

variable [Scalar α]

/-- `c'` has the inputs of `c` and possibly more gates, and the gates of `c` mean the same in it. -/
structure Refines (c c' : Circuit α) : Prop where
  wellFormed : c'.WellFormed
  size_le : c.size ≤ c'.size
  naming : c'.naming = c.naming
  prob : c'.prob = c.prob
  input_iff : ∀ gate, c'.kind gate = .input ↔ c.kind gate = .input
  kind : ∀ gate < c.size, c'.kind gate = c.kind gate
  /-- What stands below an input stays there. -/
  children : ∀ gate, c.kind gate = .input → c'.children gate = c.children gate
  reads_iff : ∀ gate < c.size, ∀ input, c'.Reads gate input ↔ c.Reads gate input
  isFormula_iff : ∀ gate < c.size, (c'.IsFormula gate ↔ c.IsFormula gate)
  value_eq : ∀ gate < c.size, ∀ world, c'.value world gate = c.value world gate
  decomposable : ∀ gate < c.size, c.Decomposable gate → c'.Decomposable gate
  deterministic : ∀ gate < c.size, c.Deterministic gate → c'.Deterministic gate
  smooth : ∀ gate < c.size, c.Smooth gate → c'.Smooth gate

namespace Refines

theorem refl (wellFormed : c.WellFormed) : c.Refines c where
  wellFormed := wellFormed
  size_le := Nat.le_refl _
  naming := rfl
  prob := rfl
  input_iff _ := Iff.rfl
  kind _ _ := rfl
  children _ _ := rfl
  reads_iff _ _ _ := Iff.rfl
  isFormula_iff _ _ := Iff.rfl
  value_eq _ _ _ := rfl
  decomposable _ _ := id
  deterministic _ _ := id
  smooth _ _ := id

theorem trans (first : c.Refines c') (second : c'.Refines c'') : c.Refines c'' := by
  have inside : ∀ {gate}, gate < c.size → gate < c'.size := fun small => small.trans_le first.size_le
  exact
    { wellFormed := second.wellFormed
      size_le := first.size_le.trans second.size_le
      naming := second.naming.trans first.naming
      prob := second.prob.trans first.prob
      input_iff := fun gate => (second.input_iff gate).trans (first.input_iff gate)
      kind := fun gate small => (second.kind gate (inside small)).trans (first.kind gate small)
      children := fun gate is_input =>
        (second.children gate ((first.input_iff gate).2 is_input)).trans (first.children gate is_input)
      reads_iff := fun gate small input =>
        (second.reads_iff gate (inside small) input).trans (first.reads_iff gate small input)
      isFormula_iff := fun gate small =>
        (second.isFormula_iff gate (inside small)).trans (first.isFormula_iff gate small)
      value_eq := fun gate small world =>
        (second.value_eq gate (inside small) world).trans (first.value_eq gate small world)
      decomposable := fun gate small =>
        second.decomposable gate (inside small) ∘ first.decomposable gate small
      deterministic := fun gate small =>
        second.deterministic gate (inside small) ∘ first.deterministic gate small
      smooth := fun gate small => second.smooth gate (inside small) ∘ first.smooth gate small }

/-- Gates have values in the same worlds as before, and the same ones. -/
theorem evaluate_iff (refines : c.Refines c') (wellFormed : c.WellFormed) {gate : Nat} (small : gate < c.size)
    (world : World) (result : Bool) : c'.evaluate gate world = .ok result ↔ c.evaluate gate world = .ok result := by
  have formulas := refines.isFormula_iff gate small
  have value := refines.value_eq gate small world
  constructor
  · intro evaluated
    have formula' := isFormula_of_evaluate refines.wellFormed.inStep.even refines.wellFormed.acyclic
      (refines.wellFormed.inside (small.trans_le refines.size_le)) evaluated
    rw [(formulas.1 formula').evaluate, ← value, ← formula'.evaluate, evaluated]
  · intro evaluated
    have formula := isFormula_of_evaluate wellFormed.inStep.even wellFormed.acyclic (wellFormed.inside small)
      evaluated
    rw [(formulas.2 formula).evaluate, value, ← formula.evaluate, evaluated]

end Refines

/-- A circuit is refined when a gate gets children that stand for its old ones and do not reach it. -/
theorem Replaces.refines {gate : Nat} {new : List Nat}
    (replaces : c.Replaces (c.kind gate) (c.children gate) new) (wellFormed : c.WellFormed)
    (connective : c.kind gate = .and ∨ c.kind gate = .or) (apart : ∀ child ∈ new, ¬ c.Reaches child gate) :
    c.Refines (c.setChildren gate new) := by
  have inside : gate < c.size := lt_of_kind (by rcases connective with kind | kind <;> rw [kind] <;> decide)
  have wires := children_rewired wellFormed inside new
  have reads : ∀ {root input}, (c.setChildren gate new).Reads root input ↔ c.Reads root input :=
    replaces.reads_setChildren wellFormed inside apart
  have value : ∀ {root}, root < c.size → ∀ world,
      (c.setChildren gate new).value world root = c.value world root :=
    replaces.value_setChildren wellFormed inside apart connective
  exact
    { wellFormed := wellFormed.setChildren inside apart replaces.within
      size_le := Nat.le_refl _
      naming := rfl
      prob := rfl
      input_iff := fun _ => Iff.rfl
      kind := fun _ _ => rfl
      children := fun other is_input => by
        rw [wires, if_neg]
        rintro rfl
        rcases connective with kind | kind <;> rw [kind] at is_input <;> cases is_input
      reads_iff := fun _ _ _ => reads
      isFormula_iff := fun _ _ => replaces.isFormula_setChildren wellFormed inside apart connective
      value_eq := fun _ => value
      decomposable := fun _ _ => replaces.forall_children wellFormed inside apart
        (fun _ _ => (disjoint_congr fun _ _ _ => reads).2) replaces.disjoint replaces.decomposable
      deterministic := fun _ _ => replaces.forall_children wellFormed inside apart
        (fun _ within => (exclusive_congr fun child listed => value (within child listed)).2)
        replaces.exclusive replaces.deterministic
      smooth := fun _ _ => replaces.forall_children wellFormed inside apart
        (fun _ _ => (readAlike_congr fun _ _ _ => reads).2) replaces.readAlike replaces.smooth }

/-! ## New gates -/

/-- `c'` has more gates behind those of `c`, and none of them is an input. -/
structure Enlarges (c c' : Circuit α) : Prop extends c.Extends c' where
  wellFormed : c'.WellFormed
  naming : c'.naming = c.naming
  prob_eq : c'.prob = c.prob
  input_iff : ∀ gate, c'.kind gate = .input ↔ c.kind gate = .input

namespace Enlarges

theorem refl (wellFormed : c.WellFormed) : c.Enlarges c where
  toExtends := Extends.refl c
  wellFormed := wellFormed
  naming := rfl
  prob_eq := rfl
  input_iff _ := Iff.rfl

theorem trans (first : c.Enlarges c') (second : c'.Enlarges c'') : c.Enlarges c'' where
  toExtends := first.toExtends.trans second.toExtends
  wellFormed := second.wellFormed
  naming := second.naming.trans first.naming
  prob_eq := second.prob_eq.trans first.prob_eq
  input_iff gate := (second.input_iff gate).trans (first.input_iff gate)

section

variable (enlarges : c.Enlarges c') (wellFormed : c.WellFormed)

include enlarges wellFormed

theorem reaches_iff {gate other : Nat} (inside : gate < c.size) :
    c'.Reaches gate other ↔ c.Reaches gate other :=
  reaches_iff_of_same wellFormed inside enlarges.children

theorem reads_iff {gate : Nat} (inside : gate < c.size) {input : Nat} :
    c'.Reads gate input ↔ c.Reads gate input :=
  enlarges.toExtends.reads_iff wellFormed inside

theorem isFormula_iff {gate : Nat} (inside : gate < c.size) : c'.IsFormula gate ↔ c.IsFormula gate :=
  isFormula_iff_of_same wellFormed inside enlarges.children enlarges.kind enlarges.wellFormed

theorem value_eq {gate : Nat} (inside : gate < c.size) (world : World) :
    c'.value world gate = c.value world gate :=
  enlarges.toExtends.value_eq wellFormed enlarges.wellFormed inside world

/-- What is said of the children of all gates of a kind below an old gate is said of the same gates. -/
theorem forall_children_iff {Q : Circuit α → List Nat → Prop} {k : Kind}
    (same : ∀ children, (∀ child ∈ children, child < c.size) → (Q c' children ↔ Q c children)) {gate : Nat}
    (inside : gate < c.size) :
    (∀ other, c'.Reaches gate other → c'.kind other = k → Q c' (c'.children other)) ↔
      ∀ other, c.Reaches gate other → c.kind other = k → Q c (c.children other) := by
  refine forall_congr' fun other => ?_
  rw [enlarges.reaches_iff wellFormed inside]
  refine forall_congr' fun path => ?_
  have small := wellFormed.inside inside other path
  rw [enlarges.kind other small, enlarges.children other small, same _ (wellFormed.within other)]

theorem decomposable_iff {gate : Nat} (inside : gate < c.size) :
    c'.Decomposable gate ↔ c.Decomposable gate :=
  enlarges.forall_children_iff wellFormed (fun _ within => disjoint_congr fun child listed _ =>
    enlarges.reads_iff wellFormed (within child listed)) inside

theorem deterministic_iff {gate : Nat} (inside : gate < c.size) :
    c'.Deterministic gate ↔ c.Deterministic gate :=
  enlarges.forall_children_iff wellFormed (fun _ within => exclusive_congr fun child listed =>
    enlarges.value_eq wellFormed (within child listed)) inside

theorem smooth_iff {gate : Nat} (inside : gate < c.size) : c'.Smooth gate ↔ c.Smooth gate :=
  enlarges.forall_children_iff wellFormed (fun _ within => readAlike_congr fun child listed _ =>
    enlarges.reads_iff wellFormed (within child listed)) inside

theorem refines : c.Refines c' where
  wellFormed := enlarges.wellFormed
  size_le := enlarges.size_le
  naming := enlarges.naming
  prob := enlarges.prob_eq
  input_iff := enlarges.input_iff
  kind := enlarges.kind
  children gate is_input := enlarges.children gate (lt_of_input is_input)
  reads_iff _ inside _ := enlarges.reads_iff wellFormed inside
  isFormula_iff _ inside := enlarges.isFormula_iff wellFormed inside
  value_eq _ inside := enlarges.value_eq wellFormed inside
  decomposable _ inside := (enlarges.decomposable_iff wellFormed inside).2
  deterministic _ inside := (enlarges.deterministic_iff wellFormed inside).2
  smooth _ inside := (enlarges.smooth_iff wellFormed inside).2

end

end Enlarges

/-- A new gate above old ones makes no cycle. -/
theorem WellFormed.addNode (wellFormed : c.WellFormed) (kind : Kind) {children : List Nat}
    (inside : ∀ child ∈ children, child < c.size) : (c.addNode kind children).2.WellFormed := by
  have wires := children_addNode c kind children wellFormed.inStep
  have within : ∀ gate, ∀ child ∈ (c.addNode kind children).2.children gate, child < c.size := by
    intro gate child wire
    rw [wires] at wire
    split at wire
    · exact inside child wire
    · exact wellFormed.within gate child wire
  have old : ∀ gate < c.size, Acc (fun child gate => child ∈ (c.addNode kind children).2.children gate) gate := by
    intro gate
    induction gate using wellFormed.acyclic.induction with
    | step gate ih =>
      intro small
      refine ⟨gate, fun child wire => ?_⟩
      have wire' := wire
      rw [wires, if_neg (Nat.ne_of_lt small)] at wire'
      exact ih child wire' (within gate child wire)
  exact
    { inStep := InStep.addNode c kind children wellFormed.inStep
      acyclic := acyclic_of_wellFounded
        ⟨fun gate => ⟨gate, fun child wire => old child (within gate child wire)⟩⟩
      within := fun gate child wire => by
        rw [size_addNode]
        exact (within gate child wire).trans (Nat.lt_succ_self _) }

theorem Enlarges.addNode (wellFormed : c.WellFormed) {kind : Kind} (other : kind ≠ .input)
    {children : List Nat} (inside : ∀ child ∈ children, child < c.size) :
    c.Enlarges (c.addNode kind children).2 where
  toExtends := Extends.addNode wellFormed.inStep kind children
  wellFormed := wellFormed.addNode kind inside
  naming := naming_addNode c kind children
  prob_eq := prob_addNode c kind children
  input_iff gate := by
    rw [kind_addNode]
    split
    · rename_i last
      rw [last, kind_of_le (Nat.le_refl _)]
      exact iff_of_false other (by decide)
    · rfl

end Circuit

end Provenance
