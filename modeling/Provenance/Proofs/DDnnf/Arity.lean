import Provenance.Proofs.DDnnf.Session

/-!
# Numbers of children

Putting neighbours in pairs halves a list of children (`length_pairUp`), and as many rounds as there are
children bring it down to two (`length_pairDown_le`).  The new gates have two children each, so a step takes its
gate from those that have more and adds none (`Long.of_binaryGate`), and no gate of the kind is left with more
than two when all had their turn (`binary_faithful`).
-/

namespace Provenance.DDnnf

open Provenance.Circuit Provenance.Network

variable {α : Type} [Scalar α] {c c' c'' : Circuit α} {kind : Kind} {gate other : Nat}

/-! ## Pairs -/

theorem length_pairUp (kind : Kind) (children : List Nat) (c : Circuit α) :
    (pairUp kind children c).1.length = (children.length + 1) / 2 := by
  fun_induction pairUp kind children c with
  | case1 left right rest c new c' added others c'' paired ih =>
    rw [paired] at ih
    simp only [List.length_cons] at ih ⊢
    omega
  | case2 few c short =>
    rcases few with _ | ⟨left, _ | ⟨right, rest⟩⟩
    · simp
    · simp
    · exact absurd rfl (short left right rest)

theorem length_pairDown_le {rounds : Nat} {children : List Nat} (enough : children.length ≤ rounds + 2) :
    (pairDown kind rounds children c).1.length ≤ 2 := by
  induction rounds generalizing children c with
  | zero => exact enough
  | succ rounds ih =>
    rw [pairDown]
    split
    · assumption
    · rename_i many
      refine ih ?_
      rw [length_pairUp]
      omega

/-- The gates of `c'` that are not in `c` are of a kind and have two children. -/
def AddsPairs (kind : Kind) (c c' : Circuit α) : Prop :=
  ∀ gate, c.size ≤ gate → gate < c'.size → c'.kind gate = kind ∧ (c'.children gate).length = 2

omit [Scalar α] in
theorem AddsPairs.refl (kind : Kind) (c : Circuit α) : AddsPairs kind c c :=
  fun _ outside inside => absurd inside (Nat.not_lt_of_le outside)

theorem AddsPairs.trans (first : AddsPairs kind c c') (second : AddsPairs kind c' c'')
    (extends_ : c'.Extends c'') : AddsPairs kind c c'' := by
  intro gate new inside
  rcases Nat.lt_or_ge gate c'.size with earlier | later
  · rw [extends_.kind gate earlier, extends_.children gate earlier]
    exact first gate new earlier
  · exact second gate later inside

theorem addsPairs_addNode (inStep : c.InStep) (kind : Kind) (left right : Nat) :
    AddsPairs kind c (c.addNode kind [left, right]).2 := by
  intro gate new inside
  rw [size_addNode] at inside
  obtain rfl : gate = c.size := by omega
  rw [kind_addNode, if_pos rfl, children_addNode _ _ _ inStep, if_pos rfl]
  exact ⟨rfl, rfl⟩

theorem addsPairs_pairUp (other : kind ≠ .input) {children : List Nat} (wellFormed : c.WellFormed)
    (inside : ∀ child ∈ children, child < c.size) :
    AddsPairs kind c (pairUp kind children c).2 ∧ c.Extends (pairUp kind children c).2 := by
  refine pairUp_induction other (motive := fun _ c result => AddsPairs kind c result.2 ∧ c.Extends result.2)
    (fun _ c _ _ => ⟨.refl kind c, .refl c⟩) ?_ wellFormed inside
  rintro left right rest c result inStep enlarges ⟨pairs, extends_⟩
  exact ⟨(addsPairs_addNode inStep kind left right).trans pairs extends_, enlarges.toExtends.trans extends_⟩

theorem addsPairs_pairDown (connective : kind = .and ∨ kind = .or) (rounds : Nat) {children : List Nat}
    (wellFormed : c.WellFormed) (inside : ∀ child ∈ children, child < c.size) (small : gate < c.size) :
    AddsPairs kind c (pairDown kind rounds children c).2 := by
  have other : kind ≠ .input := by rcases connective with rfl | rfl <;> decide
  induction rounds generalizing children c with
  | zero => exact .refl kind c
  | succ rounds ih =>
    rw [pairDown]
    split
    · exact .refl kind c
    · have first := pairUp_regroups connective wellFormed inside small
      have small' := small.trans_le first.enlarges.size_le
      have later := pairDown_regroups connective rounds first.enlarges.wellFormed first.within small'
      exact (addsPairs_pairUp other wellFormed inside).1.trans
        (ih first.enlarges.wellFormed first.within small') later.enlarges.toExtends

/-! ## One gate after the other -/

/-- A gate of a kind with more than two children. -/
def Long (kind : Kind) (c : Circuit α) (gate : Nat) : Prop :=
  c.kind gate = kind ∧ 2 < (c.children gate).length

/-- The other gates keep their children, and so do all when the gate is of another kind. -/
theorem children_binaryGate (connective : kind = .and ∨ kind = .or) (wellFormed : c.WellFormed)
    (small : other < c.size) (apart : other = gate → c.kind gate ≠ kind) :
    (binaryGate kind c gate).children other = c.children other := by
  unfold binaryGate
  split
  · rename_i same
    have inside : gate < c.size := (evaluable_of_connective (same.symm ▸ connective)).lt
    have regroups := pairDown_regroups connective (c.children gate).length wellFormed
      (wellFormed.within gate) inside
    rw [children_rewired regroups.enlarges.wellFormed (inside.trans_le regroups.enlarges.size_le),
      if_neg fun equal => apart equal same]
    exact regroups.enlarges.children other small
  · rfl

/-- A step leaves no long gates but those that were long, and not its own one. -/
theorem Long.of_binaryGate (long : Long kind (binaryGate kind c gate) other)
    (connective : kind = .and ∨ kind = .or) (wellFormed : c.WellFormed) : Long kind c other ∧ other ≠ gate := by
  obtain ⟨is_kind, many⟩ := long
  by_cases same : c.kind gate = kind
  · have inside : gate < c.size := (evaluable_of_connective (same.symm ▸ connective)).lt
    have regroups := pairDown_regroups connective (c.children gate).length wellFormed
      (wellFormed.within gate) inside
    have pairs := addsPairs_pairDown connective (c.children gate).length wellFormed
      (wellFormed.within gate) inside
    have few : (pairDown kind (c.children gate).length (c.children gate) c).1.length ≤ 2 :=
      length_pairDown_le (Nat.le_add_right _ _)
    have made : binaryGate kind c gate =
        (pairDown kind (c.children gate).length (c.children gate) c).2.setChildren gate
          (pairDown kind (c.children gate).length (c.children gate) c).1 := if_pos same
    generalize pairDown kind (c.children gate).length (c.children gate) c = result at regroups pairs few made
    have enlarges := regroups.enlarges
    rw [made, children_rewired enlarges.wellFormed (inside.trans_le enlarges.size_le)] at many
    rw [made, kind_setChildren] at is_kind
    split at many
    · exact absurd many (Nat.not_lt_of_le few)
    · rename_i different
      rcases Nat.lt_or_ge other c.size with old | new
      · rw [enlarges.kind other old] at is_kind
        rw [enlarges.children other old] at many
        exact ⟨⟨is_kind, many⟩, different⟩
      · have two := (pairs other new (evaluable_of_connective (is_kind.symm ▸ connective)).lt).2
        exact absurd many (by rw [two]; exact Nat.lt_irrefl 2)
  · rw [binaryGate, if_neg same] at is_kind many
    refine ⟨⟨is_kind, many⟩, ?_⟩
    rintro rfl
    exact same is_kind

section Fold

variable {gates : List Nat} (connective : kind = .and ∨ kind = .or) (wellFormed : c.WellFormed)

include connective wellFormed

theorem Long.of_foldl (long : Long kind (gates.foldl (binaryGate kind) c) other) :
    Long kind c other ∧ other ∉ gates := by
  induction gates generalizing c with
  | nil => exact ⟨long, List.not_mem_nil⟩
  | cons gate gates ih =>
    obtain ⟨later, missing⟩ := ih (refines_binaryGate connective wellFormed gate).wellFormed long
    obtain ⟨here, different⟩ := later.of_binaryGate connective wellFormed
    exact ⟨here, fun listed => (List.mem_cons.1 listed).elim different missing⟩

theorem children_foldl_binaryGate (small : other < c.size) (other_kind : c.kind other ≠ kind) :
    (gates.foldl (binaryGate kind) c).children other = c.children other := by
  induction gates generalizing c with
  | nil => rfl
  | cons gate gates ih =>
    have refines := refines_binaryGate connective wellFormed gate
    have later := ih refines.wellFormed (small.trans_le refines.size_le) (by rwa [refines.kind other small])
    exact later.trans (children_binaryGate connective wellFormed small fun same => same ▸ other_kind)

end Fold

/-! ## All gates -/

/-- The d-DNNF with binary gates of a kind has no gate of the kind with more than two children.  The gates of
before keep their kinds and their values, those of other kinds keep their children, and conjunctions stay
decomposable and disjunctions deterministic.  Only conjunctions and disjunctions can be made binary, and after
the failure the d-DNNF is the one before. -/
theorem binary_faithful {d : DDnnf α} (wellFormed : d.circuit.WellFormed) (inside : d.root < d.circuit.size) :
    (∀ kind, kind = .and ∨ kind = .or → ∃ d', d.binary kind = .ok d' ∧ d'.root = d.root ∧
      (∀ gate, d'.circuit.kind gate = kind → (d'.circuit.children gate).length ≤ 2) ∧
      (∀ gate < d.circuit.size, gate < d'.circuit.size ∧
        d'.circuit.kind gate = d.circuit.kind gate ∧
        (d.circuit.kind gate ≠ kind → d'.circuit.children gate = d.circuit.children gate) ∧
        ∀ world value, d'.circuit.evaluate gate world = .ok value ↔ d.circuit.evaluate gate world = .ok value) ∧
      d'.circuit.Acyclic ∧
      (d.circuit.Decomposable d.root → d'.circuit.Decomposable d'.root) ∧
      (d.circuit.Deterministic d.root → d'.circuit.Deterministic d'.root)) ∧
    ∀ kind, kind ≠ .and → kind ≠ .or →
      d.binary kind = Outcome.fail (.notBinarizable kind.label) ∧ Use.step d (.binary kind) = d := by
  constructor
  · intro kind connective
    have refines := refines_foldl_binaryGate connective wellFormed d.circuit.gates
    refine ⟨_, if_pos connective, rfl, fun gate is_kind => ?_, fun gate small => ?_,
      refines.wellFormed.acyclic, refines.decomposable d.root inside, refines.deterministic d.root inside⟩
    · by_contra many
      have long : Long kind (d.circuit.gates.foldl (binaryGate kind) d.circuit) gate :=
        ⟨is_kind, Nat.lt_of_not_le many⟩
      obtain ⟨⟨was_kind, _⟩, missing⟩ := long.of_foldl connective wellFormed
      exact missing (List.mem_range.2 (evaluable_of_connective (was_kind.symm ▸ connective)).lt)
    · exact ⟨small.trans_le refines.size_le, refines.kind gate small,
        children_foldl_binaryGate connective wellFormed small, refines.evaluate_iff wellFormed small⟩
  · intro kind no_and no_or
    have refused : d.binary kind = Outcome.fail (.notBinarizable kind.label) :=
      if_neg fun connective => connective.elim no_and no_or
    refine ⟨refused, ?_⟩
    rw [Use.step, refused]
    rfl

/-- The conjunction of five inputs. -/
def wideConjunction : Circuit Rat :=
  ((((((Circuit.empty.addInput (9 / 10)).2.addInput (9 / 10)).2.addInput (9 / 10)).2.addInput (9 / 10)).2.addInput
    (9 / 10)).2.addNode .and [0, 1, 2, 3, 4]).2

/-- A conjunction of five inputs gets the last input and a conjunction of pairs of the others for children. -/
theorem binary_faithful_wideConjunction :
    wideConjunction.WellFormed ∧ 5 < wideConjunction.size ∧
    ∃ d', (ofCircuit wideConjunction 5).binary .and = .ok d' ∧
      d'.circuit.children 5 = [8, 4] ∧
      (∀ gate, d'.circuit.kind gate = .and → (d'.circuit.children gate).length ≤ 2) ∧
      ∀ world value, d'.circuit.evaluate 5 world = .ok value ↔ wideConjunction.evaluate 5 world = .ok value := by
  have inStep : wideConjunction.InStep :=
    InStep.addNode _ _ _ (((((inStep_empty.addInput _).addInput _).addInput _).addInput _).addInput _)
  have wellFormed : wideConjunction.WellFormed := inStep.wellFormed (by decide)
  have inside : 5 < wideConjunction.size := by decide
  obtain ⟨d', made, _, few, kept, _⟩ :=
    (binary_faithful (d := ofCircuit wideConjunction 5) wellFormed inside).1 .and (Or.inl rfl)
  have children : ((ofCircuit wideConjunction 5).binary .and).toOption.map (·.circuit.children 5) =
      some [8, 4] := by decide +kernel
  rw [made] at children
  exact ⟨wellFormed, inside, d', made, Option.some.inj children, few, (kept 5 inside).2.2.2⟩

end Provenance.DDnnf
