import Provenance.Proofs.Circuit.Rewire

/-!
# Constants and stand-ins

A conjunction without children is true and a disjunction without children is false, so each constant is neutral
among the children of one connective and absorbs those of the other one (`Kind.junction`).  A circuit is normal
below a root when no child is a constant and no conjunction or disjunction has one child only (`Normal`).  A gate
of another circuit stands for a gate when it has its values, reads nothing else and is in the classes of the gate
(`Stands`).  Stand-ins pass from the children of a gate to the gate: with an absorbing child a constant stands
for it, otherwise the gate over the children that are not neutral, or the only one of these.
-/

namespace Provenance

open Provenance.Network

/-- The connective for which a constant is neutral, which is that of the constant too. -/
def Kind.junction (neutral : Bool) : Kind := if neutral then .and else .or

theorem Kind.junction_eq (neutral : Bool) :
    Kind.junction neutral = .and ∨ Kind.junction neutral = .or := by
  cases neutral
  · exact Or.inr rfl
  · exact Or.inl rfl

/-- The other value comes about by one child. -/
theorem Kind.combine_junction (neutral : Bool) (value : Nat → Bool) (children : List Nat) :
    (Kind.junction neutral).combine value children = !neutral ↔ ∃ child ∈ children, value child = !neutral := by
  cases neutral
  · exact List.any_eq_true
  · show children.all value = false ↔ _
    simp

namespace Circuit

variable {α : Type} {c c' : Circuit α} {gate gate' child : Nat} {neutral : Bool}

/-! ## Constants -/

theorem constant?_eq_some :
    c.constant? gate = some neutral ↔ c.kind gate = .junction neutral ∧ c.children gate = [] := by
  unfold constant?
  cases c.kind gate <;> cases c.children gate <;> cases neutral <;> simp [Kind.junction]

/-- A junction has the other value when a child has it. -/
theorem IsFormula.value_eq_not_iff (formula : c.IsFormula gate) (kind : c.kind gate = .junction neutral)
    (world : World) :
    c.value world gate = !neutral ↔ ∃ child ∈ c.children gate, c.value world child = !neutral := by
  rw [formula.value_combine (kind ▸ Kind.junction_eq neutral), kind, Kind.combine_junction]

theorem IsFormula.value_of_constant (formula : c.IsFormula gate) (constant : c.constant? gate = some neutral)
    (world : World) : c.value world gate = neutral := by
  obtain ⟨kind, childless⟩ := constant?_eq_some.1 constant
  by_contra other
  obtain ⟨child, wire, -⟩ := (formula.value_eq_not_iff kind world).1 (Bool.eq_not.2 other)
  rw [childless] at wire
  exact List.not_mem_nil wire

/-- Below a root no child is a constant and no conjunction or disjunction has exactly one child. -/
def Normal (c : Circuit α) (root : Nat) : Prop :=
  ∀ gate, c.Reaches root gate → (∀ child ∈ c.children gate, c.constant? child = none) ∧
    (c.kind gate = .and ∨ c.kind gate = .or → (c.children gate).length ≠ 1)

theorem normal_iff : c.Normal gate ↔ ((∀ child ∈ c.children gate, c.constant? child = none) ∧
    (c.kind gate = .and ∨ c.kind gate = .or → (c.children gate).length ≠ 1)) ∧
      ∀ child ∈ c.children gate, c.Normal child :=
  forall_reaches_iff

theorem decomposable_of_childless (childless : c.children gate = []) : c.Decomposable gate := by
  intro other path _
  rw [path.eq_of_children_nil childless, childless]
  exact List.Pairwise.nil

theorem deterministic_of_childless (childless : c.children gate = []) : c.Deterministic gate := by
  intro other path _ world
  rw [path.eq_of_children_nil childless, childless]
  exact List.Pairwise.nil

/-! ## Stand-ins -/

/-- `gate'` has the values of `gate`, reads nothing else and is in the classes in which `gate` is. -/
structure Stands (c c' : Circuit α) (gate gate' : Nat) : Prop where
  formula : c'.IsFormula gate'
  value : ∀ world, c'.value world gate' = c.value world gate
  reads : ∀ input, c'.Reads gate' input → c.Reads gate input
  decomposable : c.Decomposable gate → c'.Decomposable gate'
  deterministic : c.Deterministic gate → c'.Deterministic gate'

namespace Stands

section

variable (even : c'.Even) (acyclic : c'.Acyclic)

include even acyclic

/-- A gate without children is in all classes, so only its value counts. -/
theorem of_constant (constant : c'.constant? gate' = some neutral)
    (value : ∀ world, c.value world gate = neutral) : Stands c c' gate gate' := by
  obtain ⟨kind, childless⟩ := constant?_eq_some.1 constant
  have formula : c'.IsFormula gate' := (isFormula_iff even acyclic).2
    ⟨evaluable_of_connective (kind ▸ Kind.junction_eq neutral), by simp [childless]⟩
  refine ⟨formula, fun world => ?_, fun input reads => ?_, fun _ => decomposable_of_childless childless,
    fun _ => deterministic_of_childless childless⟩
  · rw [formula.value_of_constant constant, value]
  · have is_input := reads.2
    rw [reads.1.eq_of_children_nil childless, kind] at is_input
    cases neutral <;> cases is_input

variable {stand : Nat → Nat} (below : ∀ child ∈ c.children gate, Stands c c' child (stand child))

include below

/-- The connective stays and neutral children are left out. -/
theorem of_kept (formula : c.IsFormula gate) (kind : c.kind gate = .junction neutral)
    (kind' : c'.kind gate' = .junction neutral)
    (kept : c'.children gate' = ((c.children gate).map stand).filter (c'.constant? · != some neutral)) :
    Stands c c' gate gate' := by
  have listed : ∀ child' ∈ c'.children gate', ∃ child ∈ c.children gate, stand child = child' := by
    intro child' wire
    rw [kept] at wire
    exact List.mem_map.1 (List.mem_filter.1 wire).1
  have formula' : c'.IsFormula gate' := by
    refine (isFormula_iff even acyclic).2 ⟨evaluable_of_connective (kind' ▸ Kind.junction_eq neutral), ?_⟩
    intro child' wire
    obtain ⟨child, lower, rfl⟩ := listed child' wire
    exact (below child lower).formula
  refine ⟨formula', fun world => ?value, fun input reads => ?reads, fun decomposable => ?decomposable,
    fun deterministic => ?deterministic⟩
  case value =>
    have same : c'.value world gate' = !neutral ↔ c.value world gate = !neutral := by
      rw [formula'.value_eq_not_iff kind', formula.value_eq_not_iff kind]
      constructor
      · rintro ⟨child', wire, other⟩
        obtain ⟨child, lower, rfl⟩ := listed child' wire
        exact ⟨child, lower, (below child lower).value world ▸ other⟩
      · rintro ⟨child, wire, other⟩
        rw [← (below child wire).value world] at other
        refine ⟨stand child, kept ▸ List.mem_filter.2 ⟨List.mem_map_of_mem wire, ?_⟩, other⟩
        -- a child that is left out has the neutral value
        rw [bne_iff_ne]
        intro constant
        rw [(below child wire).formula.value_of_constant constant] at other
        cases neutral <;> cases other
    cases neutral <;> simpa using same
  case reads =>
    have other : c'.kind gate' ≠ .input := by
      rw [kind']
      cases neutral <;> decide
    obtain ⟨child', wire, reads⟩ := (reads_iff_of_ne_input other).1 reads
    obtain ⟨child, lower, rfl⟩ := listed child' wire
    exact ((below child lower).reads input reads).of_child lower
  case decomposable =>
    obtain ⟨apart, classes⟩ := decomposable_iff.1 decomposable
    refine decomposable_iff.2 ⟨fun is_and => ?_, fun child' wire => ?_⟩
    · rw [kept]
      refine List.Pairwise.filter _ (List.pairwise_map.2 ?_)
      refine (apart (kind.trans (kind'.symm.trans is_and))).imp_of_mem ?_
      intro left right wire wire' apart input both
      exact apart input ⟨(below left wire).reads input both.1, (below right wire').reads input both.2⟩
    · obtain ⟨child, lower, rfl⟩ := listed child' wire
      exact (below child lower).decomposable (classes child lower)
  case deterministic =>
    obtain ⟨apart, classes⟩ := deterministic_iff.1 deterministic
    refine deterministic_iff.2 ⟨fun is_or world => ?_, fun child' wire => ?_⟩
    · rw [kept]
      refine List.Pairwise.filter _ (List.pairwise_map.2 ?_)
      refine (apart (kind.trans (kind'.symm.trans is_or)) world).imp_of_mem ?_
      intro left right wire wire' apart
      rwa [(below left wire).value world, (below right wire').value world]
    · obtain ⟨child, lower, rfl⟩ := listed child' wire
      exact (below child lower).deterministic (classes child lower)

/-- A negation stays over what stands for its child. -/
theorem of_negation (formula : c.IsFormula gate) (kind : c.kind gate = .not) (only : c.children gate = [child])
    (kind' : c'.kind gate' = .not) (only' : c'.children gate' = [stand child]) : Stands c c' gate gate' := by
  have lower : Stands c c' child (stand child) := below child (by simp [only])
  have formula' : c'.IsFormula gate' := by
    refine (isFormula_iff even acyclic).2 ⟨?_, by simpa [only'] using lower.formula⟩
    unfold Evaluable
    rw [kind']
    exact ⟨_, only'⟩
  refine ⟨formula', fun world => ?_, fun input reads => ?_, fun decomposable => ?_, fun deterministic => ?_⟩
  · rw [formula'.value_not world kind' only', formula.value_not world kind only, lower.value world]
  · obtain ⟨child', wire, reads⟩ := (reads_iff_of_ne_input (by rw [kind']; decide)).1 reads
    rw [only', List.mem_singleton] at wire
    rw [wire] at reads
    exact (lower.reads input reads).of_child (by simp [only])
  · refine decomposable_iff.2 ⟨fun is_and => ?_, ?_⟩
    · rw [kind'] at is_and
      cases is_and
    · simpa [only'] using lower.decomposable ((decomposable_iff.1 decomposable).2 child (by simp [only]))
  · refine deterministic_iff.2 ⟨fun is_or => ?_, ?_⟩
    · rw [kind'] at is_or
      cases is_or
    · simpa [only'] using lower.deterministic ((deterministic_iff.1 deterministic).2 child (by simp [only]))

end

/-- An input without children stands for itself. -/
theorem of_input (formula : c.IsFormula gate) (formula' : c'.IsFormula gate) (kind : c.kind gate = .input)
    (kind' : c'.kind gate = .input) (childless : c'.children gate = []) : Stands c c' gate gate := by
  refine ⟨formula', fun world => ?_, fun input reads => ?_, fun _ => decomposable_of_childless childless,
    fun _ => deterministic_of_childless childless⟩
  · rw [formula'.value_input world kind', formula.value_input world kind]
  · rw [reads.1.eq_of_children_nil childless]
    exact ⟨.refl gate, kind⟩

/-- The only child of a junction stands for what the junction stands for. -/
theorem only (stands : Stands c c' gate gate') (kind : c'.kind gate' = .junction neutral)
    (only : c'.children gate' = [child]) : Stands c c' gate child := by
  have wire : child ∈ c'.children gate' := by simp [only]
  refine ⟨stands.formula.child wire, fun world => ?_, fun input reads => stands.reads input (reads.of_child wire),
    fun decomposable => (decomposable_iff.1 (stands.decomposable decomposable)).2 child wire,
    fun deterministic => (deterministic_iff.1 (stands.deterministic deterministic)).2 child wire⟩
  have combined := stands.formula.value_combine (kind ▸ Kind.junction_eq neutral) world
  rw [only, Kind.combine_singleton] at combined
  rw [← combined, stands.value world]

end Stands

end Circuit

end Provenance
