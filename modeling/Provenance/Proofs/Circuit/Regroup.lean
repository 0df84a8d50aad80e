import Provenance.Proofs.Circuit.Rewire

/-!
# Gates between a gate and its children

Lists of children that stand for others can be put together and one behind the other (`Replaces.append`,
`Replaces.trans`), and a new gate of the same kind stands for its children (`replaces_children`).  A change
that puts new gates between a gate and its children regroups them (`Regroups`), and the circuit that comes
out refines the one before (`Regroups.refines`).
-/

namespace Provenance

open Provenance.Network

namespace Circuit

variable {α : Type} {c c' : Circuit α} {kind : Kind} {old middle new left right left' right' : List Nat}

/-! ## Lists that stand for others -/

theorem Replaces.refl (within : ∀ child ∈ old, child < c.size) : c.Replaces kind old old where
  within := within
  nonempty := id
  reads_iff _ := Iff.rfl
  isFormula_iff := Iff.rfl
  value _ _ := rfl
  true_of _ _ child listed holds := ⟨child, listed, holds⟩
  disjoint _ := id
  exclusive _ := id
  readAlike _ := id
  decomposable _ := id
  deterministic _ := id
  smooth _ := id

theorem Replaces.trans (first : c.Replaces kind old middle) (second : c.Replaces kind middle new) :
    c.Replaces kind old new where
  within := second.within
  nonempty := first.nonempty ∘ second.nonempty
  reads_iff input := (second.reads_iff input).trans (first.reads_iff input)
  isFormula_iff := second.isFormula_iff.trans first.isFormula_iff
  value formulas world :=
    (second.value (first.isFormula_iff.2 formulas) world).trans (first.value formulas world)
  true_of is_or world child listed holds := by
    obtain ⟨other, there, holds⟩ := second.true_of is_or world child listed holds
    exact first.true_of is_or world other there holds
  disjoint is_and := second.disjoint is_and ∘ first.disjoint is_and
  exclusive is_or := second.exclusive is_or ∘ first.exclusive is_or
  readAlike is_or := second.readAlike is_or ∘ first.readAlike is_or
  decomposable disjoint all := second.decomposable (fun is_and => first.disjoint is_and (disjoint is_and))
    (first.decomposable disjoint all)
  deterministic exclusive all := second.deterministic
    (fun is_or => first.exclusive is_or (exclusive is_or)) (first.deterministic exclusive all)
  smooth alike all := second.smooth (fun is_or => first.readAlike is_or (alike is_or))
    (first.smooth alike all)

theorem Disjoint.sublist (apart : c.Disjoint old) (part : new.Sublist old) : c.Disjoint new :=
  List.Pairwise.sublist part apart

theorem Exclusive.sublist (exclusive : c.Exclusive old) (part : new.Sublist old) : c.Exclusive new :=
  fun world => (exclusive world).sublist part

theorem ReadAlike.subset (alike : c.ReadAlike old) (part : ∀ child ∈ new, child ∈ old) : c.ReadAlike new :=
  fun first listed second listed' => alike first (part first listed) second (part second listed')

/-- Where old children read alike, each new one reads what all of them read. -/
theorem Replaces.reads_of_readAlike (replaces : c.Replaces .or left left') (alike : c.ReadAlike old)
    (part : ∀ child ∈ left, child ∈ old) {child : Nat} (listed : child ∈ left') (input : Nat) :
    c.Reads child input ↔ ∃ other ∈ old, c.Reads other input := by
  constructor
  · intro reads
    obtain ⟨other, there, reads⟩ := (replaces.reads_iff input).1 ⟨child, listed, reads⟩
    exact ⟨other, part other there, reads⟩
  · rintro ⟨other, there, reads⟩
    obtain ⟨first, here⟩ := List.exists_mem_of_ne_nil left (replaces.nonempty (List.ne_nil_of_mem listed))
    have reads := (alike other there first (part first here) input).1 reads
    obtain ⟨member, there, reads⟩ := (replaces.reads_iff input).2 ⟨first, here, reads⟩
    exact (replaces.readAlike rfl (alike.subset part) member there child listed input).1 reads

theorem Replaces.append (first : c.Replaces kind left left') (second : c.Replaces kind right right') :
    c.Replaces kind (left ++ right) (left' ++ right') where
  within := List.forall_mem_append.2 ⟨first.within, second.within⟩
  nonempty some_child none := some_child <| by
    obtain ⟨none, none'⟩ := List.append_eq_nil_iff.1 none
    rw [List.append_eq_nil_iff]
    exact ⟨by_contra fun here => first.nonempty here none, by_contra fun here => second.nonempty here none'⟩
  reads_iff input := by
    simp only [List.mem_append, or_and_right, exists_or]
    exact or_congr (first.reads_iff input) (second.reads_iff input)
  isFormula_iff := by
    rw [List.forall_mem_append, List.forall_mem_append]
    exact and_congr first.isFormula_iff second.isFormula_iff
  value formulas world := by
    obtain ⟨formulas, formulas'⟩ := List.forall_mem_append.1 formulas
    rw [Kind.combine_append, Kind.combine_append, first.value formulas, second.value formulas']
  true_of is_or world := by
    refine List.forall_mem_append.2 ⟨fun child listed holds => ?_, fun child listed holds => ?_⟩
    · obtain ⟨other, there, holds⟩ := first.true_of is_or world child listed holds
      exact ⟨other, List.mem_append_left _ there, holds⟩
    · obtain ⟨other, there, holds⟩ := second.true_of is_or world child listed holds
      exact ⟨other, List.mem_append_right _ there, holds⟩
  disjoint is_and apart := by
    obtain ⟨apart, apart', cross⟩ := List.pairwise_append.1 apart
    refine List.pairwise_append.2 ⟨first.disjoint is_and apart, second.disjoint is_and apart', ?_⟩
    rintro child listed other listed' input ⟨reads, reads'⟩
    obtain ⟨child, there, reads⟩ := (first.reads_iff input).1 ⟨child, listed, reads⟩
    obtain ⟨other, there', reads'⟩ := (second.reads_iff input).1 ⟨other, listed', reads'⟩
    exact cross child there other there' input ⟨reads, reads'⟩
  exclusive is_or exclusive world := by
    obtain ⟨_, _, cross⟩ := List.pairwise_append.1 (exclusive world)
    have exclusive_left := first.exclusive is_or (exclusive.sublist (List.sublist_append_left ..))
    have exclusive_right := second.exclusive is_or (exclusive.sublist (List.sublist_append_right ..))
    refine List.pairwise_append.2 ⟨exclusive_left world, exclusive_right world, ?_⟩
    rintro child listed other listed' ⟨holds, holds'⟩
    obtain ⟨child, there, holds⟩ := first.true_of is_or world child listed holds
    obtain ⟨other, there', holds'⟩ := second.true_of is_or world other listed' holds'
    exact cross child there other there' ⟨holds, holds'⟩
  readAlike is_or alike := by
    subst is_or
    have all : ∀ child ∈ left' ++ right', ∀ input,
        c.Reads child input ↔ ∃ other ∈ left ++ right, c.Reads other input :=
      List.forall_mem_append.2
        ⟨fun child listed => first.reads_of_readAlike alike (fun _ => List.mem_append_left _) listed,
          fun child listed => second.reads_of_readAlike alike (fun _ => List.mem_append_right _) listed⟩
    intro child listed other listed' input
    rw [all child listed, all other listed']
  decomposable disjoint all := by
    obtain ⟨all, all'⟩ := List.forall_mem_append.1 all
    exact List.forall_mem_append.2
      ⟨first.decomposable (fun is_and => (disjoint is_and).sublist (List.sublist_append_left ..)) all,
        second.decomposable (fun is_and => (disjoint is_and).sublist (List.sublist_append_right ..)) all'⟩
  deterministic exclusive all := by
    obtain ⟨all, all'⟩ := List.forall_mem_append.1 all
    exact List.forall_mem_append.2
      ⟨first.deterministic (fun is_or => (exclusive is_or).sublist (List.sublist_append_left ..)) all,
        second.deterministic (fun is_or => (exclusive is_or).sublist (List.sublist_append_right ..)) all'⟩
  smooth alike all := by
    obtain ⟨all, all'⟩ := List.forall_mem_append.1 all
    exact List.forall_mem_append.2
      ⟨first.smooth (fun is_or => (alike is_or).subset fun _ => List.mem_append_left _) all,
        second.smooth (fun is_or => (alike is_or).subset fun _ => List.mem_append_right _) all'⟩

/-- A conjunction among the children of a conjunction stands for its own children, and so for
disjunctions. -/
theorem replaces_children (wellFormed : c.WellFormed) {gate : Nat}
    (connective : c.kind gate = .and ∨ c.kind gate = .or) (some_child : c.children gate ≠ []) :
    c.Replaces (c.kind gate) (c.children gate) [gate] := by
  have inside := (evaluable_of_connective connective).lt
  have other : c.kind gate ≠ .input := by rcases connective with kind | kind <;> rw [kind] <;> decide
  have formulas : c.IsFormula gate ↔ ∀ child ∈ c.children gate, c.IsFormula child := by
    rw [isFormula_iff wellFormed.inStep.even wellFormed.acyclic]
    exact and_iff_right (evaluable_of_connective connective)
  refine
    { within := List.forall_mem_singleton.2 inside
      nonempty := fun _ => some_child
      reads_iff := fun input => by rw [← reads_iff_of_ne_input other]; simp
      isFormula_iff := by rw [← formulas]; simp
      value := fun below world => by
        rw [Kind.combine_singleton, (formulas.2 below).value_combine connective]
      true_of := fun is_or world child listed holds => ?_
      disjoint := fun _ _ => List.pairwise_singleton ..
      exclusive := fun _ _ _ => List.pairwise_singleton ..
      readAlike := fun _ _ first listed second listed' input => ?_
      decomposable := fun disjoint all => List.forall_mem_singleton.2 (decomposable_iff.2 ⟨disjoint, all⟩)
      deterministic := fun exclusive all =>
        List.forall_mem_singleton.2 (deterministic_iff.2 ⟨exclusive, all⟩)
      smooth := fun alike all => List.forall_mem_singleton.2 (smooth_iff.2 ⟨alike, all⟩) }
  · rw [List.mem_singleton.1 listed] at holds
    have formula : c.IsFormula gate := by
      by_contra other
      rw [wellFormed.value_eq_false inside other] at holds
      cases holds
    rw [formula.value_or world is_or] at holds
    exact List.any_eq_true.1 holds
  · rw [List.mem_singleton.1 listed, List.mem_singleton.1 listed']

variable [Scalar α]

/-! ## New gates in between -/

/-- New gates on old ones, and a list of gates that stands for the children `old` of `gate`, however many
gates are added later. -/
structure Regroups (kind : Kind) (gate : Nat) (c : Circuit α) (old : List Nat)
    (result : List Nat × Circuit α) : Prop where
  enlarges : c.Enlarges result.2
  replaces : ∀ c', result.2.Enlarges c' → c'.Replaces kind old result.1
  /-- The gate is reached through its old children only. -/
  reaches : ∀ child ∈ result.1, result.2.Reaches child gate → ∃ lower ∈ old, result.2.Reaches lower gate

namespace Regroups

variable {gate : Nat} {result : List Nat × Circuit α}

theorem refl (wellFormed : c.WellFormed) (within : ∀ child ∈ old, child < c.size) :
    Regroups kind gate c old (old, c) where
  enlarges := .refl wellFormed
  replaces _ larger := .refl fun child listed => (within child listed).trans_le larger.size_le
  reaches child listed path := ⟨child, listed, path⟩

theorem within (regroups : Regroups kind gate c old result) : ∀ child ∈ result.1, child < result.2.size :=
  (regroups.replaces result.2 (.refl regroups.enlarges.wellFormed)).within

/-- Regrouping what was regrouped. -/
theorem trans {next : List Nat × Circuit α} (first : Regroups kind gate c old result)
    (second : Regroups kind gate result.2 result.1 next) (within : ∀ child ∈ old, child < c.size) :
    Regroups kind gate c old next where
  enlarges := first.enlarges.trans second.enlarges
  replaces c' larger := (first.replaces c' (second.enlarges.trans larger)).trans (second.replaces c' larger)
  reaches child listed path := by
    have wellFormed := first.enlarges.wellFormed
    obtain ⟨middle, there, path⟩ := second.reaches child listed path
    rw [second.enlarges.reaches_iff wellFormed (first.within middle there)] at path
    obtain ⟨lower, there, path⟩ := first.reaches middle there path
    refine ⟨lower, there, ?_⟩
    rwa [second.enlarges.reaches_iff wellFormed ((within lower there).trans_le first.enlarges.size_le)]

/-- A gate whose children are regrouped means the same. -/
theorem refines (regroups : Regroups (c.kind gate) gate c (c.children gate) result)
    (connective : c.kind gate = .and ∨ c.kind gate = .or) :
    result.2.Refines (result.2.setChildren gate result.1) := by
  have inside := (evaluable_of_connective connective).lt
  have wellFormed := regroups.enlarges.wellFormed
  have kind := regroups.enlarges.kind gate inside
  have children := regroups.enlarges.children gate inside
  have replaces := regroups.replaces result.2 (.refl wellFormed)
  rw [← kind, ← children] at replaces
  refine replaces.refines wellFormed (kind ▸ connective) fun child listed path => ?_
  obtain ⟨lower, wire, path⟩ := regroups.reaches child listed path
  rw [← children] at wire
  exact wellFormed.acyclic gate (Relation.TransGen.head' wire path)

end Regroups

end Circuit

end Provenance
