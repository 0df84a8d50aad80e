import Provenance.DDnnf.Smooth
import Provenance.Proofs.DDnnf.Padding

/-!
# Smooth circuits mean the same

The table of reads lists for each gate the inputs that it reaches (`mem_readsInOrder`).  Each child of a
disjunction is padded with what it lacks of the reads of the disjunction, and the tautologies for that are
made when they are needed and found again later (`Stocked`).  So a step makes its gate smooth and refines the
circuit (`smoothGate_spec`); with the children before their parents the circuit that comes out is smooth below
the root (`smooth_spec`).
-/

namespace Provenance

open Provenance.Order Provenance.Network

namespace Circuit

variable {α : Type} {c c' c'' : Circuit α} {gate child : Nat}

/-! ## One more child -/

variable [Scalar α]

/-- `c'` has more gates than `c`, none of them an input, and perhaps other children for one gate. -/
structure EnlargesBut (gate : Nat) (c c' : Circuit α) : Prop where
  wellFormed : c'.WellFormed
  size_le : c.size ≤ c'.size
  kind : ∀ other < c.size, c'.kind other = c.kind other
  children : ∀ other < c.size, other ≠ gate → c'.children other = c.children other
  naming : c'.naming = c.naming
  prob_eq : c'.prob = c.prob
  input_iff : ∀ other, c'.kind other = .input ↔ c.kind other = .input

namespace EnlargesBut

theorem trans (first : EnlargesBut gate c c') (second : EnlargesBut gate c' c'') : EnlargesBut gate c c'' where
  wellFormed := second.wellFormed
  size_le := first.size_le.trans second.size_le
  kind other small :=
    (second.kind other (small.trans_le first.size_le)).trans (first.kind other small)
  children other small different :=
    (second.children other (small.trans_le first.size_le) different).trans
      (first.children other small different)
  naming := second.naming.trans first.naming
  prob_eq := second.prob_eq.trans first.prob_eq
  input_iff other := (second.input_iff other).trans (first.input_iff other)

theorem of_enlarges (enlarges : c.Enlarges c') : EnlargesBut gate c c' where
  wellFormed := enlarges.wellFormed
  size_le := enlarges.size_le
  kind := enlarges.kind
  children other small _ := enlarges.children other small
  naming := enlarges.naming
  prob_eq := enlarges.prob_eq
  input_iff := enlarges.input_iff

/-- The gate with other children may be new itself. -/
theorem enlarges (first : c.Enlarges c') (second : EnlargesBut gate c' c'') (new : c.size ≤ gate) :
    c.Enlarges c'' where
  size_le := first.size_le.trans second.size_le
  kind other small :=
    (second.kind other (small.trans_le first.size_le)).trans (first.kind other small)
  children other small :=
    (second.children other (small.trans_le first.size_le) (small.trans_le new).ne).trans
      (first.children other small)
  name? other small := by
    have naming := second.naming.trans first.naming
    show c''.naming.name? other = c.naming.name? other
    rw [naming]
  prob other _ := congrFun (second.prob_eq.trans first.prob_eq) other
  wellFormed := second.wellFormed
  naming := second.naming.trans first.naming
  prob_eq := second.prob_eq.trans first.prob_eq
  input_iff other := (second.input_iff other).trans (first.input_iff other)

theorem addWire (wellFormed : c.WellFormed) (small : gate < c.size) (inside : child < c.size)
    (apart : ¬ c.Reaches child gate) : EnlargesBut gate c (c.addWire gate child) where
  wellFormed := by
    rw [addWire_eq_setChildren]
    have above : ∀ lower ∈ c.children gate, ¬ c.Reaches lower gate := fun lower wire path =>
      wellFormed.acyclic gate (Relation.TransGen.head' wire path)
    exact wellFormed.setChildren small
      (List.forall_mem_append.2 ⟨above, List.forall_mem_singleton.2 apart⟩)
      (List.forall_mem_append.2 ⟨wellFormed.within gate, List.forall_mem_singleton.2 inside⟩)
  size_le := Nat.le_refl _
  kind _ _ := rfl
  children other _ different := by
    rw [children_addWire c gate child other (wellFormed.inStep.wires ▸ small), if_neg different]
  naming := rfl
  prob_eq := rfl
  input_iff _ := Iff.rfl

end EnlargesBut

theorem IsLeaf.of_enlargesBut {input : Nat} (leaf : c.IsLeaf input) (enlarges : EnlargesBut gate c c')
    (other : c.kind gate ≠ .input) : c'.IsLeaf input := by
  have small := lt_of_input leaf.1
  have different : input ≠ gate := fun same => other (same ▸ leaf.1)
  exact ⟨(enlarges.kind input small).trans leaf.1, (enlarges.children input small different).trans leaf.2⟩

/-- Tautologies stay when a gate of another kind gets other children. -/
theorem Tautology.of_enlargesBut {base input negation tautology : Nat}
    (is_tautology : c.Tautology base input tautology negation) (enlarges : EnlargesBut gate c c')
    (is_and : c.kind gate = .and) : c'.Tautology base input tautology negation := by
  refine is_tautology.of_same fun other listed => ?_
  have kind : c.kind other = .or ∨ c.kind other = .not ∨ c.kind other = .input := by
    rcases listed with rfl | rfl | rfl
    · exact Or.inl is_tautology.kind
    · exact Or.inr (Or.inl is_tautology.kind_negation)
    · exact Or.inr (Or.inr is_tautology.leaf.1)
  have inside : other < c.size := lt_of_kind (by rcases kind with kind | kind | kind <;> rw [kind] <;> decide)
  have different : other ≠ gate := by
    rintro rfl
    rw [is_and] at kind
    exact absurd kind (by decide)
  exact ⟨enlarges.kind other inside, enlarges.children other inside different⟩

end Circuit

namespace DDnnf

open Provenance.Circuit

variable {α : Type} {c : Circuit α} {gate i : Nat}

/-! ## The table of reads -/

theorem mem_foldl_union {table : Std.TreeMap Nat GateSet} (children : List Nat) (own : GateSet) :
    i ∈ children.foldl (fun set child => set.union (table.getD child ∅)) own ↔
      i ∈ own ∨ ∃ child ∈ children, i ∈ table.getD child ∅ := by
  induction children generalizing own with
  | nil => simp
  | cons child children ih =>
    rw [List.foldl_cons, ih, GateSet.mem_union, or_assoc]
    simp

/-- A gate is listed with what it reads when its children are. -/
theorem mem_addReads (inStep : c.InStep) {reads : Std.TreeMap Nat GateSet}
    (below : ∀ child ∈ c.children gate, ∀ i, i ∈ reads.getD child ∅ ↔ c.Reads child i) :
    i ∈ (addReads c reads gate).getD gate ∅ ↔ c.Reads gate i := by
  have own : i ∈ (if c.inputs.contains gate then GateSet.singleton gate else ∅) ↔
      i = gate ∧ c.kind i = .input := by
    split
    · rename_i input
      rw [GateSet.contains_iff, inStep.inputs] at input
      rw [GateSet.mem_singleton, iff_self_and]
      rintro rfl
      exact input
    · rename_i other
      rw [GateSet.contains_iff, inStep.inputs] at other
      refine iff_of_false GateSet.not_mem_emptyCollection ?_
      rintro ⟨rfl, input⟩
      exact other input
  rw [addReads, Std.TreeMap.getD_insert_self, mem_foldl_union, own, reads_iff,
    exists_congr fun child => and_congr_right fun wire => below child wire i]

theorem mem_readsInOrder (inStep : c.InStep) {order : List Nat} (first : ChildrenFirst c.children order) :
    ∀ gate ∈ order, ∀ i, i ∈ (readsInOrder c order).getD gate ∅ ↔ c.Reads gate i := by
  suffices ∀ rest before reads, order = before ++ rest →
      (∀ gate ∈ before, ∀ i, i ∈ reads.getD gate ∅ ↔ c.Reads gate i) →
        ∀ gate ∈ order, ∀ i, i ∈ (rest.foldl (addReads c) reads).getD gate ∅ ↔ c.Reads gate i from
    this order [] ∅ rfl fun _ none => absurd none List.not_mem_nil
  intro rest
  induction rest with
  | nil =>
    intro before reads split listed
    rw [List.append_nil] at split
    exact split ▸ listed
  | cons gate rest ih =>
    intro before reads split listed
    refine ih (before ++ [gate]) _ (by rw [split, List.append_assoc]; rfl) fun other member i => ?_
    by_cases same : other = gate
    · subst same
      exact mem_addReads inStep fun child wire => listed child (first before other rest split child wire)
    · have earlier := (List.mem_append.1 member).resolve_right fun last => same (List.mem_singleton.1 last)
      rw [addReads, Std.TreeMap.getD_insert, if_neg fun equal => same (Nat.compare_eq_eq.1 equal).symm]
      exact listed other earlier i

/-! ## Making tautologies -/

variable [Scalar α]

namespace Smoothing

variable {base input : Nat} {s : Smoothing α}

/-- The tautologies of the table are tautologies of the circuit, made behind the gates below `base`. -/
structure Stocked (base : Nat) (s : Smoothing α) : Prop where
  wellFormed : s.circuit.WellFormed
  base_le : base ≤ s.circuit.size
  tautologies : ∀ input gate, s.tautologies[input]? = some gate →
    ∃ negation, s.circuit.Tautology base input gate negation

theorem Stocked.of_enlarges {c : Circuit α} (stocked : s.Stocked base) (enlarges : s.circuit.Enlarges c) :
    Stocked base { s with circuit := c } where
  wellFormed := enlarges.wellFormed
  base_le := stocked.base_le.trans enlarges.size_le
  tautologies other gate listed :=
    have ⟨negation, tautology⟩ := stocked.tautologies other gate listed
    ⟨negation, tautology.of_extends enlarges.toExtends⟩

omit [Scalar α] in
/-- One more tautology, made for its input. -/
theorem Stocked.insert {negation : Nat} (stocked : s.Stocked base)
    (tautology : s.circuit.Tautology base input gate negation) :
    Stocked base { s with tautologies := s.tautologies.insert input gate } where
  wellFormed := stocked.wellFormed
  base_le := stocked.base_le
  tautologies other gate' listed := by
    rw [Std.TreeMap.getElem?_insert] at listed
    split at listed
    · rename_i same
      obtain rfl := Nat.compare_eq_eq.1 same
      obtain rfl := Option.some.inj listed
      exact ⟨negation, tautology⟩
    · exact stocked.tautologies other gate' listed

omit [Scalar α] in
/-- Other children for a disjunction below `base` leave the tautologies as they are. -/
theorem Stocked.setChildren (stocked : s.Stocked base) (small : gate < base) (is_or : s.circuit.kind gate = .or)
    {children : List Nat} (wellFormed : (s.circuit.setChildren gate children).WellFormed) :
    Stocked base { s with circuit := s.circuit.setChildren gate children } where
  wellFormed := wellFormed
  base_le := stocked.base_le
  tautologies input taut there := by
    have inside : gate < s.circuit.size := small.trans_le stocked.base_le
    obtain ⟨negation, tautology⟩ := stocked.tautologies input taut there
    refine ⟨negation, tautology.of_same fun other among => ⟨rfl, ?_⟩⟩
    rw [children_rewired stocked.wellFormed inside, if_neg]
    rintro rfl
    rcases among with rfl | rfl | rfl
    · exact absurd tautology.behind (Nat.not_le_of_lt small)
    · exact absurd tautology.behind_negation (Nat.not_le_of_lt small)
    · have kind := tautology.leaf.1
      rw [is_or] at kind
      cases kind

/-- A negation and a disjunction make a tautology of an input. -/
theorem tautology_addNode {c : Circuit α} (wellFormed : c.WellFormed) (base_le : base ≤ c.size)
    (leaf : c.IsLeaf input) : ∃ negated both, (c.addNode .not [input]).2 = negated ∧
      (negated.addNode .or [input, c.size]).2 = both ∧ c.Enlarges both ∧
      both.Tautology base input negated.size c.size := by
  refine ⟨_, _, rfl, rfl, ?_⟩
  generalize negated_eq : (c.addNode .not [input]).2 = negated
  generalize both_eq : (negated.addNode .or [input, c.size]).2 = both
  have size : negated.size = c.size + 1 := by rw [← negated_eq, size_addNode]
  have small : input < c.size := lt_of_input leaf.1
  have first : c.Enlarges negated := negated_eq ▸ Enlarges.addNode wellFormed (by decide)
    (List.forall_mem_singleton.2 small)
  have second : negated.Enlarges both := by
    refine both_eq ▸ Enlarges.addNode first.wellFormed (by decide) fun child listed => ?_
    rcases List.mem_pair.1 listed with rfl | rfl <;> omega
  have kinds : ∀ other, both.kind other = if other = negated.size then .or else
      if other = c.size then .not else c.kind other := fun other => by
    rw [← both_eq, kind_addNode, ← negated_eq, kind_addNode]
  have wires : ∀ other, both.children other = if other = negated.size then [input, c.size] else
      if other = c.size then [input] else c.children other := fun other => by
    rw [← both_eq, children_addNode _ _ _ first.wellFormed.inStep, ← negated_eq,
      children_addNode _ _ _ wellFormed.inStep]
  exact ⟨first.trans second,
    { leaf := leaf.of_extends (first.trans second).toExtends
      kind := by rw [kinds, if_pos rfl]
      children := by rw [wires, if_pos rfl]
      kind_negation := by rw [kinds, if_neg (by omega), if_pos rfl]
      children_negation := by rw [wires, if_neg (by omega), if_pos rfl]
      behind := by omega
      behind_negation := base_le }⟩

theorem tautology_spec (stocked : s.Stocked base) (leaf : s.circuit.IsLeaf input) :
    (s.tautology input).2.Stocked base ∧ s.circuit.Enlarges (s.tautology input).2.circuit ∧
      ∃ negation, (s.tautology input).2.circuit.Tautology base input (s.tautology input).1 negation := by
  cases found : s.tautologies[input]? with
  | some gate =>
    have same : s.tautology input = (gate, s) := by simp only [tautology, found]
    rw [same]
    exact ⟨stocked, .refl stocked.wellFormed, stocked.tautologies input gate found⟩
  | none =>
    obtain ⟨negated, both, negated_eq, both_eq, enlarges, new⟩ :=
      tautology_addNode stocked.wellFormed stocked.base_le leaf
    have made : s.tautology input = (negated.size, ⟨both, s.tautologies.insert input negated.size⟩) := by
      simp only [tautology, found, ← both_eq, ← negated_eq]
      rfl
    rw [made]
    exact ⟨(stocked.of_enlarges enlarges).insert new, enlarges, _, new⟩

/-- A conjunction gets the tautology of an input. -/
theorem addWire_tautology {gate child : Nat} {s' : Smoothing α} (made : s.tautology input = (child, s'))
    (stocked : s.Stocked base) (is_and : s.circuit.kind gate = .and) (leaf : s.circuit.IsLeaf input) :
    Stocked base { s' with circuit := s'.circuit.addWire gate child } ∧
      EnlargesBut gate s.circuit (s'.circuit.addWire gate child) ∧
      (s'.circuit.addWire gate child).children gate = s.circuit.children gate ++ [child] ∧
      ∃ negation, (s'.circuit.addWire gate child).Tautology base input child negation := by
  have spec := tautology_spec stocked leaf
  rw [made] at spec
  obtain ⟨stocked', enlarges, negation, tautology⟩ := spec
  have inside : gate < s.circuit.size := lt_of_kind (by rw [is_and]; decide)
  have inside' := inside.trans_le enlarges.size_le
  have is_and' := (enlarges.kind gate inside).trans is_and
  have apart : ¬ s'.circuit.Reaches child gate := by
    intro path
    rcases tautology.reaches path with rfl | rfl | rfl
    · rw [tautology.kind] at is_and'; cases is_and'
    · rw [tautology.kind_negation] at is_and'; cases is_and'
    · rw [tautology.leaf.1] at is_and'; cases is_and'
  have wired := EnlargesBut.addWire stocked'.wellFormed inside' tautology.lt apart
  refine ⟨⟨wired.wellFormed, stocked'.base_le, fun other taut listed => ?_⟩,
    (EnlargesBut.of_enlarges enlarges).trans wired, ?_, negation, tautology.of_enlargesBut wired is_and'⟩
  · obtain ⟨negation, tautology⟩ := stocked'.tautologies other taut listed
    exact ⟨negation, tautology.of_enlargesBut wired is_and'⟩
  · rw [Circuit.children_addWire _ _ _ _ (stocked'.wellFormed.inStep.wires ▸ inside'), if_pos rfl,
      enlarges.children gate inside]

/-- A conjunction gets a tautology for each of some inputs. -/
theorem addTautologies_spec {gate : Nat} (missing : List Nat) (stocked : s.Stocked base)
    (is_and : s.circuit.kind gate = .and) (leaves : ∀ input ∈ missing, s.circuit.IsLeaf input) :
    (s.addTautologies gate missing).Stocked base ∧
      EnlargesBut gate s.circuit (s.addTautologies gate missing).circuit ∧
      ∃ tautologies : List (Nat × Nat), tautologies.map Prod.fst = missing ∧
        (s.addTautologies gate missing).circuit.children gate =
          s.circuit.children gate ++ tautologies.map Prod.snd ∧
        ∀ entry ∈ tautologies, ∃ negation,
          (s.addTautologies gate missing).circuit.Tautology base entry.1 entry.2 negation := by
  induction missing generalizing s with
  | nil =>
    refine ⟨stocked, .of_enlarges (.refl stocked.wellFormed), [], rfl, (List.append_nil _).symm, ?_⟩
    exact fun entry none => absurd none List.not_mem_nil
  | cons input missing ih =>
    obtain ⟨⟨child, s'⟩, found⟩ : ∃ result, s.tautology input = result := ⟨_, rfl⟩
    have made : s.addTautologies gate (input :: missing) =
        { s' with circuit := s'.circuit.addWire gate child }.addTautologies gate missing := by
      rw [addTautologies, found]
    obtain ⟨leaf, leaves⟩ := List.forall_mem_cons.1 leaves
    obtain ⟨stocked', wired, children, negation, tautology⟩ := addWire_tautology found stocked is_and leaf
    have is_and' := (wired.kind gate (lt_of_kind (by rw [is_and]; decide))).trans is_and
    obtain ⟨stocked'', more, tautologies, listed, children', all⟩ := ih stocked' is_and' fun other member =>
      (leaves other member).of_enlargesBut wired (by rw [is_and]; decide)
    rw [made]
    refine ⟨stocked'', wired.trans more, (input, child) :: tautologies, ?_, ?_, ?_⟩
    · rw [List.map_cons, listed]
    · rw [children', children, List.append_assoc]
      rfl
    · exact List.forall_mem_cons.2 ⟨⟨negation, tautology.of_enlargesBut more is_and'⟩, all⟩

/-- A child is padded with what it misses. -/
theorem pad_spec {child : Nat} {missing : List Nat} (stocked : s.Stocked base)
    (inside : child < s.circuit.size) (leaves : ∀ input ∈ missing, s.circuit.IsLeaf input) :
    (s.pad child missing).2.Stocked base ∧ s.circuit.Enlarges (s.pad child missing).2.circuit ∧
      (s.pad child missing).2.circuit.Padded base child missing (s.pad child missing).1 := by
  cases missing with
  | nil => exact ⟨stocked, .refl stocked.wellFormed, Or.inl ⟨rfl, rfl⟩⟩
  | cons input rest =>
    obtain ⟨c, c_eq⟩ : ∃ c, c = (s.circuit.addNode .and [child]).2 := ⟨_, rfl⟩
    have made : s.pad child (input :: rest) =
        (s.circuit.size, { s with circuit := c }.addTautologies s.circuit.size (input :: rest)) := by
      rw [c_eq]
      rfl
    have first : s.circuit.Enlarges c := c_eq ▸ Enlarges.addNode stocked.wellFormed (by decide)
      (List.forall_mem_singleton.2 inside)
    have is_and : c.kind s.circuit.size = .and := by rw [c_eq, kind_addNode, if_pos rfl]
    have children : c.children s.circuit.size = [child] := by
      rw [c_eq, children_addNode _ _ _ stocked.wellFormed.inStep, if_pos rfl]
    obtain ⟨stocked', more, tautologies, listed, children', all⟩ :=
      addTautologies_spec (input :: rest) (stocked.of_enlarges first) is_and fun other member =>
        (leaves other member).of_extends first.toExtends
    rw [made]
    refine ⟨stocked', EnlargesBut.enlarges first more (Nat.le_refl _), Or.inr ⟨tautologies, listed, ?_⟩⟩
    exact
      { behind := stocked.base_le
        kind := (more.kind _ (lt_of_kind (by rw [is_and]; decide))).trans is_and
        children := by rw [children', children]; rfl
        tautology := all }

/-- All children are padded with what they lack. -/
theorem padAll_spec (reads : Std.TreeMap Nat GateSet) {all : GateSet} {children : List Nat}
    (stocked : s.Stocked base) (inside : ∀ child ∈ children, child < s.circuit.size)
    (leaves : ∀ input ∈ all, s.circuit.IsLeaf input) :
    (s.padAll reads all children).2.Stocked base ∧
      s.circuit.Enlarges (s.padAll reads all children).2.circuit ∧
      ∃ pads : List (Nat × Nat), pads.map Prod.fst = children ∧
        pads.map Prod.snd = (s.padAll reads all children).1 ∧
        ∀ pad ∈ pads, (s.padAll reads all children).2.circuit.Padded base pad.1
          (all.diff (reads.getD pad.1 ∅)).toList pad.2 := by
  induction children generalizing s with
  | nil =>
    refine ⟨stocked, .refl stocked.wellFormed, [], rfl, rfl, ?_⟩
    exact fun pad none => absurd none List.not_mem_nil
  | cons child children ih =>
    obtain ⟨⟨first, s'⟩, found⟩ :
      ∃ result, s.pad child (all.diff (reads.getD child ∅)).toList = result := ⟨_, rfl⟩
    have made : s.padAll reads all (child :: children) =
        (first :: (s'.padAll reads all children).1, (s'.padAll reads all children).2) := by
      rw [padAll, found]
    obtain ⟨here, below⟩ := List.forall_mem_cons.1 inside
    have spec := pad_spec stocked here fun input (member : input ∈ (all.diff (reads.getD child ∅)).toList) =>
      leaves input (GateSet.mem_diff.1 member).1
    rw [found] at spec
    obtain ⟨stocked', enlarges, padded⟩ := spec
    obtain ⟨stocked'', more, pads, listed, results, each⟩ := ih stocked'
      (fun other listed => (below other listed).trans_le enlarges.size_le) fun input member =>
        (leaves input member).of_extends enlarges.toExtends
    rw [made]
    refine ⟨stocked'', enlarges.trans more, (child, first) :: pads, ?_, ?_, ?_⟩
    · rw [List.map_cons, listed]
    · rw [List.map_cons, results]
    · exact List.forall_mem_cons.2 ⟨padded.of_extends more.toExtends, each⟩

/-! ## Smoothing a gate -/

/-- The inputs that a gate reads by the table and a child does not. -/
def lacking (reads : Std.TreeMap Nat GateSet) (gate child : Nat) : List Nat :=
  ((reads.getD gate ∅).diff (reads.getD child ∅)).toList

section Disjunction

variable {reads : Std.TreeMap Nat GateSet} {gate : Nat} {c : Circuit α} {pads : List (Nat × Nat)}
  (is_or : c.kind gate = .or) (wellFormed : c.WellFormed) (listed : pads.map Prod.fst = c.children gate)
  (own : ∀ i, i ∈ reads.getD gate ∅ ↔ c.Reads gate i)
  (below : ∀ child ∈ c.children gate, ∀ i, i ∈ reads.getD child ∅ ↔ c.Reads child i)

include is_or wellFormed listed own below

/-- The table tells what each child of a disjunction lacks, however many gates are added. -/
theorem mem_lacking {c' : Circuit α} (enlarges : c.Enlarges c') : ∀ pad ∈ pads, ∀ i,
    i ∈ lacking reads gate pad.1 ↔
      (∃ other ∈ pads.map Prod.fst, c'.Reads other i) ∧ ¬ c'.Reads pad.1 i := by
  intro pad member i
  have wire : pad.1 ∈ c.children gate := listed ▸ List.mem_map_of_mem member
  have reads' : ∀ other ∈ c.children gate, c'.Reads other i ↔ c.Reads other i := fun other wire =>
    enlarges.reads_iff wellFormed (wellFormed.within gate other wire)
  rw [lacking, ← GateSet.mem_def, GateSet.mem_diff, own, below pad.1 wire, listed, reads' pad.1 wire,
    exists_congr fun other => and_congr_right (reads' other), reads_iff_of_ne_input (by rw [is_or]; decide)]

/-- Padding regroups the children of a disjunction. -/
theorem regroups_pads {s' : Smoothing α} (small : gate < base) (enlarges : c.Enlarges s'.circuit)
    (padded : ∀ pad ∈ pads, s'.circuit.Padded base pad.1 (lacking reads gate pad.1) pad.2) :
    c.Regroups .or gate (c.children gate) (pads.map Prod.snd, s'.circuit) where
  enlarges := enlarges
  replaces c' larger := by
    have all := enlarges.trans larger
    rw [← listed]
    refine replaces_padded (lacking reads gate) (fun pad member => (padded pad member).of_extends larger.toExtends)
      (mem_lacking is_or wellFormed listed own below all) larger.wellFormed (fun pad member => ?_)
      fun pad member => GateSet.nodup_toList _
    have wire : pad.1 ∈ c.children gate := listed ▸ List.mem_map_of_mem member
    exact (wellFormed.within gate pad.1 wire).trans_le all.size_le
  reaches child there path := by
    obtain ⟨pad, member, rfl⟩ := List.mem_map.1 there
    refine ⟨pad.1, listed ▸ List.mem_map_of_mem member, (padded pad member).reaches small ?_ path⟩
    rw [enlarges.kind gate (lt_of_kind (by rw [is_or]; decide)), is_or]
    decide

/-- With padded children a disjunction is smooth if its old children are. -/
theorem smooth_setChildren_pads {c' : Circuit α} (enlarges : c.Enlarges c')
    (padded : ∀ pad ∈ pads, c'.Padded base pad.1 (lacking reads gate pad.1) pad.2)
    (refines : c'.Refines (c'.setChildren gate (pads.map Prod.snd)))
    (smooth : ∀ child ∈ c.children gate, c.Smooth child) :
    (c'.setChildren gate (pads.map Prod.snd)).Smooth gate := by
  have inside : gate < c.size := lt_of_kind (by rw [is_or]; decide)
  have wires := children_rewired enlarges.wellFormed (inside.trans_le enlarges.size_le) (pads.map Prod.snd)
  have lacks := mem_lacking is_or wellFormed listed own below enlarges
  have within : ∀ pad ∈ pads, pad.1 < c.size ∧ pad.2 < c'.size := fun pad member =>
    have small := wellFormed.within gate pad.1 (listed ▸ List.mem_map_of_mem member)
    ⟨small, (padded pad member).lt (small.trans_le enlarges.size_le)⟩
  have alike : c'.ReadAlike (pads.map Prod.snd) := by
    intro left there right there' i
    rw [reads_padded (lacking reads gate) padded lacks there, reads_padded (lacking reads gate) padded lacks there']
  rw [smooth_iff, wires, if_pos rfl, List.forall_mem_map]
  refine ⟨fun _ => (readAlike_congr ?_).2 alike, fun pad member => ?_⟩
  · exact List.forall_mem_map.2 fun pad member => refines.reads_iff pad.2 (within pad member).2
  · have below := smooth pad.1 (listed ▸ List.mem_map_of_mem member)
    rw [← enlarges.smooth_iff wellFormed (within pad member).1] at below
    exact refines.smooth pad.2 (within pad member).2 ((padded pad member).smooth below)

end Disjunction

/-- A step makes its gate smooth if its children are, and leaves what other gates mean and have for
children. -/
theorem smoothGate_spec {reads : Std.TreeMap Nat GateSet} {gate : Nat} (stocked : s.Stocked base)
    (small : gate < base) (own : ∀ i, i ∈ reads.getD gate ∅ ↔ s.circuit.Reads gate i)
    (below : ∀ child ∈ s.circuit.children gate, ∀ i, i ∈ reads.getD child ∅ ↔ s.circuit.Reads child i)
    (childless : ∀ i, s.circuit.Reads gate i → s.circuit.children i = []) :
    (smoothGate reads s gate).Stocked base ∧ s.circuit.Refines (smoothGate reads s gate).circuit ∧
      (∀ other < s.circuit.size, other ≠ gate →
        (smoothGate reads s gate).circuit.children other = s.circuit.children other) ∧
      ((∀ child ∈ s.circuit.children gate, s.circuit.Smooth child) →
        (smoothGate reads s gate).circuit.Smooth gate) := by
  have wellFormed := stocked.wellFormed
  by_cases is_or : s.circuit.kind gate = .or
  · obtain ⟨⟨children, s'⟩, found⟩ :
      ∃ result, s.padAll reads (reads.getD gate ∅) (s.circuit.children gate) = result := ⟨_, rfl⟩
    have made : smoothGate reads s gate = { s' with circuit := s'.circuit.setChildren gate children } := by
      rw [smoothGate, if_pos is_or, found]
    have leaves : ∀ input ∈ reads.getD gate ∅, s.circuit.IsLeaf input := fun input member =>
      have reads := (own input).1 member
      ⟨reads.2, childless input reads⟩
    have spec := padAll_spec reads stocked (wellFormed.within gate) leaves
    rw [found] at spec
    obtain ⟨stocked', enlarges, pads, listed, results, padded⟩ := spec
    obtain rfl : pads.map Prod.snd = children := results
    have enlarges : s.circuit.Enlarges s'.circuit := enlarges
    have inside : gate < s.circuit.size := lt_of_kind (by rw [is_or]; decide)
    have regroups := regroups_pads is_or wellFormed listed own below small enlarges padded
    have refines : s'.circuit.Refines (s'.circuit.setChildren gate (pads.map Prod.snd)) := by
      rw [← is_or] at regroups
      exact regroups.refines (Or.inr is_or)
    rw [made]
    refine ⟨stocked'.setChildren small ((enlarges.kind gate inside).trans is_or) refines.wellFormed,
      (enlarges.refines wellFormed).trans refines, fun other old different => ?_,
      smooth_setChildren_pads is_or wellFormed listed own below enlarges padded refines⟩
    rw [children_rewired enlarges.wellFormed (inside.trans_le enlarges.size_le), if_neg different,
      enlarges.children other old]
  · have made : smoothGate reads s gate = s := if_neg is_or
    rw [made]
    refine ⟨stocked, .refl wellFormed, fun _ _ _ => rfl, fun smooth => ?_⟩
    exact smooth_iff.2 ⟨fun kind => absurd kind is_or, smooth⟩

/-! ## Smoothing all gates in order -/

/-- The gates of `before` are smooth, and the others have the children that they had. -/
structure Progress (c : Circuit α) (before : List Nat) (s : Smoothing α) : Prop where
  stocked : s.Stocked c.size
  refines : c.Refines s.circuit
  smooth : ∀ gate ∈ before, s.circuit.Smooth gate
  children : ∀ gate < c.size, gate ∉ before → s.circuit.children gate = c.children gate

theorem Progress.start {c : Circuit α} (wellFormed : c.WellFormed) : Progress c [] ⟨c, ∅⟩ where
  stocked := ⟨wellFormed, Nat.le_refl _, fun input gate found => by simp at found⟩
  refines := .refl wellFormed
  smooth gate none := absurd none List.not_mem_nil
  children _ _ _ := rfl

section Order

variable {c : Circuit α} {order : List Nat} (wellFormed : c.WellFormed)
  (first : ChildrenFirst c.children order) (nodup : order.Nodup) (inside : ∀ gate ∈ order, gate < c.size)
  (childless : ∀ gate ∈ order, ∀ i, c.Reads gate i → c.children i = [])

include wellFormed first nodup inside childless

theorem Progress.step {before after : List Nat} {gate : Nat} (progress : Progress c before s)
    (split : order = before ++ gate :: after) :
    Progress c (before ++ [gate]) (smoothGate (readsInOrder c order) s gate) := by
  have refines := progress.refines
  have here : gate ∈ order := by simp [split]
  have earlier : ∀ other ∈ before, other ∈ order := fun other member => by simp [split, member]
  have small := inside gate here
  have new : gate ∉ before := by
    rw [split] at nodup
    exact fun member => (List.nodup_append.1 nodup).2.2 gate member gate List.mem_cons_self rfl
  have children := progress.children gate small new
  have table : ∀ other ∈ order, ∀ i, i ∈ (readsInOrder c order).getD other ∅ ↔ s.circuit.Reads other i :=
    fun other listed i => by
      rw [mem_readsInOrder wellFormed.inStep first other listed, refines.reads_iff other (inside other listed)]
  have lower : ∀ child ∈ s.circuit.children gate, child ∈ before := fun child wire =>
    first before gate after split child (children ▸ wire)
  obtain ⟨stocked, next, others, smooth⟩ := smoothGate_spec progress.stocked small (table gate here)
    (fun child wire => table child (earlier child (lower child wire))) fun i reads => by
      have reads := (refines.reads_iff gate small i).1 reads
      rw [refines.children i reads.2]
      exact childless gate here i reads
  refine ⟨stocked, refines.trans next, fun other member => ?_, fun other old missing => ?_⟩
  · rcases List.mem_append.1 member with member | last
    · exact next.smooth other ((inside other (earlier other member)).trans_le refines.size_le)
        (progress.smooth other member)
    · rw [List.mem_singleton.1 last]
      exact smooth fun child wire => progress.smooth child (lower child wire)
  · rw [List.mem_append, not_or, List.mem_singleton] at missing
    rw [others other (old.trans_le refines.size_le) missing.2, progress.children other old missing.1]

/-- Behind their children all gates of an order become smooth. -/
theorem progress_foldl :
    Progress c order (order.foldl (smoothGate (readsInOrder c order)) ⟨c, ∅⟩) := by
  suffices ∀ rest before s, order = before ++ rest → Progress c before s →
      Progress c order (rest.foldl (smoothGate (readsInOrder c order)) s) from
    this order [] _ rfl (.start wellFormed)
  intro rest
  induction rest with
  | nil =>
    intro before s split progress
    rw [List.append_nil] at split
    exact split ▸ progress
  | cons gate rest ih =>
    intro before s split progress
    exact ih (before ++ [gate]) _ (by rw [split, List.append_assoc]; rfl)
      (progress.step wellFormed first nodup inside childless split)

end Order

end Smoothing

/-- A d-DNNF whose inputs have no children is made smooth, and the circuit that comes out refines the one
before. -/
theorem smooth_spec {d : DDnnf α} (wellFormed : d.circuit.WellFormed) (inside : d.root < d.circuit.size)
    (childless : ∀ i, d.circuit.Reads d.root i → d.circuit.children i = []) :
    ∃ c, d.smooth = ofCircuit c d.root ∧ d.circuit.Refines c ∧ c.Smooth d.root := by
  have even := wellFormed.inStep.even
  have within := wellFormed.inside inside
  have reached : ∀ {gate}, gate ∈ d.order ↔ d.circuit.Reaches d.root gate := mem_postOrder even within
  have progress := Smoothing.progress_foldl wellFormed (childrenFirst_postOrder even within wellFormed.acyclic)
    (nodup_postOrder even within) (fun gate listed => within gate (reached.1 listed))
    fun gate listed i reads => childless i ⟨(reached.1 listed).trans reads.1, reads.2⟩
  exact ⟨_, rfl, progress.refines, progress.smooth d.root (reached.2 (.refl d.root))⟩

end DDnnf

end Provenance
