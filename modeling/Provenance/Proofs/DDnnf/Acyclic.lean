import Provenance.Proofs.Circuit.Descent
import Provenance.Proofs.DDnnf.Binary
import Provenance.Proofs.DDnnf.Extract
import Provenance.Proofs.DDnnf.Smooth
import Provenance.Proofs.Outcome

/-!
# No transformation makes a cycle

Whatever the gates of a d-DNNF without cycles are, and whatever stands below its inputs, it has no cycles
after a transformation (`wellFormed_smooth`, `wellFormed_binary`, `wellFormed_simplify`,
`wellFormed_condition`).  New wires keep to ranks made from the scopes of the old gates: smoothing puts new
gates between the scope of an input and those of the disjunctions above it, and simplification lets no gate
stand for one of smaller scope.
-/

namespace Provenance.DDnnf

open Provenance.Circuit Provenance.Network Provenance.Order

variable {α : Type} [Scalar α] {c : Circuit α}

/-! ## Smoothing -/

namespace Smoothing

variable {s s' s'' : Smoothing α} {rank rank' rank'' : Nat → Nat} {gate input child : Nat}

/-- What holds while a circuit is made smooth.  The scope of an old gate counts four times, which leaves
room above an input for the two gates of its tautology, and for a conjunction below a disjunction. -/
structure Ranked (c : Circuit α) (s : Smoothing α) (rank : Nat → Nat) : Prop where
  descending : s.circuit.Descending rank
  size_le : c.size ≤ s.circuit.size
  old : ∀ gate < c.size, rank gate = 4 * c.scope gate + 3
  listed : ∀ input gate, s.tautologies[input]? = some gate →
    gate < s.circuit.size ∧ rank gate ≤ 4 * c.scope input + 5

/-- The gates from before are still there and have the ranks that they had, and the gates of `c` have the
kinds and the children that they had. -/
structure Follows (c : Circuit α) (s : Smoothing α) (rank : Nat → Nat) (s' : Smoothing α)
    (rank' : Nat → Nat) : Prop where
  size_le : s.circuit.size ≤ s'.circuit.size
  rank_eq : ∀ gate < s.circuit.size, rank' gate = rank gate
  kind : ∀ gate < c.size, s'.circuit.kind gate = s.circuit.kind gate
  children : ∀ gate < c.size, s'.circuit.children gate = s.circuit.children gate

omit [Scalar α] in
theorem Follows.refl (s : Smoothing α) (rank : Nat → Nat) : Follows c s rank s rank :=
  ⟨Nat.le_refl _, fun _ _ => rfl, fun _ _ => rfl, fun _ _ => rfl⟩

omit [Scalar α] in
theorem Follows.trans (first : Follows c s rank s' rank') (second : Follows c s' rank' s'' rank'') :
    Follows c s rank s'' rank'' where
  size_le := first.size_le.trans second.size_le
  rank_eq gate inside :=
    (second.rank_eq gate (inside.trans_le first.size_le)).trans (first.rank_eq gate inside)
  kind gate inside := (second.kind gate inside).trans (first.kind gate inside)
  children gate inside := (second.children gate inside).trans (first.children gate inside)

/-- A new gate above its children. -/
theorem Ranked.addNode (ranked : Ranked c s rank) (connective : Kind) (children : List Nat) (level : Nat)
    (within : ∀ child ∈ children, child < s.circuit.size) (lower : ∀ child ∈ children, rank child < level) :
    ∃ rank', Ranked c { s with circuit := (s.circuit.addNode connective children).2 } rank' ∧
      Follows c s rank { s with circuit := (s.circuit.addNode connective children).2 } rank' ∧
      rank' s.circuit.size = level := by
  have same : ∀ gate < s.circuit.size, Function.update rank s.circuit.size level gate = rank gate :=
    fun gate inside => Function.update_of_ne (Nat.ne_of_lt inside) ..
  have apart : ∀ gate < c.size, gate ≠ s.circuit.size := fun gate inside =>
    Nat.ne_of_lt (inside.trans_le ranked.size_le)
  refine ⟨Function.update rank s.circuit.size level, ?ranked, ?follows, Function.update_self ..⟩
  case ranked =>
    refine
      { descending := ranked.descending.addNode connective within lower
        size_le := ?larger
        old := fun gate inside => ?old
        listed := fun input gate found => ?listed }
    case larger =>
      rw [size_addNode]
      exact ranked.size_le.trans (Nat.le_succ _)
    case old =>
      rw [same gate (inside.trans_le ranked.size_le)]
      exact ranked.old gate inside
    case listed =>
      obtain ⟨inside, low⟩ := ranked.listed input gate found
      rw [size_addNode, same gate inside]
      exact ⟨inside.trans (Nat.lt_succ_self _), low⟩
  case follows =>
    refine ⟨?_, same, fun gate inside => ?_, fun gate inside => ?_⟩
    · rw [size_addNode]
      exact Nat.le_succ _
    · rw [kind_addNode, if_neg (apart gate inside)]
    · rw [children_addNode _ _ _ ranked.descending.inStep, if_neg (apart gate inside)]

/-- A tautology is found, or made above its input. -/
theorem Ranked.tautology (ranked : Ranked c s rank) (inside : input < c.size) :
    ∃ rank', Ranked c (s.tautology input).2 rank' ∧ Follows c s rank (s.tautology input).2 rank' ∧
      (s.tautology input).1 < (s.tautology input).2.circuit.size ∧
      rank' (s.tautology input).1 ≤ 4 * c.scope input + 5 := by
  cases found : s.tautologies[input]? with
  | some gate =>
    have same : s.tautology input = (gate, s) := by simp only [Smoothing.tautology, found]
    rw [same]
    exact ⟨rank, ranked, .refl s rank, ranked.listed input gate found⟩
  | none =>
    have inside' : input < s.circuit.size := inside.trans_le ranked.size_le
    obtain ⟨rank', ranked', follows, level⟩ := ranked.addNode .not [input]
      (4 * c.scope input + 4) (List.forall_mem_singleton.2 inside')
      (List.forall_mem_singleton.2 (by rw [ranked.old input inside]; omega))
    generalize negated_eq : (s.circuit.addNode .not [input]).2 = negated at ranked' follows
    have size : negated.size = s.circuit.size + 1 := by rw [← negated_eq, size_addNode]
    obtain ⟨rank'', ranked'', follows', level'⟩ := ranked'.addNode .or [input, s.circuit.size]
      (4 * c.scope input + 5)
      (by
        show ∀ child ∈ [input, s.circuit.size], child < negated.size
        simp only [List.forall_mem_cons, size]
        exact ⟨inside'.trans (Nat.lt_succ_self _), Nat.lt_succ_self _, by simp⟩)
      (by
        simp only [List.forall_mem_cons, level, ranked'.old input inside]
        exact ⟨by omega, by omega, by simp⟩)
    generalize both_eq : (negated.addNode .or [input, s.circuit.size]).2 = both at ranked'' follows'
    have made : s.tautology input = (negated.size, ⟨both, s.tautologies.insert input negated.size⟩) := by
      simp only [Smoothing.tautology, found, ← both_eq, ← negated_eq]
      rfl
    have larger : negated.size < both.size := by
      rw [← both_eq, size_addNode]
      exact Nat.lt_succ_self _
    obtain ⟨size_le, rank_eq, kind, children⟩ := follows.trans follows'
    rw [made]
    refine ⟨rank'', { ranked'' with listed := fun other gate listed => ?_ },
      ⟨size_le, rank_eq, kind, children⟩, larger, level'.le⟩
    rw [Std.TreeMap.getElem?_insert] at listed
    split at listed
    · rename_i same
      obtain rfl := Nat.compare_eq_eq.1 same
      obtain rfl := Option.some.inj listed
      exact ⟨larger, level'.le⟩
    · exact ranked''.listed other gate listed

/-- A new gate may get tautologies of inputs that are low enough. -/
theorem Ranked.addTautologies (missing : List Nat) (ranked : Ranked c s rank) (new : c.size ≤ gate)
    (inside : gate < s.circuit.size)
    (low : ∀ input ∈ missing, input < c.size ∧ 4 * c.scope input + 5 < rank gate) :
    ∃ rank', Ranked c (s.addTautologies gate missing) rank' ∧
      Follows c s rank (s.addTautologies gate missing) rank' := by
  induction missing generalizing s rank with
  | nil => exact ⟨rank, ranked, .refl s rank⟩
  | cons input missing ih =>
    obtain ⟨⟨small, below⟩, others⟩ := List.forall_mem_cons.1 low
    obtain ⟨rank', ranked', follows, there, level⟩ := ranked.tautology small
    rw [Smoothing.addTautologies]
    generalize s.tautology input = made at ranked' follows there level
    obtain ⟨child, s'⟩ := made
    have same := follows.rank_eq gate inside
    have inside' : gate < s'.circuit.size := inside.trans_le follows.size_le
    have wired : Ranked c { s' with circuit := s'.circuit.addWire gate child } rank' :=
      { descending := ranked'.descending.addWire inside' there (by rw [same]; exact level.trans_lt below)
        size_le := ranked'.size_le
        old := ranked'.old
        listed := ranked'.listed }
    have wires : Follows c s' rank' { s' with circuit := s'.circuit.addWire gate child } rank' :=
      ⟨Nat.le_refl _, fun _ _ => rfl, fun _ _ => rfl, fun other small => by
        rw [Circuit.children_addWire _ _ _ _ (ranked'.descending.inStep.wires ▸ inside'),
          if_neg (Nat.ne_of_lt (small.trans_le new))]⟩
    obtain ⟨rank'', ranked'', follows'⟩ := ih wired inside' (by rwa [same])
    exact ⟨rank'', ranked'', (follows.trans wires).trans follows'⟩

/-- A child is padded below a level when it and what it lacks are low enough. -/
theorem Ranked.pad (top : Nat) (missing : List Nat) (ranked : Ranked c s rank)
    (inside : child < s.circuit.size) (lower : rank child < 4 * top + 2)
    (low : ∀ input ∈ missing, input < c.size ∧ c.scope input < top) :
    ∃ rank', Ranked c (s.pad child missing).2 rank' ∧ Follows c s rank (s.pad child missing).2 rank' ∧
      (s.pad child missing).1 < (s.pad child missing).2.circuit.size ∧
      rank' (s.pad child missing).1 < 4 * top + 3 := by
  by_cases nothing : missing = []
  · have same : s.pad child missing = (child, s) := by simp [Smoothing.pad, nothing]
    rw [same]
    exact ⟨rank, ranked, .refl s rank, inside, lower.trans (Nat.lt_succ_self _)⟩
  · have made : s.pad child missing = (s.circuit.size,
        { s with circuit := (s.circuit.addNode .and [child]).2 }.addTautologies s.circuit.size missing) := by
      simp [Smoothing.pad, nothing]
    obtain ⟨rank', ranked', follows, level⟩ := ranked.addNode .and [child] (4 * top + 2)
      (List.forall_mem_singleton.2 inside) (List.forall_mem_singleton.2 lower)
    have new : s.circuit.size < (s.circuit.addNode .and [child]).2.size := by
      rw [size_addNode]
      exact Nat.lt_succ_self _
    obtain ⟨rank'', ranked'', follows'⟩ := ranked'.addTautologies missing ranked.size_le new
      fun input listed => by
        obtain ⟨small, below⟩ := low input listed
        rw [level]
        omega
    rw [made]
    refine ⟨rank'', ranked'', follows.trans follows', new.trans_le follows'.size_le, ?_⟩
    rw [follows'.rank_eq _ new, level]
    exact Nat.lt_succ_self _

/-- All children are padded below a level. -/
theorem Ranked.padAll (reads : Std.TreeMap Nat GateSet) (all : GateSet) (top : Nat) (children : List Nat)
    (ranked : Ranked c s rank) (old : ∀ child ∈ children, child < c.size ∧ c.scope child < top)
    (low : ∀ child ∈ children, ∀ input ∈ all.diff (reads.getD child ∅),
      input < c.size ∧ c.scope input < top) :
    ∃ rank', Ranked c (s.padAll reads all children).2 rank' ∧
      Follows c s rank (s.padAll reads all children).2 rank' ∧
      ∀ padded ∈ (s.padAll reads all children).1,
        padded < (s.padAll reads all children).2.circuit.size ∧ rank' padded < 4 * top + 3 := by
  induction children generalizing s rank with
  | nil => exact ⟨rank, ranked, .refl s rank, fun _ none => absurd none List.not_mem_nil⟩
  | cons child children ih =>
    obtain ⟨⟨small, below⟩, olds⟩ := List.forall_mem_cons.1 old
    obtain ⟨lacks, lows⟩ := List.forall_mem_cons.1 low
    obtain ⟨rank', ranked', follows, there, level⟩ := ranked.pad top
      (all.diff (reads.getD child ∅)).toList (small.trans_le ranked.size_le)
      (by rw [ranked.old child small]; omega) fun input listed =>
        lacks input (GateSet.mem_def.2 listed)
    rw [Smoothing.padAll]
    generalize s.pad child (all.diff (reads.getD child ∅)).toList = made at ranked' follows there level
    obtain ⟨padded, s'⟩ := made
    obtain ⟨rank'', ranked'', follows', others⟩ := ih ranked' olds lows
    refine ⟨rank'', ranked'', follows.trans follows', List.forall_mem_cons.2 ⟨⟨?_, ?_⟩, others⟩⟩
    · exact there.trans_le follows'.size_le
    · rwa [follows'.rank_eq padded there]

/-- A gate is made smooth, and the other gates of `c` keep their kinds and their children. -/
theorem Ranked.smoothGate {reads : Std.TreeMap Nat GateSet} (wellFormed : c.WellFormed)
    (ranked : Ranked c s rank) (inside : gate < c.size) (kind : s.circuit.kind gate = c.kind gate)
    (children : s.circuit.children gate = c.children gate)
    (listed : ∀ input, input ∈ reads.getD gate ∅ ↔ c.Reads gate input) :
    ∃ rank', Ranked c (s.smoothGate reads gate) rank' ∧ ∀ other < c.size,
      (s.smoothGate reads gate).circuit.kind other = s.circuit.kind other ∧
      (other ≠ gate → (s.smoothGate reads gate).circuit.children other = s.circuit.children other) := by
  rw [Smoothing.smoothGate]
  split
  · rename_i or
    have even := wellFormed.inStep.even
    obtain ⟨rank', ranked', follows, padded⟩ := ranked.padAll reads (reads.getD gate ∅)
      (c.scope gate) (s.circuit.children gate)
      (fun child wire => by
        rw [children] at wire
        exact ⟨wellFormed.within gate child wire, wellFormed.acyclic.scope_lt even wire⟩)
      fun child _ input lacked => by
        obtain ⟨path, input_kind⟩ := (listed input).1 (GateSet.mem_diff.1 lacked).1
        refine ⟨lt_of_input input_kind, wellFormed.acyclic.scope_lt_of_reaches even path ?_⟩
        rintro rfl
        rw [← kind, or] at input_kind
        exact absurd input_kind (by decide)
    generalize s.padAll reads (reads.getD gate ∅) (s.circuit.children gate) = made at ranked' follows padded
    obtain ⟨children', s'⟩ := made
    have inside' : gate < s'.circuit.size := inside.trans_le ranked'.size_le
    refine ⟨rank', ?_, fun other small => ⟨follows.kind other small, fun different => ?_⟩⟩
    · refine { ranked' with descending := ranked'.descending.setChildren inside' ?_ ?_ }
      · exact fun child wire => (padded child wire).1
      · intro child wire
        rw [ranked'.old gate inside]
        exact (padded child wire).2
    · rw [Circuit.children_setChildren _ _ _ _ (ranked'.descending.inStep.wires ▸ inside'), if_neg different]
      exact follows.children other small
  · exact ⟨rank, ranked, fun _ _ => ⟨rfl, fun _ => rfl⟩⟩

/-- Gates are made smooth one after the other. -/
theorem Ranked.foldl_smoothGate (reads : Std.TreeMap Nat GateSet) (wellFormed : c.WellFormed)
    (order : List Nat) (ranked : Ranked c s rank) (once : order.Nodup)
    (same : ∀ gate ∈ order, gate < c.size ∧ s.circuit.kind gate = c.kind gate ∧
      s.circuit.children gate = c.children gate)
    (listed : ∀ gate ∈ order, ∀ input, input ∈ reads.getD gate ∅ ↔ c.Reads gate input) :
    ∃ rank', Ranked c (order.foldl (Smoothing.smoothGate reads) s) rank' := by
  induction order generalizing s rank with
  | nil => exact ⟨rank, ranked⟩
  | cons gate order ih =>
    obtain ⟨new, once⟩ := List.nodup_cons.1 once
    obtain ⟨⟨inside, kind, children⟩, others⟩ := List.forall_mem_cons.1 same
    obtain ⟨rank', ranked', kept⟩ := ranked.smoothGate wellFormed inside kind children
      (listed gate List.mem_cons_self)
    refine ih ranked' once (fun other member => ?_) fun other member =>
      listed other (List.mem_cons_of_mem _ member)
    obtain ⟨small, kind, children⟩ := others other member
    obtain ⟨kind', children'⟩ := kept other small
    exact ⟨small, kind'.trans kind, (children' (ne_of_mem_of_not_mem member new)).trans children⟩

end Smoothing

/-- A d-DNNF without cycles has none when it is made smooth. -/
theorem wellFormed_smooth {d : DDnnf α} (wellFormed : d.circuit.WellFormed)
    (inside : d.root < d.circuit.size) :
    d.smooth.circuit.WellFormed ∧ d.root < d.smooth.circuit.size := by
  have even := wellFormed.inStep.even
  have below := wellFormed.inside inside
  have start : Smoothing.Ranked d.circuit ⟨d.circuit, ∅⟩ fun gate => 4 * d.circuit.scope gate + 3 :=
    { descending :=
        { inStep := wellFormed.inStep
          within := wellFormed.within
          descends := fun gate child wire => by
            have := wellFormed.acyclic.scope_lt even wire
            show 4 * d.circuit.scope child + 3 < 4 * d.circuit.scope gate + 3
            omega }
      size_le := Nat.le_refl _
      old := fun _ _ => rfl
      listed := fun input gate found => by simp at found }
  obtain ⟨rank, ranked⟩ := start.foldl_smoothGate (readsInOrder d.circuit d.order) wellFormed d.order
    (nodup_postOrder even below)
    (fun gate member => ⟨below gate ((mem_postOrder even below).1 member), rfl, rfl⟩)
    (mem_readsInOrder wellFormed.inStep (childrenFirst_postOrder even below wellFormed.acyclic))
  exact ⟨ranked.descending.wellFormed, inside.trans_le ranked.size_le⟩

/-! ## Simplification -/

namespace Folding

variable {f : Folding α} {gate : Nat} {children : List Nat}

/-- What holds while a circuit is simplified: its wires lead to smaller scopes, those of before, and no gate
stands for one of smaller scope. -/
structure Ranked (c : Circuit α) (f : Folding α) : Prop where
  descending : f.circuit.Descending c.scope
  size_eq : f.circuit.size = c.size
  standIn : ∀ gate < c.size, f.standIn gate < c.size ∧ c.scope (f.standIn gate) ≤ c.scope gate

omit [Scalar α] in
/-- At first each gate stands for itself. -/
theorem standIn_start (c : Circuit α) (gate : Nat) : standIn ⟨c, (List.range c.size).toArray⟩ gate = gate := by
  by_cases small : gate < c.size <;> simp [standIn, Array.getD_eq_getD_getElem?, small]

omit [Scalar α] in
theorem ranked_start (wellFormed : c.WellFormed) : Ranked c ⟨c, (List.range c.size).toArray⟩ where
  descending := wellFormed.descending
  size_eq := rfl
  standIn gate small := by
    rw [standIn_start]
    exact ⟨small, Nat.le_refl _⟩

omit [Scalar α] in
theorem Ranked.setChildren (ranked : Ranked c f) (inside : gate < c.size)
    (lower : ∀ child ∈ children, child < c.size ∧ c.scope child < c.scope gate) :
    Ranked c { f with circuit := f.circuit.setChildren gate children } :=
  { ranked with
    descending := ranked.descending.setChildren (ranked.size_eq ▸ inside)
      (fun child listed => ranked.size_eq ▸ (lower child listed).1)
      fun child listed => (lower child listed).2 }

omit [Scalar α] in
theorem Ranked.setConstant (ranked : Ranked c f) (inside : gate < c.size) (value : Bool) :
    Ranked c (f.setConstant gate value) :=
  Ranked.setChildren (f := { f with circuit := f.circuit.setKind gate (if value then .and else .or) })
    { ranked with
      descending := ranked.descending.setKind _ (ranked.size_eq ▸ inside)
      size_eq := (Circuit.size_setKind ..).trans ranked.size_eq }
    inside fun _ none => absurd none List.not_mem_nil

omit [Scalar α] in
/-- A gate may have another one of smaller scope stand for it. -/
theorem Ranked.setStand {only : Nat} (ranked : Ranked c f)
    (lower : only < c.size ∧ c.scope only < c.scope gate) :
    Ranked c { f with stands := f.stands.setIfInBounds gate only } := by
  refine { ranked with standIn := fun other inside => ?_ }
  have old := ranked.standIn other inside
  simp only [Folding.standIn, Array.getD_eq_getD_getElem?, Array.getElem?_setIfInBounds] at old ⊢
  by_cases same : gate = other
  · subst same
    by_cases there : gate < f.stands.size
    · simpa [there] using ⟨lower.1, lower.2.le⟩
    · simpa [there] using inside
  · simpa [same] using old

omit [Scalar α] in
theorem Ranked.foldChildren (ranked : Ranked c f) (inside : gate < c.size)
    (lower : ∀ child ∈ children, child < c.size ∧ c.scope child < c.scope gate) (neutral : Bool) :
    Ranked c (f.foldChildren gate neutral children) := by
  unfold Folding.foldChildren
  split
  · exact ranked.setConstant inside _
  · have kept : ∀ child ∈ children.filter (f.circuit.constant? · != some neutral),
        child < c.size ∧ c.scope child < c.scope gate :=
      fun child listed => lower child (List.mem_filter.1 listed).1
    generalize children.filter (f.circuit.constant? · != some neutral) = rest at kept
    have shorter := ranked.setChildren inside kept
    match rest with
    | [] | _ :: _ :: _ => exact shorter
    | [only] => exact shorter.setStand (kept only List.mem_cons_self)

omit [Scalar α] in
theorem Ranked.foldGate (ranked : Ranked c f) (gate : Nat) : Ranked c (f.foldGate gate) := by
  have lower : ∀ child ∈ (f.circuit.children gate).map f.standIn,
      child < c.size ∧ c.scope child < c.scope gate := by
    intro child listed
    obtain ⟨old, wire, rfl⟩ := List.mem_map.1 listed
    obtain ⟨inside, le⟩ := ranked.standIn old (ranked.size_eq ▸ ranked.descending.within gate old wire)
    exact ⟨inside, le.trans_lt (ranked.descending.descends gate old wire)⟩
  have inside : f.circuit.kind gate ≠ .undetermined → gate < c.size := fun defined =>
    ranked.size_eq ▸ lt_of_kind defined
  unfold Folding.foldGate
  cases kind : f.circuit.kind gate with
  | and => exact ranked.foldChildren (inside (by rw [kind]; decide)) lower true
  | or => exact ranked.foldChildren (inside (by rw [kind]; decide)) lower false
  | not =>
    dsimp only
    split
    · exact ranked.setConstant (inside (by rw [kind]; decide)) _
    · exact ranked.setChildren (inside (by rw [kind]; decide)) lower
  | input | alternative | undetermined => exact ranked

omit [Scalar α] in
theorem Ranked.foldl_foldGate (ranked : Ranked c f) (order : List Nat) :
    Ranked c (order.foldl Folding.foldGate f) := by
  induction order generalizing f with
  | nil => exact ranked
  | cons gate order ih => exact ih (ranked.foldGate gate)

end Folding

/-- A d-DNNF without cycles has none when it is simplified. -/
theorem wellFormed_simplify {d : DDnnf α} (wellFormed : d.circuit.WellFormed)
    (inside : d.root < d.circuit.size) :
    d.simplify.circuit.WellFormed ∧ d.simplify.root < d.simplify.circuit.size := by
  have ranked := (Folding.ranked_start wellFormed).foldl_foldGate d.order
  unfold simplify
  generalize d.order.foldl Folding.foldGate ⟨d.circuit, (List.range d.circuit.size).toArray⟩ = folding
    at ranked
  refine wellFormed_extract ranked.descending.wellFormed ?_
  rw [ranked.size_eq]
  exact (ranked.standIn d.root inside).1

/-! ## Binary gates and conditions -/

/-- A d-DNNF without cycles has none when its conjunctions or disjunctions are made binary. -/
theorem wellFormed_binary {d d' : DDnnf α} {kind : Kind} (wellFormed : d.circuit.WellFormed)
    (inside : d.root < d.circuit.size) (made : d.binary kind = .ok d') :
    d'.circuit.WellFormed ∧ d'.root < d'.circuit.size := by
  have connective : kind = .and ∨ kind = .or := by
    by_contra neither
    rw [binary, if_neg neither] at made
    exact Outcome.fail_eq_ok.1 made
  obtain ⟨c', binary, refines⟩ := refines_binary connective wellFormed
  obtain rfl := Except.ok.inj (binary.symm.trans made)
  exact ⟨refines.wellFormed, inside.trans_le refines.size_le⟩

/-- A d-DNNF without cycles has none when a gate is made constant. -/
theorem wellFormed_condition {d : DDnnf α} {gate : Nat} (wellFormed : d.circuit.WellFormed)
    (inside : gate < d.circuit.size) (value : Bool) : (d.condition gate value).circuit.WellFormed := by
  have fixed := wellFormed.descending.setKind (if value then .and else .or) inside
  have cut : ((d.circuit.setKind gate (if value then .and else .or)).setChildren gate []).Descending _ :=
    fixed.setChildren (by rwa [Circuit.size_setKind])
    (fun _ none => absurd none List.not_mem_nil) fun _ none => absurd none List.not_mem_nil
  exact (Descending.mk cut.inStep.dropName cut.within cut.descends).wellFormed

end Provenance.DDnnf
