import Provenance.Proofs.DDnnf.InPlace
import Provenance.Proofs.DDnnf.Score

/-!
# The tables of a circuit, filled in place

The tables of all gates lie in an array with a place for each gate of the circuit, and a gate reads those of
its children there.  As in the tables themselves every access is checked, so that a computation has an outcome
or leaves a table and has none (`Checked`).  Gates that reach no gate outside the circuit have their tables
computed inside these bounds, with the outcome that the definitions give (`sizeDistributionInto_eq`,
`coalitionsInto_eq`): the step of a gate agrees with its definition as long as tables are not empty and
triangles are full (`agrees_deltaInto`, `agrees_alphaInto`), and so does the whole computation
(`Agrees.tabulate`).

On a smooth deterministic decomposable circuit the entries are chances and expected numbers of coalitions
(`tables_spec`).
-/

namespace Provenance.DDnnf

open Provenance.Network

/-! ## Checked computations -/

/-- A computation that may fail, and that has no outcome when it leaves a table. -/
abbrev Checked (β : Type) := ExceptT Failure Option β

/-- A computation without tables. -/
def Checked.of {β : Type} (outcome : Outcome β) : Checked β := ExceptT.mk (some outcome)

/-- An access to a table. -/
def Checked.access {β : Type} (entry : Option β) : Checked β := ExceptT.lift entry

/-- The computation stays inside the tables, and it fails as the outcome does or has a result that is related
to it. -/
inductive Agrees {β γ : Type} (R : β → γ → Prop) : Checked β → Outcome γ → Prop
  | ok {s : β} {t : γ} (related : R s t) : Agrees R (.of (.ok s)) (.ok t)
  | error (failure : Failure) : Agrees R (.of (.error failure)) (.error failure)

namespace Agrees

variable {β γ β' γ' : Type} {R : β → γ → Prop} {R' : β' → γ' → Prop}

theorem bind {x : Checked β} {y : Outcome γ} {f : β → Checked β'} {g : γ → Outcome γ'}
    (first : Agrees R x y) (next : ∀ s t, R s t → Agrees R' (f s) (g t)) :
    Agrees R' (x >>= f) (y >>= g) := by
  cases first with
  | ok related => exact next _ _ related
  | error failure => exact .error failure

/-- A computation followed by one that always has a result. -/
theorem followed {R' : β' → γ → Prop} {x : Checked β} {y : Outcome γ} {f : β → Checked β'}
    (first : Agrees R x y) (next : ∀ s t, R s t → ∃ s', f s = .of (.ok s') ∧ R' s' t) :
    Agrees R' (x >>= f) y := by
  cases first with
  | @ok s t related =>
    obtain ⟨s', computed, related⟩ := next s t related
    show Agrees R' (f s) (.ok t)
    exact computed ▸ .ok related
  | error failure => exact .error failure

/-- An access that stays inside its table. -/
theorem access {x : Option β} {s : β} {f : β → Checked β'} {y : Outcome γ'} (found : x = some s)
    (next : Agrees R' (f s) y) : Agrees R' (Checked.access x >>= f) y := by
  subst found
  exact next

theorem foldlM {ι : Type} {f : β → ι → Checked β} {g : γ → ι → Outcome γ} {all : List ι}
    (each : ∀ x ∈ all, ∀ s t, R s t → Agrees R (f s x) (g t x)) {s : β} {t : γ} (start : R s t) :
    Agrees R (all.foldlM f s) (all.foldlM g t) := by
  induction all generalizing s t with
  | nil => exact .ok start
  | cons x all ih =>
    rw [List.foldlM_cons, List.foldlM_cons]
    exact (each x List.mem_cons_self s t start).bind fun s t related =>
      ih (fun y member => each y (List.mem_cons_of_mem x member)) related

/-- A computation of tables agrees when the step of each gate does. -/
theorem tabulate {σ : Type} {S : σ → Std.TreeMap Nat γ → Prop} {step : σ → Nat → Checked σ}
    {value : Std.TreeMap Nat γ → Nat → Outcome γ} {order : List Nat}
    (each : ∀ gate ∈ order, ∀ s table, S s table →
      Agrees (fun s entry => S s (table.insert gate entry)) (step s gate) (value table gate))
    {s : σ} {table : Std.TreeMap Nat γ} (start : S s table) :
    Agrees S (order.foldlM step s) (DDnnf.tabulate value order table) := by
  induction order generalizing s table with
  | nil => exact .ok start
  | cons gate order ih =>
    rw [List.foldlM_cons]
    exact (each gate List.mem_cons_self s table start).bind fun s entry related =>
      ih (fun other member => each other (List.mem_cons_of_mem gate member)) related

/-- A computation that agrees with an outcome has it. -/
theorem run_eq {x : Checked β} {y : Outcome β} {S : β → β → Prop} (agrees : Agrees S x y)
    (same : ∀ s t, S s t → s = t) : x.run = some y := by
  cases agrees with
  | ok related => rw [same _ _ related]; rfl
  | error failure => rfl

theorem of_ok {x : Checked β} {t : γ} (agrees : Agrees R x (.ok t)) : ∃ s, R s t := by
  cases agrees with
  | ok related => exact ⟨_, related⟩

end Agrees

/-! ## The tables of all gates -/

/-- A table for each gate of a circuit, once it was computed. -/
abbrev Tables (β : Type) := Array (Option β)

section Tables

variable {β : Type} {good : β → Prop} {size : Nat} {tables : Tables β} {table : Std.TreeMap Nat β}

/-- The table of a child. -/
def Tables.lookup (tables : Tables β) (gate : Nat) : (child : Option Nat) → Checked β
  | none => .of (Outcome.fail (.unsupported gate .childOutOfOrder))
  | some child => do
    let entry ← Checked.access tables[child]?
    .of (Outcome.ofOption (.unsupported gate .childOutOfOrder) entry)

/-- Sets the table of a gate. -/
def Tables.store (tables : Tables β) (gate : Nat) (entry : β) : Checked (Tables β) :=
  Checked.access (change tables gate fun _ => some (some entry))

/-- There is a place for each gate, and it holds the table of the gate, which is a good one. -/
structure Tables.Hold (good : β → Prop) (size : Nat) (tables : Tables β) (table : Std.TreeMap Nat β) :
    Prop where
  entries : tables = filled size (table[·]?)
  fine : ∀ (gate : Nat) (entry : β), table[gate]? = some entry → good entry

theorem Tables.hold_empty (good : β → Prop) (size : Nat) :
    Tables.Hold good size (Array.replicate size none) ∅ where
  entries := Array.ext (by simp) fun gate _ _ => by simp
  fine gate entry found := by simp at found

theorem Tables.Hold.lookup (hold : Tables.Hold good size tables table) (gate : Nat) {child : Option Nat}
    (inside : ∀ other ∈ child, other < size) :
    Agrees (fun s t => s = t ∧ good t) (tables.lookup gate child) (childValue table gate child) := by
  cases child with
  | none => exact .error _
  | some child =>
    refine .access (by rw [hold.entries, getElem?_filled _ (inside child rfl)]) ?_
    rw [childValue, Option.bind_some]
    cases found : table[child]? with
    | none => exact .error _
    | some entry => exact .ok ⟨rfl, hold.fine child entry found⟩

theorem Tables.Hold.lookup_some (hold : Tables.Hold good size tables table) (gate : Nat) {child : Nat}
    (inside : child < size) :
    Agrees (fun s t => s = t ∧ good t) (tables.lookup gate (some child))
      (childValue table gate (some child)) :=
  hold.lookup gate fun _ same => Option.some_inj.1 same ▸ inside

theorem Tables.Hold.store (hold : Tables.Hold good size tables table) {gate : Nat} (inside : gate < size)
    {entry : β} (fine : good entry) : ∃ tables', tables.store gate entry = .of (.ok tables') ∧
      Tables.Hold good size tables' (table.insert gate entry) := by
  refine ⟨_, by rw [Tables.store, hold.entries, change_filled _ _ inside]; rfl, ?_, ?_⟩
  · refine filled_congr fun other _ => ?_
    rw [Function.update_apply, Std.TreeMap.getElem?_insert]
    exact if_congr (eq_comm.trans Nat.compare_eq_eq.symm) rfl rfl
  · intro other found here
    rw [Std.TreeMap.getElem?_insert] at here
    split at here
    · exact Option.some_inj.1 here ▸ fine
    · exact hold.fine other found here

/-- The table of a gate in the end. -/
theorem Tables.Hold.read (hold : Tables.Hold good size tables table) {gate : Nat} (inside : gate < size)
    (default : β) :
    Agrees (fun s t => s = t ∧ (t = default ∨ good t)) (do
      let entry ← Checked.access tables[gate]?
      .of (.ok (entry.getD default))) (.ok (table.getD gate default)) := by
  refine .access (by rw [hold.entries, getElem?_filled _ inside]) (.ok ?_)
  rw [Std.TreeMap.getD_eq_getD_getElem?]
  cases found : table[gate]? with
  | none => exact ⟨rfl, .inl rfl⟩
  | some entry => exact ⟨rfl, .inr (hold.fine gate entry found)⟩

/-- Tables of children are combined one after the other. -/
theorem Tables.Hold.combine (hold : Tables.Hold good size tables table) {gate : Nat} {children : List Nat}
    (inside : ∀ child ∈ children, child < size) {into : β → β → Option β} {combined : β → β → β}
    (step : ∀ a b, good a → good b → into a b = some (combined a b) ∧ good (combined a b)) {start : β}
    (fine : good start) :
    Agrees (fun s t => s = t ∧ good t)
      (children.foldlM
        (fun result child => do
          let other ← tables.lookup gate (some child)
          .access (into result other))
        start)
      (children.foldlM
        (fun result child => do
          let other ← childValue table gate (some child)
          .ok (combined result other))
        start) := by
  refine .foldlM (fun child wire result _ same => ?_) ⟨rfl, fine⟩
  obtain ⟨rfl, fine⟩ := same
  refine (hold.lookup_some gate (inside child wire)).bind fun entry _ same => ?_
  obtain ⟨rfl, fine'⟩ := same
  obtain ⟨computed, good⟩ := step result entry fine fine'
  rw [computed]
  exact .ok ⟨rfl, good⟩

end Tables

/-! ## Numbers of true inputs -/

section

variable {α : Type} [Scalar α] {c : Circuit α} {gate : Nat}

/-- How likely each number of true inputs below a gate is, from the tables of its children. -/
def deltaInto (c : Circuit α) (tables : Tables (Distribution α)) (gate : Nat) :
    Checked (Distribution α) :=
  let children := c.children gate
  match c.kind gate with
  | .input => .of (.ok #[Scalar.complement (c.prob gate), c.prob gate])
  | .not => tables.lookup gate children.head?
  | .or => if children.isEmpty then .of (.ok #[Scalar.one]) else tables.lookup gate children.head?
  | .and =>
    children.foldlM
      (fun result child => do
        let other ← tables.lookup gate (some child)
        .access (result.convolveInto other))
      #[Scalar.one]
  | .alternative => .of (Outcome.fail (.multivalued gate))
  | .undetermined => .of (Outcome.fail (.undetermined gate))

/-- The distributions of all gates below a gate. -/
def deltasInto (c : Circuit α) (gate : Nat) : Checked (Tables (Distribution α)) :=
  (c.postOrder gate).foldlM
    (fun tables gate => do
      let entry ← deltaInto c tables gate
      tables.store gate entry)
    (Array.replicate c.size none)

/-- How likely it is that exactly `k` inputs below a gate are true. -/
def sizeDistributionInto (d : DDnnf α) (gate : Nat) : Checked (Distribution α) := do
  let tables ← deltasInto d.circuit gate
  let entry ← Checked.access tables[gate]?
  .of (.ok (entry.getD #[]))

/-- Distributions that are not empty. -/
abbrev HoldSizes (c : Circuit α) (tables : Tables (Distribution α))
    (table : Std.TreeMap Nat (Distribution α)) : Prop :=
  tables.Hold (fun entry => 0 < entry.size) c.size table

theorem agrees_deltaInto {tables : Tables (Distribution α)} {table : Std.TreeMap Nat (Distribution α)}
    (hold : HoldSizes c tables table) (inside : ∀ child ∈ c.children gate, child < c.size) :
    Agrees (fun s t => s = t ∧ 0 < t.size) (deltaInto c tables gate) (delta c table gate) := by
  have first : ∀ child ∈ (c.children gate).head?, child < c.size :=
    fun child found => inside child (List.mem_of_head? found)
  simp only [deltaInto, delta]
  cases c.kind gate with
  | input => exact .ok ⟨rfl, by simp⟩
  | not => exact hold.lookup gate first
  | or =>
    dsimp only
    split
    · exact .ok ⟨rfl, by simp⟩
    · exact hold.lookup gate first
  | and =>
    refine hold.combine inside (fun a b left right => ?_) (by simp)
    refine ⟨Distribution.convolveInto_eq left b, ?_⟩
    simp only [Distribution.convolve, Array.size_map, Array.size_range]
    omega
  | alternative => exact .error _
  | undetermined => exact .error _

section Root

variable (even : c.Even) (inside : c.Inside gate)

include even inside

omit [Scalar α] in
/-- The gates of the post-order and their children are gates of the circuit. -/
theorem lt_of_mem_postOrder {other : Nat} (listed : other ∈ c.postOrder gate) :
    other < c.size ∧ ∀ child ∈ c.children other, child < c.size := by
  have path := (mem_postOrder even inside).1 listed
  exact ⟨inside other path, fun child wire => inside child (path.child wire)⟩

theorem agrees_deltasInto : Agrees (HoldSizes c) (deltasInto c gate) (deltas c gate) := by
  refine .tabulate (fun other listed tables table hold => ?_) (Tables.hold_empty _ _)
  obtain ⟨here, below⟩ := lt_of_mem_postOrder even inside listed
  refine (agrees_deltaInto hold below).followed fun entry _ same => ?_
  obtain ⟨rfl, nonempty⟩ := same
  exact hold.store here nonempty

end Root

theorem sizeDistributionInto_eq {d : DDnnf α} (even : d.circuit.Even) (inside : d.circuit.Inside gate) :
    (sizeDistributionInto d gate).run = some (d.sizeDistribution gate) := by
  have outcome : d.sizeDistribution gate =
      deltas d.circuit gate >>= fun table => .ok (table.getD gate #[]) := by
    rw [sizeDistribution]
    cases deltas d.circuit gate <;> rfl
  rw [outcome]
  exact ((agrees_deltasInto even inside).bind fun tables table hold =>
    hold.read (inside gate (.refl gate)) #[]).run_eq fun _ _ same => same.1

/-! ## Winning coalitions -/

/-- The expected number of winning coalitions below a gate, from the tables of its children, and the rows of
Pascal's triangle that are at hand afterwards. -/
def alphaInto (c : Circuit α) (sizes : Tables (Distribution α)) (tables : Tables (Triangle α))
    (binomial : Triangle α) (gate : Nat) : Checked (Triangle α × Triangle α) :=
  let children := c.children gate
  match c.kind gate with
  | .input => .of (.ok (#[#[Scalar.zero], #[Scalar.zero, c.prob gate]], binomial))
  | .and => do
    let entry ← children.foldlM
      (fun result child => do
        let other ← tables.lookup gate (some child)
        .access (Triangle.convolveInto result other))
      #[#[Scalar.one]]
    .of (.ok (entry, binomial))
  | .or => do
    let entry ← children.foldlM
      (fun result child => do
        let other ← tables.lookup gate (some child)
        .access (Triangle.addInto result other))
      #[#[Scalar.zero]]
    .of (.ok (entry, binomial))
  | .not => do
    let child ← Checked.of (c.onlyChild gate)
    let won ← tables.lookup gate (some child)
    let size ← sizes.lookup gate (some child)
    let binomial ← Checked.access
      (if binomial.size < won.size then Triangle.pascalInto won.size else some binomial)
    let entry ← Checked.access (Triangle.complementOf binomial won size)
    .of (.ok (entry, binomial))
  | .alternative => .of (Outcome.fail (.multivalued gate))
  | .undetermined => .of (Outcome.fail (.undetermined gate))

/-- A full triangle, and rows of Pascal's triangle beside it. -/
def WithPascal (s : Triangle α × Triangle α) (t : Triangle α) : Prop :=
  s.1 = t ∧ t.Full ∧ ∃ n, s.2 = Triangle.pascal n

/-- Gates that are no negations leave Pascal's triangle as it is. -/
theorem Agrees.withPascal {x : Checked (Triangle α)} {y : Outcome (Triangle α)}
    (agrees : Agrees (fun s t => s = t ∧ t.Full) x y) (n : Nat) :
    Agrees WithPascal (x >>= fun entry => .of (.ok (entry, Triangle.pascal n))) y :=
  agrees.followed fun _ _ same => ⟨_, rfl, same.1, same.2, n, rfl⟩

theorem agrees_alphaInto {sizes : Tables (Distribution α)} {counts : Std.TreeMap Nat (Distribution α)}
    {tables : Tables (Triangle α)} {table : Std.TreeMap Nat (Triangle α)} {n : Nat}
    (sized : HoldSizes c sizes counts) (hold : tables.Hold Triangle.Full c.size table)
    (inside : ∀ child ∈ c.children gate, child < c.size) :
    Agrees WithPascal (alphaInto c sizes tables (.pascal n) gate) (alpha c counts table gate) := by
  simp only [alphaInto, alpha]
  cases c.kind gate with
  | input => exact .ok ⟨rfl, Triangle.full_two .., n, rfl⟩
  | not =>
    have only : Agrees (fun s t => s = t ∧ s ∈ c.children gate) (.of (c.onlyChild gate))
        (c.onlyChild gate) := by
      cases found : c.onlyChild gate with
      | ok child => exact .ok ⟨rfl, by simp [Circuit.onlyChild_eq_ok.1 found]⟩
      | error failure => exact .error failure
    refine only.bind fun child _ same => ?_
    obtain ⟨rfl, wire⟩ := same
    refine (hold.lookup_some gate (inside child wire)).bind fun won _ same => ?_
    obtain ⟨rfl, full⟩ := same
    refine (sized.lookup_some gate (inside child wire)).bind fun size _ same => ?_
    obtain ⟨rfl, _⟩ := same
    obtain ⟨m, enough, found⟩ : ∃ m, won.size ≤ m + 1 ∧
        (if (Triangle.pascal n : Triangle α).size < won.size then Triangle.pascalInto won.size
          else some (.pascal n)) = some (Triangle.pascal m : Triangle α) := by
      split
      · exact ⟨won.size, Nat.le_succ _, Triangle.pascalInto_eq won.size⟩
      · rename_i enough
        exact ⟨n, by simpa using enough, rfl⟩
    refine .access found (.access (Triangle.complementOf_eq full enough size) ?_)
    exact .ok ⟨rfl, Triangle.full_build full.nonempty _, m, rfl⟩
  | or =>
    refine (hold.combine inside (fun a b left right => ?_) (Triangle.full_one _)).withPascal n
    exact ⟨Triangle.addInto_eq left right, left.add⟩
  | and =>
    refine (hold.combine inside (fun a b left right => ?_) (Triangle.full_one _)).withPascal n
    exact ⟨Triangle.convolveInto_eq left right, left.convolve right⟩
  | alternative => exact .error _
  | undetermined => exact .error _

/-- For each `k` and `l`, the sum over the worlds with `k` true inputs below a gate of their probability times
the number of coalitions of `l` of them that win the gate. -/
def coalitionsInto (d : DDnnf α) (gate : Nat) : Checked (Triangle α) := do
  let sizes ← deltasInto d.circuit gate
  let binomial ← Checked.access (Triangle.pascalInto 0)
  let (tables, _) ← (d.circuit.postOrder gate).foldlM
    (fun (tables, binomial) gate => do
      let (entry, binomial) ← alphaInto d.circuit sizes tables binomial gate
      let tables ← Tables.store tables gate entry
      .of (.ok (tables, binomial)))
    (Array.replicate d.circuit.size none, binomial)
  let entry ← Checked.access tables[gate]?
  .of (.ok (entry.getD #[]))

theorem agrees_coalitionsInto {d : DDnnf α} (even : d.circuit.Even) (inside : d.circuit.Inside gate) :
    Agrees (fun s t => s = t ∧ (t = #[] ∨ Triangle.Full t)) (coalitionsInto d gate) (d.coalitions gate) := by
  refine (agrees_deltasInto even inside).bind fun sizes counts sized => ?_
  refine .access (Triangle.pascalInto_eq 0) ?_
  refine Agrees.bind (R := fun s table => Tables.Hold Triangle.Full d.circuit.size s.1 table ∧
    ∃ n, s.2 = Triangle.pascal n) ?_ fun s table hold => hold.1.read (inside gate (.refl gate)) #[]
  refine .tabulate (fun other listed s table hold => ?_) ⟨Tables.hold_empty _ _, 0, rfl⟩
  obtain ⟨here, below⟩ := lt_of_mem_postOrder even inside listed
  obtain ⟨tables, binomial⟩ := s
  obtain ⟨hold, n, rfl⟩ := hold
  refine (agrees_alphaInto sized hold below).followed fun s _ same => ?_
  obtain ⟨entry, binomial⟩ := s
  obtain ⟨rfl, full, again⟩ := same
  obtain ⟨tables', stored, hold'⟩ := hold.store here full
  exact ⟨(tables', binomial), by simp only [stored]; rfl, hold', again⟩

theorem coalitionsInto_eq {d : DDnnf α} (even : d.circuit.Even) (inside : d.circuit.Inside gate) :
    (coalitionsInto d gate).run = some (d.coalitions gate) :=
  (agrees_coalitionsInto even inside).run_eq fun _ _ same => same.1

end

/-! ## What the tables hold -/

/-- The triangle of a gate is full when it is not empty. -/
theorem full_of_coalitions {α : Type} [Scalar α] {d : DDnnf α} {gate : Nat} (even : d.circuit.Even)
    (inside : d.circuit.Inside gate) {alpha : Triangle α} (computed : d.coalitions gate = .ok alpha)
    (nonempty : 0 < alpha.size) : alpha.Full := by
  have agrees := agrees_coalitionsInto even inside
  rw [computed] at agrees
  obtain ⟨_, _, rfl | full⟩ := agrees.of_ok
  · exact absurd nonempty (Nat.lt_irrefl 0)
  · exact full

/-- On a smooth deterministic decomposable circuit the distribution of a gate has the chances of all numbers
of true inputs, and its triangle the expected numbers of winning coalitions, both computed without leaving a
table. -/
theorem tables_spec {d : DDnnf Rat} {gate : Nat} (countable : d.circuit.IsCountable gate) :
    ∃ (f : Finset Nat → Bool) (delta : Distribution Rat) (alpha : Triangle Rat),
      (∀ S, d.circuit.evaluate gate (Circuit.among S) = .ok (f S)) ∧
      (d.sizeDistribution gate = .ok delta ∧ delta.size = (d.circuit.support [gate]).card + 1 ∧
        ∀ k, delta.entry k = ∑ N ∈ (d.circuit.support [gate]).powersetCard k,
          exactly d.circuit.prob (d.circuit.support [gate]) N) ∧
      (d.coalitions gate = .ok alpha ∧ (∀ k row, alpha[k]? = some row → row.size ≤ k + 1) ∧
        ∀ k l, alpha.entry k l = ∑ N ∈ (d.circuit.support [gate]).powersetCard k,
          exactly d.circuit.prob (d.circuit.support [gate]) N *
            ((N.powersetCard l).filter (f · = true)).card) ∧
      (sizeDistributionInto d gate).run = some (.ok delta) ∧
      (coalitionsInto d gate).run = some (.ok alpha) := by
  have even := countable.formula.even
  have inside := countable.formula.inside
  obtain ⟨table, computed, found⟩ := deltas_spec countable
  obtain ⟨delta, stored, counts⟩ := found gate (.refl gate)
  obtain ⟨alpha, computed', counts'⟩ := coalitions_spec (d := { d with root := gate }) countable
  have delta_eq : d.sizeDistribution gate = .ok delta := by
    rw [sizeDistribution, computed]
    simp [Except.map, Std.TreeMap.getD_eq_getD_getElem?, stored]
  have alpha_eq : d.coalitions gate = .ok alpha := computed'
  have full : alpha.Full :=
    full_of_coalitions even inside alpha_eq (counts'.size ▸ Nat.succ_pos _)
  refine ⟨winning d.circuit gate, delta, alpha, fun S => countable.formula.evaluate _,
    ⟨delta_eq, counts.size, counts.entry_eq_sum⟩, ⟨alpha_eq, fun k row here => ?_, fun k l => ?_⟩,
    delta_eq ▸ sizeDistributionInto_eq even inside, alpha_eq ▸ coalitionsInto_eq even inside⟩
  · obtain ⟨inside, rfl⟩ := Array.getElem?_eq_some_iff.1 here
    exact (full.size_row k inside).le
  · rw [← full.coeff_poly, counts'.poly, coeff_wins_eq_sum]

/-- A conjunction of two inputs has the chances of its numbers of true inputs, and only both win. -/
theorem tables_conjunction :
    (ofCircuit Circuit.conjunction 2).sizeDistribution 2 = .ok #[1 / 3, 1 / 2, 1 / 6] ∧
    (ofCircuit Circuit.conjunction 2).coalitions 2 = .ok #[#[0], #[0, 0], #[0, 0, 1 / 6]] ∧
    ∃ (f : Finset Nat → Bool) (delta : Distribution Rat) (alpha : Triangle Rat),
      (∀ S, Circuit.conjunction.evaluate 2 (Circuit.among S) = .ok (f S)) ∧
      ((ofCircuit Circuit.conjunction 2).sizeDistribution 2 = .ok delta ∧
        delta.size = (Circuit.conjunction.support [2]).card + 1 ∧
        ∀ k, delta.entry k = ∑ N ∈ (Circuit.conjunction.support [2]).powersetCard k,
          exactly Circuit.conjunction.prob (Circuit.conjunction.support [2]) N) ∧
      ((ofCircuit Circuit.conjunction 2).coalitions 2 = .ok alpha ∧
        (∀ k row, alpha[k]? = some row → row.size ≤ k + 1) ∧
        ∀ k l, alpha.entry k l = ∑ N ∈ (Circuit.conjunction.support [2]).powersetCard k,
          exactly Circuit.conjunction.prob (Circuit.conjunction.support [2]) N *
            ((N.powersetCard l).filter (f · = true)).card) ∧
      (sizeDistributionInto (ofCircuit Circuit.conjunction 2) 2).run = some (.ok delta) ∧
      (coalitionsInto (ofCircuit Circuit.conjunction 2) 2).run = some (.ok alpha) :=
  ⟨by decide +kernel, by decide +kernel,
    tables_spec (d := ofCircuit Circuit.conjunction 2) isCountable_conjunction⟩

end Provenance.DDnnf
