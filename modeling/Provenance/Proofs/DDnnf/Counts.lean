import Provenance.DDnnf.Score
import Provenance.Proofs.Circuit.Classes
import Provenance.Proofs.DDnnf.Coalitions

/-!
# The tables of a circuit

The inputs below a gate are its support.  In a smooth deterministic decomposable circuit the tables of a
gate count its support: children of a conjunction have disjoint supports, those of a disjunction the same
support and exclusive wins.  Tables are computed with the children first, so each finds those of its
children (`tabulate_eq_ok`), and the tables of the root come out (`IsCountable.coalitions_spec`).
-/

namespace Provenance

open Provenance.Order Provenance.Network

/-! ## Folds that do not fail -/

/-- A fold whose steps succeed from an invariant of what was folded succeeds. -/
theorem foldlM_eq_ok {β σ : Type} {step : σ → β → Outcome σ} {all : List β} {s : σ}
    (motive : List β → σ → Prop) (start : motive [] s)
    (each : ∀ before x after s, all = before ++ x :: after → motive before s →
      ∃ s', step s x = .ok s' ∧ motive (before ++ [x]) s') :
    ∃ s', all.foldlM step s = .ok s' ∧ motive all s' := by
  suffices ∀ rest before s, all = before ++ rest → motive before s →
      ∃ s', rest.foldlM step s = .ok s' ∧ motive all s' from this all [] s rfl start
  intro rest
  induction rest with
  | nil =>
    intro before s split here
    rw [List.append_nil] at split
    exact ⟨s, rfl, split ▸ here⟩
  | cons x rest ih =>
    intro before s split here
    obtain ⟨middle, stepped, there⟩ := each before x rest s split here
    rw [List.foldlM_cons, stepped]
    exact ih (before ++ [x]) middle (by rw [split, List.append_assoc]; rfl) there

namespace DDnnf

/-- Computing tables with the children first succeeds when each gate finds what its children have. -/
theorem tabulate_eq_ok {β : Type} {value : Std.TreeMap Nat β → Nat → Outcome β}
    {targets : Nat → List Nat} {order : List Nat} (spec : Nat → β → Prop)
    (first : ChildrenFirst targets order)
    (step : ∀ gate ∈ order, ∀ table : Std.TreeMap Nat β,
      (∀ child ∈ targets gate, ∃ entry, table[child]? = some entry ∧ spec child entry) →
        ∃ entry, value table gate = .ok entry ∧ spec gate entry) :
    ∃ table, tabulate value order ∅ = .ok table ∧
      ∀ gate ∈ order, ∃ entry, table[gate]? = some entry ∧ spec gate entry := by
  suffices ∀ rest before table, order = before ++ rest →
      (∀ gate ∈ before, ∃ entry, table[gate]? = some entry ∧ spec gate entry) →
        ∃ table', tabulate value rest table = .ok table' ∧
          ∀ gate ∈ order, ∃ entry, table'[gate]? = some entry ∧ spec gate entry from
    this order [] ∅ rfl fun _ member => absurd member List.not_mem_nil
  intro rest
  induction rest with
  | nil =>
    intro before table split filled
    rw [List.append_nil] at split
    exact ⟨table, rfl, split ▸ filled⟩
  | cons gate rest ih =>
    intro before table split filled
    obtain ⟨entry, computed, good⟩ := step gate (by simp [split]) table fun child wire =>
      filled child (first before gate rest split child wire)
    simp only [tabulate, computed, bind, Except.bind]
    refine ih (before ++ [gate]) _ (by rw [split, List.append_assoc]; rfl) fun other member => ?_
    rw [Std.TreeMap.getElem?_insert]
    by_cases same : gate = other
    · rw [if_pos (Nat.compare_eq_eq.2 same), ← same]
      exact ⟨entry, rfl, good⟩
    · rw [if_neg (mt Nat.compare_eq_eq.1 same)]
      refine filled other ((List.mem_append.1 member).resolve_right fun last => same ?_)
      exact (List.mem_singleton.1 last).symm

end DDnnf

namespace Circuit

variable {α : Type} {c : Circuit α} {gate : Nat}

/-! ## Supports -/

open Classical in
/-- The inputs that some of the gates read. -/
noncomputable def support (c : Circuit α) (gates : List Nat) : Finset Nat :=
  (Finset.range c.size).filter fun input => ∃ gate ∈ gates, c.Reads gate input

theorem mem_support {gates : List Nat} {input : Nat} :
    input ∈ c.support gates ↔ ∃ gate ∈ gates, c.Reads gate input := by
  classical
  rw [support, Finset.mem_filter, Finset.mem_range]
  exact and_iff_right_of_imp fun ⟨_, _, reads⟩ => lt_of_input reads.2

theorem mem_support_singleton {input : Nat} : input ∈ c.support [gate] ↔ c.Reads gate input := by
  simp [mem_support]

@[simp] theorem support_nil : c.support [] = ∅ := by
  ext input
  simp [mem_support]

theorem support_append (left right : List Nat) :
    c.support (left ++ right) = c.support left ∪ c.support right := by
  ext input
  simp [mem_support, or_and_right, exists_or]

/-- A gate that is no input reads what its children read. -/
theorem support_children (other : c.kind gate ≠ .input) :
    c.support [gate] = c.support (c.children gate) := by
  ext input
  rw [mem_support_singleton, mem_support]
  constructor
  · rintro ⟨path, kind⟩
    rcases Reaches.cases_iff.1 path with same | ⟨child, wire, path⟩
    · exact absurd (same ▸ kind) other
    · exact ⟨child, wire, path, kind⟩
  · rintro ⟨child, wire, reads⟩
    exact reads.of_child wire

theorem support_input (kind : c.kind gate = .input) (childless : c.children gate = []) :
    c.support [gate] = {gate} := by
  ext input
  rw [mem_support_singleton, Finset.mem_singleton]
  constructor
  · exact fun reads => Reaches.eq_of_children_nil childless reads.1
  · rintro rfl
    exact ⟨.refl input, kind⟩

/-! ## Winning coalitions -/

/-- The world in which exactly the members of a set are true. -/
def among (coalition : Finset Nat) : World := fun input => decide (input ∈ coalition)

/-- A coalition wins a gate only through its inputs. -/
theorem value_among_congr (formula : c.IsFormula gate) {S T : Finset Nat}
    (same : ∀ input ∈ c.support [gate], input ∈ S ↔ input ∈ T) :
    c.value (among S) gate = c.value (among T) gate :=
  value_congr formula fun input reads => decide_eq_decide.2 (same input (mem_support_singleton.2 reads))

/-- The root of a smooth deterministic decomposable formula whose inputs have no children. -/
structure IsCountable (c : Circuit α) (root : Nat) : Prop where
  formula : c.IsFormula root
  childless : ∀ gate, c.Reaches root gate → c.kind gate = .input → c.children gate = []
  decomposable : c.Decomposable root
  deterministic : c.Deterministic root
  smooth : c.Smooth root

theorem IsCountable.of_reaches {root : Nat} (countable : c.IsCountable root)
    (path : c.Reaches root gate) : c.IsCountable gate where
  formula := countable.formula.of_reaches path
  childless other lower := countable.childless other (path.trans lower)
  decomposable other lower := countable.decomposable other (path.trans lower)
  deterministic other lower := countable.deterministic other (path.trans lower)
  smooth other lower := countable.smooth other (path.trans lower)

/-- The children of a disjunction have the same support. -/
theorem IsCountable.support_child (countable : c.IsCountable gate) (kind : c.kind gate = .or)
    {child : Nat} (wire : child ∈ c.children gate) : c.support [child] = c.support [gate] := by
  ext input
  rw [mem_support_singleton, mem_support_singleton]
  exact countable.smooth.reads_child (.refl gate) kind wire input

end Circuit

namespace DDnnf

variable {c : Circuit Rat} {gate : Nat}

/-- Gates that read different inputs have disjoint supports. -/
theorem disjoint_support {gates before after : List Nat} {child : Nat} (apart : c.Disjoint gates)
    (split : gates = before ++ child :: after) :
    Disjoint (c.support before) (c.support [child]) := by
  rw [split] at apart
  obtain ⟨_, _, cross⟩ := List.pairwise_append.1 apart
  refine Finset.disjoint_left.2 fun input left right => ?_
  obtain ⟨other, listed, reads⟩ := Circuit.mem_support.1 left
  exact cross other listed child (List.mem_cons_self ..) input
    ⟨reads, Circuit.mem_support_singleton.1 right⟩

theorem childValue_eq_ok {β : Type} {table : Std.TreeMap Nat β} {child : Nat} {entry : β}
    (found : table[child]? = some entry) : childValue table gate (some child) = .ok entry := by
  simp [childValue, found, Outcome.ofOption]

/-! ## The two tables of a gate -/

/-- The distribution of a gate is found from those of its children. -/
theorem delta_spec (countable : c.IsCountable gate) {table : Std.TreeMap Nat (Distribution Rat)}
    (below : ∀ child ∈ c.children gate, ∃ entry, table[child]? = some entry ∧
      entry.Counts c.prob (c.support [child])) :
    ∃ entry, delta c table gate = .ok entry ∧ entry.Counts c.prob (c.support [gate]) := by
  have evaluable := countable.formula.evaluable gate (.refl gate)
  cases kind : c.kind gate with
  | input =>
    refine ⟨#[1 - c.prob gate, c.prob gate], by simp only [delta, kind]; rfl, ?_⟩
    rw [Circuit.support_input kind (countable.childless gate (.refl gate) kind)]
    exact Distribution.counts_singleton gate
  | not =>
    obtain ⟨child, only⟩ := evaluable.onlyChild kind
    obtain ⟨entry, found, counts⟩ := below child (by simp [only])
    refine ⟨entry, ?_, ?_⟩
    · simp only [delta, kind, only, List.head?_cons, childValue_eq_ok found]
    · rw [Circuit.support_children (by rw [kind]; decide), only]
      exact counts
  | or =>
    cases children : c.children gate with
    | nil =>
      refine ⟨#[1], by simp [delta, kind, children], ?_⟩
      rw [Circuit.support_children (by rw [kind]; decide), children, Circuit.support_nil]
      exact Distribution.counts_empty
    | cons first rest =>
      have wire : first ∈ c.children gate := by simp [children]
      obtain ⟨entry, found, counts⟩ := below first wire
      refine ⟨entry, ?_, ?_⟩
      · simp [delta, kind, children, childValue_eq_ok found]
      · rw [← countable.support_child kind wire]
        exact counts
  | and =>
    have apart := countable.decomposable gate (.refl gate) kind
    rw [Circuit.support_children (by rw [kind]; decide)]
    simp only [delta, kind]
    refine foldlM_eq_ok (fun before (result : Distribution Rat) =>
      result.Counts c.prob (c.support before)) ?_
      fun before child after result split counts => ?_
    · rw [Circuit.support_nil]
      exact Distribution.counts_empty
    · obtain ⟨entry, found, other⟩ := below child (by simp [split])
      refine ⟨result.convolve entry, by simp [childValue_eq_ok found, bind, Except.bind], ?_⟩
      rw [Circuit.support_append]
      exact counts.convolve other (disjoint_support apart split)
  | alternative => simp [Circuit.Evaluable, kind] at evaluable
  | undetermined => simp [Circuit.Evaluable, kind] at evaluable

/-- The coalitions that win a gate. -/
def winning (c : Circuit Rat) (gate : Nat) (coalition : Finset Nat) : Bool :=
  c.value (Circuit.among coalition) gate

/-- Whether a coalition wins a gate does not depend on inputs that the gate does not read. -/
theorem winning_congr (formula : c.IsFormula gate) {gates : List Nat} (listed : gate ∈ gates)
    {S T : Finset Nat} (same : ∀ input ∈ c.support gates, input ∈ S ↔ input ∈ T) :
    winning c gate S = winning c gate T :=
  Circuit.value_among_congr formula fun input member => same input
    (Circuit.mem_support.2 ⟨gate, listed, Circuit.mem_support_singleton.1 member⟩)

/-- A coalition wins gates in two parts that read different inputs through its share of each. -/
theorem winning_union {before : List Nat} {child : Nat} {S T : Finset Nat}
    (apart : Disjoint (c.support before) (c.support [child]))
    (formulas : ∀ other ∈ before, c.IsFormula other) (formula : c.IsFormula child)
    (left : S ⊆ c.support before) (right : T ⊆ c.support [child]) :
    (before ++ [child]).all (winning c · (S ∪ T)) =
      (before.all (winning c · S) && winning c child T) := by
  have apart := Finset.disjoint_left.1 apart
  have same : before.all (winning c · (S ∪ T)) = before.all (winning c · S) := by
    rw [Bool.eq_iff_iff, List.all_eq_true, List.all_eq_true]
    refine forall₂_congr fun other listed => ?_
    rw [winning_congr (formulas other listed) listed fun input member => ?_]
    rw [Finset.mem_union]
    exact or_iff_left fun there => apart member (right there)
  have last : winning c child (S ∪ T) = winning c child T := by
    refine winning_congr formula (List.mem_singleton_self child) fun input member => ?_
    rw [Finset.mem_union]
    exact or_iff_right fun there => apart (left there) member
  rw [List.all_append, same]
  simp [last]

section Alpha

variable {sizes : Std.TreeMap Nat (Distribution Rat)} {table : Std.TreeMap Nat (Triangle Rat)}
  (countable : c.IsCountable gate)
  (below : ∀ child ∈ c.children gate, ∃ entry, table[child]? = some entry ∧
    entry.Counts c.prob (c.support [child]) (winning c child))

include countable below

/-- The children of a disjunction win the same inputs, and no two of them in one world. -/
theorem alpha_or_spec (kind : c.kind gate = .or) :
    ∃ entry, alpha c sizes table gate = .ok entry ∧
      entry.Counts c.prob (c.support [gate]) (winning c gate) := by
  have formula := countable.formula
  have all : ∃ entry, alpha c sizes table gate = .ok entry ∧
      ((c.children gate = [] ∧ entry = #[#[0]]) ∨ entry.Counts c.prob (c.support [gate]) fun S =>
        (c.children gate).any (winning c · S)) := by
    simp only [alpha, kind]
    -- the sum starts with a table that is too small, and has the right size from the first child on
    refine foldlM_eq_ok (fun before (result : Triangle Rat) => (before = [] ∧ result = #[#[0]]) ∨
      result.Counts c.prob (c.support [gate]) fun S => before.any (winning c · S))
      (Or.inl ⟨rfl, rfl⟩) fun before child after result split here => ?_
    have wire : child ∈ c.children gate := by simp [split]
    obtain ⟨entry, found, other⟩ := below child wire
    rw [countable.support_child kind wire] at other
    refine ⟨result.add entry, by simp [childValue_eq_ok found, bind, Except.bind], Or.inr ?_⟩
    rcases here with ⟨rfl, rfl⟩ | counts
    · exact other.false_add.congr fun S _ => (Bool.or_false _).symm
    · refine (counts.add other fun S _ both => ?_).congr fun S _ => by simp
      obtain ⟨earlier, listed, wins⟩ := List.any_eq_true.1 both.1
      have exclusive := countable.deterministic gate (.refl gate) kind (Circuit.among S)
      rw [split] at exclusive
      obtain ⟨_, _, cross⟩ := List.pairwise_append.1 exclusive
      exact cross earlier listed child (List.mem_cons_self ..) ⟨wins, both.2⟩
  obtain ⟨entry, computed, none | counts⟩ := all
  · obtain ⟨childless, rfl⟩ := none
    refine ⟨_, computed, ?_⟩
    rw [Circuit.support_children (by rw [kind]; decide), childless, Circuit.support_nil]
    refine Triangle.counts_false.congr fun S _ => ?_
    rw [winning, formula.value_or _ kind, childless]
    rfl
  · exact ⟨entry, computed, counts.congr fun S _ => (formula.value_or _ kind).symm⟩

/-- The children of a conjunction read different inputs. -/
theorem alpha_and_spec (kind : c.kind gate = .and) :
    ∃ entry, alpha c sizes table gate = .ok entry ∧
      entry.Counts c.prob (c.support [gate]) (winning c gate) := by
  have formula := countable.formula
  have apart := countable.decomposable gate (.refl gate) kind
  have all : ∃ entry, alpha c sizes table gate = .ok entry ∧ entry.Counts c.prob
      (c.support (c.children gate)) fun S => (c.children gate).all (winning c · S) := by
    simp only [alpha, kind]
    refine foldlM_eq_ok (fun before (result : Triangle Rat) =>
      result.Counts c.prob (c.support before) fun S => before.all (winning c · S)) ?_
      fun before child after result split counts => ?_
    · rw [Circuit.support_nil]
      exact Triangle.counts_true
    · obtain ⟨entry, found, other⟩ := below child (by simp [split])
      refine ⟨result.convolve entry, by simp [childValue_eq_ok found, bind, Except.bind], ?_⟩
      have disjoint := disjoint_support apart split
      rw [Circuit.support_append]
      exact counts.convolve other disjoint fun S left T right => winning_union disjoint
        (fun other listed => formula.child (by simp [split, listed])) (formula.child (by simp [split]))
        left right
  obtain ⟨entry, computed, counts⟩ := all
  refine ⟨entry, computed, ?_⟩
  rw [Circuit.support_children (by rw [kind]; decide)]
  exact counts.congr fun S _ => (formula.value_and _ kind).symm

/-- The table of winning coalitions of a gate is found from those of its children. -/
theorem alpha_spec
    (counted : ∀ child ∈ c.children gate, ∃ entry, sizes[child]? = some entry ∧
      entry.Counts c.prob (c.support [child])) :
    ∃ entry, alpha c sizes table gate = .ok entry ∧
      entry.Counts c.prob (c.support [gate]) (winning c gate) := by
  have formula := countable.formula
  have evaluable := formula.evaluable gate (.refl gate)
  cases kind : c.kind gate with
  | input =>
    refine ⟨#[#[0], #[0, c.prob gate]], by simp only [alpha, kind]; rfl, ?_⟩
    rw [Circuit.support_input kind (countable.childless gate (.refl gate) kind)]
    refine (Triangle.counts_singleton gate).congr fun S _ => ?_
    exact (formula.value_input (Circuit.among S) kind).symm
  | not =>
    obtain ⟨child, only⟩ := evaluable.onlyChild kind
    have wire : child ∈ c.children gate := by simp [only]
    obtain ⟨size, size_found, size_counts⟩ := counted child wire
    obtain ⟨won, won_found, won_counts⟩ := below child wire
    refine ⟨.build won.size fun k l =>
      (Triangle.pascal won.size : Triangle Rat).entry k l * size.entry k - won.entry k l, ?_, ?_⟩
    · simp only [alpha, kind, Circuit.onlyChild, only, childValue_eq_ok size_found,
        childValue_eq_ok won_found, bind, Except.bind]
    · rw [Circuit.support_children (by rw [kind]; decide), only]
      refine (won_counts.complement size_counts).congr fun S _ => ?_
      exact (formula.value_not _ kind only).symm
  | or => exact alpha_or_spec countable below kind
  | and => exact alpha_and_spec countable below kind
  | alternative => simp [Circuit.Evaluable, kind] at evaluable
  | undetermined => simp [Circuit.Evaluable, kind] at evaluable

end Alpha

/-! ## The tables of the root -/

theorem deltas_spec (countable : c.IsCountable gate) :
    ∃ table, deltas c gate = .ok table ∧ ∀ other, c.Reaches gate other →
      ∃ entry, table[other]? = some entry ∧ entry.Counts c.prob (c.support [other]) := by
  have formula := countable.formula
  have member : ∀ {other}, other ∈ c.postOrder gate ↔ c.Reaches gate other :=
    mem_postOrder formula.even formula.inside
  obtain ⟨table, computed, filled⟩ := tabulate_eq_ok
    (fun other (entry : Distribution Rat) => entry.Counts c.prob (c.support [other]))
    (childrenFirst_postOrder formula.even formula.inside formula.acyclic) fun other listed _ below =>
      delta_spec (countable.of_reaches (member.1 listed)) below
  exact ⟨table, computed, fun other path => filled other (member.2 path)⟩

/-- The table of the coalitions that win the root is found. -/
theorem coalitions_spec {d : DDnnf Rat} (countable : d.circuit.IsCountable d.root) :
    ∃ entry, d.coalitions d.root = .ok entry ∧ entry.Counts d.circuit.prob
      (d.circuit.support [d.root]) (winning d.circuit d.root) := by
  have formula := countable.formula
  have member : ∀ {other}, other ∈ d.circuit.postOrder d.root ↔ d.circuit.Reaches d.root other :=
    mem_postOrder formula.even formula.inside
  obtain ⟨sizes, counted, sized⟩ := deltas_spec countable
  obtain ⟨table, computed, filled⟩ := tabulate_eq_ok
    (fun other (entry : Triangle Rat) => entry.Counts d.circuit.prob (d.circuit.support [other])
      (winning d.circuit other))
    (childrenFirst_postOrder formula.even formula.inside formula.acyclic) fun other listed _ below =>
      alpha_spec (countable.of_reaches (member.1 listed)) below fun child wire =>
        sized child ((member.1 listed).child wire)
  obtain ⟨entry, found, counts⟩ := filled d.root (member.2 (.refl d.root))
  refine ⟨entry, ?_, counts⟩
  rw [coalitions, counted]
  simp only [computed, bind, Except.bind, Std.TreeMap.getD_eq_getD_getElem?, found, Option.getD_some]

end DDnnf

end Provenance
