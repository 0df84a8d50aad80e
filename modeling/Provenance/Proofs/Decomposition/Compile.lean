import Provenance.Proofs.Decomposition.Entries
import Provenance.Proofs.Decomposition.Literals

/-!
# Compilation is correct

An assignment fits the whole tree, with no doubt about the root, exactly when its values are those of the
circuit in the world: no strong value is at odds with the parent and each is justified by a child
(`Ready.fits_root_iff`).  So the accepted entries of the root bag say together that the root is true, and
as they have the same values and no suspicious gate there is at most one of them.

Everything that a compilation needs is there when the decomposition covers the circuit
(`Compilable.exists_start`).  The result is a deterministic decomposable circuit with the same inputs that
has the value of the root in each world (`Compilable.alongTree_spec`).
-/

namespace Provenance.Compilation

open Provenance.Circuit Provenance.Decomposition Provenance.Network

variable {α : Type} {k : Compilation α} {root : Nat}

/-! ## Values of the circuit -/

/-- The values of a gate and its children are as in the circuit when no child is at odds with the gate
and some child justifies a strong value. -/
theorem gateValue_eq_iff {c : Circuit α} {gate : Nat} (evaluable : c.Evaluable gate)
    (other : c.kind gate ≠ .input) (world : World) (s : Nat → Bool) :
    c.gateValue world s gate = .ok (s gate) ↔
      (∀ child ∈ c.children gate, (c.kind gate).isStrong (s child) = true →
        (c.kind gate).admits (s gate) (s child) = true) ∧
      ((c.kind gate).isStrong (s gate) = true →
        ∃ child ∈ c.children gate, (c.kind gate).isStrong (s child) = true) := by
  unfold Circuit.gateValue
  rcases evaluable.isInner other with kind | kind | kind
  · simp only [kind, Kind.isStrong, Kind.admits, Except.ok.injEq, Bool.not_eq_true', beq_iff_eq]
    cases s gate with
    | false => simp
    | true =>
      simp only [List.all_eq_true, Bool.true_eq_false, false_implies, and_true]
      exact forall₂_congr fun child _ => by cases s child <;> simp
  · simp only [kind, Kind.isStrong, Kind.admits, Except.ok.injEq, beq_iff_eq]
    cases s gate with
    | false =>
      simp only [List.any_eq_false, Bool.false_eq_true, false_implies, and_true]
      exact forall₂_congr fun child _ => by cases s child <;> simp
    | true => simp
  · obtain ⟨child, only⟩ := evaluable.onlyChild kind
    simp only [kind, Kind.isStrong, Kind.admits, onlyChild, only, Except.map, Except.ok.injEq,
      List.mem_singleton, forall_eq, bne_iff_ne, true_implies, and_true]
    cases s gate <;> cases s child <;> simp

/-- All bags are below the root. -/
theorem Ready.mem_below_root (ready : k.Ready root) {b : Nat} (inside : b < k.tree.size) :
    b ∈ (Part.below ready k.tree.root).bags := ready.arranged.tree.below_root b inside

theorem Ready.top_root (ready : k.Ready root) {gate : Nat} :
    gate ∈ (Part.below ready k.tree.root).top ↔ gate = root := by
  show gate ∈ k.tree.bag k.tree.root ↔ _
  rw [ready.arranged.bag_root, GateSet.mem_singleton]

/-- What fits the whole tree, with no doubt about the root, has the values of the circuit. -/
theorem Ready.fits_root_iff (ready : k.Ready root) {world : World} {s : Nat → Bool} :
    (Part.below ready k.tree.root).Fits world s ∧
        ¬ (Part.below ready k.tree.root).Doubtful s root ↔
      ∀ gate < k.source.size, k.source.gateValue world s gate = .ok (s gate) := by
  constructor
  · rintro ⟨fits, clear⟩ gate inside
    by_cases kind : k.source.kind gate = .input
    · obtain ⟨leaf, found⟩ := ready.responsible gate kind
      have small := (ready.leaf gate leaf found).2.1
      rw [fits.inputs gate leaf found (ready.mem_below_root small)]
      simp [Circuit.gateValue, kind]
    · refine (gateValue_eq_iff (ready.evaluable gate inside) kind world s).2
        ⟨fun child wire strong => ?_, fun strong => ?_⟩
      · obtain ⟨b, left, right⟩ := ready.decomposes.covers gate child wire
        exact fits.wires b (ready.mem_below_root (lt_of_mem_bag left)) gate left child right wire strong
      · by_contra unjustified
        have doubtful : (Part.below ready k.tree.root).Doubtful s gate :=
          ⟨strong, fun b _ justified => by
            obtain ⟨_, child, _, wire, child_strong⟩ := justified
            exact unjustified ⟨child, wire, child_strong⟩⟩
        by_cases same : gate = root
        · rw [same] at doubtful
          exact clear doubtful
        · obtain ⟨b, held⟩ := ready.held gate inside
          exact fits.settled gate ⟨b, ready.mem_below_root (lt_of_mem_bag held), held⟩
            (mt ready.top_root.1 same) doubtful
  · intro values
    have other : ∀ {gate value}, (k.source.kind gate).isStrong value = true →
        k.source.kind gate ≠ .input := by
      intro gate value strong kind
      simp [kind, Kind.isStrong] at strong
    have never : ∀ {gate}, gate < k.source.size →
        ¬ (Part.below ready k.tree.root).Doubtful s gate := by
      rintro gate inside ⟨strong, unjustified⟩
      have value := gateValue_eq_iff (ready.evaluable gate inside) (other strong) world s
      obtain ⟨child, wire, child_strong⟩ := (value.1 (values gate inside)).2 strong
      obtain ⟨b, left, right⟩ := ready.decomposes.covers gate child wire
      exact unjustified b (ready.mem_below_root (lt_of_mem_bag left))
        ⟨left, child, right, wire, child_strong⟩
    refine ⟨⟨fun input leaf found inside => ?_, fun b _ gate left child right wire strong => ?_,
      fun gate held _ => ?_⟩, never ready.root_lt⟩
    · obtain ⟨kind, _, _, bag⟩ := ready.leaf input leaf found
      have small := ready.lt_of_mem leaf input (by rw [bag]; exact GateSet.mem_singleton.2 rfl)
      simpa [Circuit.gateValue, kind, eq_comm] using values input small
    · have inside := ready.lt_of_mem b gate left
      have value := gateValue_eq_iff (ready.evaluable gate inside) (other strong) world s
      exact (value.1 (values gate inside)).1 child wire strong
    · obtain ⟨b, _, held⟩ := held
      exact never (ready.lt_of_mem b gate held)

/-- A decomposition has no other gates than the circuit, so its wires do not lead to any. -/
theorem lt_of_reaches {c : Circuit α} {tree : Decomposition} (decomposes : tree.Decomposes c)
    (lt_of_mem : ∀ b, ∀ gate ∈ tree.bag b, gate < c.size) {gate other : Nat} (inside : gate < c.size)
    (path : c.Reaches gate other) : other < c.size := by
  induction path with
  | refl => exact inside
  | @tail parent child _ wire _ =>
    obtain ⟨b, _, held⟩ := decomposes.covers parent child wire
    exact lt_of_mem b child held

theorem Ready.isFormula (ready : k.Ready root) {gate : Nat} (inside : gate < k.source.size) :
    k.source.IsFormula gate where
  even := ready.even
  acyclic := ready.acyclic
  evaluable other path := ready.evaluable other (lt_of_reaches ready.decomposes ready.lt_of_mem inside path)

/-! ## The accepted entries -/

/-- The entries of the root bag in which the root is true and nothing is suspicious. -/
def accepted (root : Nat) (entries : List Entry) : List Entry :=
  entries.filter fun e => e.suspicious.isEmpty && e.valuation.value? root == some true

theorem mem_accepted {entries : List Entry} {e : Entry} : e ∈ accepted root entries ↔
    e ∈ entries ∧ (∀ gate, gate ∉ e.suspicious) ∧ e.valuation.value? root = some true := by
  rw [accepted, List.mem_filter, Bool.and_eq_true, GateSet.isEmpty_iff, beq_iff_eq]

/-- An entry is accepted when the assignments that it describes leave no doubt that the root is true. -/
theorem Ready.mem_accepted_iff (ready : k.Ready root) {entries : List Entry} {e : Entry}
    {s : Nat → Bool} (listed : e ∈ entries)
    (describes : (Part.below ready k.tree.root).Describes s e) :
    e ∈ accepted root entries ↔
      ¬ (Part.below ready k.tree.root).Doubtful s root ∧ s root = true := by
  rw [mem_accepted, describes.values root, if_pos (ready.top_root.2 rfl), Option.some.injEq]
  simp only [describes.suspicious, ready.top_root, listed, true_and]
  refine and_congr_left fun _ => ⟨fun clear doubtful => clear root ⟨rfl, doubtful⟩, ?_⟩
  rintro clear gate ⟨rfl, doubtful⟩
  exact clear doubtful

variable {target : Circuit α} {entries : List Entry}

/-- Some accepted entry is true exactly where the root is true. -/
theorem Ready.any_accepted (ready : k.Ready root)
    (lists : k.Lists target (Part.below ready k.tree.root) entries) (world : World) :
    ((accepted root entries).map Entry.gate).any (target.value world) =
      k.source.value (k.pull world) root := by
  rw [Bool.eq_iff_iff, List.any_eq_true]
  constructor
  · rintro ⟨gate, listed, is_true⟩
    obtain ⟨e, member, rfl⟩ := List.mem_map.1 listed
    have in_entries := (mem_accepted.1 member).1
    obtain ⟨s, fits, describes⟩ := ((lists.means e in_entries).value world).1 is_true
    obtain ⟨clear, root_true⟩ := (ready.mem_accepted_iff in_entries describes).1 member
    have values := ready.fits_root_iff.1 ⟨fits, clear⟩
    rw [← root_true]
    have formula := ready.isFormula ready.root_lt
    exact value_eq_of_respects formula fun gate path => values gate (formula.inside gate path)
  · intro root_true
    have values : ∀ gate < k.source.size, k.source.gateValue (k.pull world)
        (k.source.value (k.pull world)) gate = .ok (k.source.value (k.pull world) gate) :=
      fun gate inside => (ready.isFormula inside).gateValue _
    obtain ⟨fits, clear⟩ := ready.fits_root_iff.2 values
    obtain ⟨e, listed, describes⟩ := lists.complete (k.pull world) _ fits
    refine ⟨e.gate, List.mem_map_of_mem ?_, ?_⟩
    · exact (ready.mem_accepted_iff listed describes).2 ⟨clear, root_true⟩
    · exact ((lists.means e listed).value world).2 ⟨_, fits, describes⟩

/-- At most one entry is accepted. -/
theorem Ready.accepted_exclusive (ready : k.Ready root)
    (lists : k.Lists target (Part.below ready k.tree.root) entries) :
    target.Exclusive ((accepted root entries).map Entry.gate) := by
  have valuation : ∀ e ∈ accepted root entries, e.valuation = [(root, true)] := by
    intro e member
    obtain ⟨listed, _, value⟩ := mem_accepted.1 member
    have gates := (lists.means e listed).proper.gates
    have top : (Part.below ready k.tree.root).top = .singleton root := ready.arranged.bag_root
    rw [top] at gates
    obtain ⟨⟨gate, held⟩, only, same⟩ := List.map_eq_singleton_iff.1 gates
    obtain rfl : gate = root := same
    rw [only]
    simpa [only, Valuation.value?] using value
  intro world
  rw [List.pairwise_map]
  refine (lists.distinct.filter _).imp_of_mem fun left right different _ => different ⟨?_, ?_⟩
  · rw [valuation _ left, valuation _ right]
  · obtain ⟨_, none, _⟩ := mem_accepted.1 left
    obtain ⟨_, none', _⟩ := mem_accepted.1 right
    exact GateSet.ext fun gate => iff_of_false (none gate) (none' gate)

/-! ## What a compilation starts from -/

/-- An acyclic circuit in which all gates have values, and a decomposition of it without empty bags that
has exactly its gates. -/
structure Compilable (c : Circuit α) (root : Nat) (tree : Decomposition) : Prop where
  inStep : c.InStep
  acyclic : c.Acyclic
  evaluable : ∀ gate < c.size, c.Evaluable gate
  root_lt : root < c.size
  decomposes : tree.Decomposes c
  filled : ∀ b < tree.size, tree.bag b ≠ ∅
  lt_of_mem : ∀ b, ∀ gate ∈ tree.bag b, gate < c.size
  held : ∀ gate < c.size, ∃ b, gate ∈ tree.bag b

/-- An acyclic circuit in which all gates have values, and a decomposition of it that has exactly its
gates; bags may be empty. -/
structure Spanned (c : Circuit α) (root : Nat) (tree : Decomposition) : Prop where
  inStep : c.InStep
  acyclic : c.Acyclic
  evaluable : ∀ gate < c.size, c.Evaluable gate
  root_lt : root < c.size
  decomposes : tree.Decomposes c
  lt_of_mem : ∀ b, ∀ gate ∈ tree.bag b, gate < c.size
  held : ∀ gate < c.size, ∃ b, gate ∈ tree.bag b

theorem Compilable.spanned {c : Circuit α} {tree : Decomposition} (compilable : Compilable c root tree) :
    Spanned c root tree := { compilable with }

/-- Leaves of the friendly tree hold one gate. -/
theorem Compilable.not_emptyLeaf {c : Circuit α} {tree : Decomposition} (compilable : Compilable c root tree)
    (x : Nat) : ¬ (tree.friendly root).EmptyLeaf x := by
  intro leaf
  have friendly := compilable.decomposes.tree.isFriendly_friendly compilable.filled root
  have single := friendly.leaf x leaf.inside leaf.childless
  rw [leaf.empty] at single
  exact absurd single (by decide)

namespace Spanned

variable {c : Circuit α} {tree : Decomposition}

theorem checkSource (spanned : Spanned c root tree) : Compilation.checkSource c root = .ok () := by
  have boolean : c.alternatives.first? = none := by
    refine List.head?_eq_none_iff.2 (List.eq_nil_iff_forall_not_mem.2 fun gate member => ?_)
    have kind := (spanned.inStep.alternatives gate).1 member
    have evaluable := spanned.evaluable gate (lt_of_kind (by simp [kind]))
    simp [Evaluable, kind] at evaluable
  have defined : c.gates.find? (c.kind · == .undetermined) = none := by
    refine List.find?_eq_none.2 fun gate member kind => ?_
    have evaluable := spanned.evaluable gate (List.mem_range.1 member)
    simp [Evaluable, beq_iff_eq.1 kind] at evaluable
  simp [Compilation.checkSource, Outcome.require, spanned.root_lt, requireBoolean, boolean, defined,
    bind, Except.bind]

/-- The friendly tree and its leaves are ready for the compilation. -/
theorem ready (spanned : Spanned k.source root tree) (same : k.tree = tree.friendly root)
    (leaves : k.responsible = responsibleLeaves k.source k.tree) : k.Ready root := by
  have tree_ok := spanned.decomposes.tree
  have arranged := tree_ok.isArranged_friendly root
  have decomposes := spanned.decomposes.friendly root
  have old := fun {b} => tree_ok.bag_friendly (b := b) root
  have within := tree_ok.bag_friendly_within root
  obtain ⟨leaf, responsible⟩ := responsibleLeaves_spec k.source k.tree
  rw [← same] at arranged decomposes old within
  rw [← leaves] at leaf responsible
  have held : ∀ gate < k.source.size, ∃ b, gate ∈ k.tree.bag b := by
    intro gate inside
    obtain ⟨b, member⟩ := spanned.held gate inside
    exact ⟨b, by rwa [(old (lt_of_mem_bag member)).2]⟩
  refine
    { even := spanned.inStep.even
      acyclic := spanned.acyclic
      evaluable := spanned.evaluable
      root_lt := spanned.root_lt
      arranged := arranged
      decomposes := decomposes
      lt_of_mem := fun b gate member => ?_
      held := held
      leaf := leaf
      responsible := fun input kind => ?_ }
  · rcases within b with only | ⟨a, within⟩
    · rw [only gate member]
      exact spanned.root_lt
    · exact spanned.lt_of_mem a gate (within gate member)
  · obtain ⟨b, member⟩ := held input (lt_of_input kind)
    obtain ⟨leaf, small, _, childless, bag⟩ := arranged.exists_leaf member
    exact responsible leaf small childless input bag kind

theorem isFormula (spanned : Spanned c root tree) : c.IsFormula root where
  even := spanned.inStep.even
  acyclic := spanned.acyclic
  evaluable other path := spanned.evaluable other
    (lt_of_reaches spanned.decomposes spanned.lt_of_mem spanned.root_lt path)

end Spanned

theorem positive_eq {input positive negative : Nat}
    (found : k.literals[input]? = some (positive, negative)) : k.positive input = positive := by
  rw [Compilation.positive, Std.TreeMap.getD_eq_getD_getElem?, found]
  rfl

variable [Scalar α]

/-- When all inputs are spelled the constant true comes behind their literals. -/
theorem Spelled.grown {done : List Nat} (spelled : Spelled k.source done k.literals target)
    (inputs : ∀ input, k.source.kind input = .input ↔ input ∈ done) (truth : k.truth = target.size) :
    k.Grown (target.addNode .and []).2 ∧ ∀ input, k.source.kind input = .input →
      ∃ negative, Literal k.source (target.addNode .and []).2 input (k.positive input) negative := by
  have inStep := spelled.sound.inStep
  have literal : ∀ input, k.source.kind input = .input →
      ∃ negative, k.literals[input]? = some (k.positive input, negative) ∧
        Literal k.source (target.addNode .and []).2 input (k.positive input) negative := by
    intro input kind
    obtain ⟨⟨positive, negative⟩, found⟩ := (spelled.found input).1 ((inputs input).1 kind)
    rw [positive_eq found]
    exact ⟨negative, found, (spelled.literal input positive negative found).of_extends
      (Extends.addNode inStep .and [])⟩
  refine ⟨?_, fun input kind => (literal input kind).imp fun _ => And.right⟩
  refine
    { sound := spelled.sound.addNode .and (fun _ listed => absurd listed List.not_mem_nil) trivial
        (fun _ => List.Pairwise.nil) (fun is_or => absurd is_or (by decide))
      literal := fun input kind => ?_
      injective := fun a b left right same => ?_
      origin := fun gate kind => ?_
      truth_lt := ?_
      kind_truth := by rw [kind_addNode, if_pos truth]
      children_truth := by rw [children_addNode _ _ _ inStep, if_pos truth] }
  · obtain ⟨negative, found, spec⟩ := literal input kind
    exact ⟨negative, found, spec.negative_lt, spec.earlier, spec.kind_positive, spec.children_positive,
      spec.kind_negative, spec.children_negative⟩
  · obtain ⟨x, found, _⟩ := literal a left
    obtain ⟨y, found', _⟩ := literal b right
    rw [← same] at found'
    exact spelled.injective a b _ x y found found'
  · rw [kind_addNode] at kind
    split at kind
    · exact absurd kind (by decide)
    · obtain ⟨input, negative, found⟩ := spelled.origin gate kind
      exact ⟨input, (inputs input).2 ((spelled.found input).2 ⟨_, found⟩), positive_eq found⟩
  · rw [truth, size_addNode]
    exact Nat.lt_succ_self _

/-- A compilation starts with all literals and the constant true. -/
theorem Spanned.exists_start {c : Circuit α} {tree : Decomposition} (spanned : Spanned c root tree) :
    ∃ (k : Compilation α) (target : Circuit α), start c root tree = .ok (k, target) ∧
      k.source = c ∧ k.tree = tree.friendly root ∧ k.Ready root ∧ k.Grown target ∧
      ∀ input, k.source.kind input = .input →
        ∃ negative, Literal k.source target input (k.positive input) negative := by
  obtain ⟨friendly, same⟩ : ∃ friendly, friendly = tree.friendly root := ⟨_, rfl⟩
  obtain ⟨leaves, listed⟩ : ∃ leaves, leaves = responsibleLeaves c friendly := ⟨_, rfl⟩
  have ready : ∀ literals truth, Ready ⟨c, friendly, leaves, literals, truth⟩ root :=
    fun literals truth =>
      Spanned.ready (k := ⟨c, friendly, leaves, literals, truth⟩) spanned same listed
  have inStep := spanned.inStep
  obtain ⟨literals, target, added, spelled⟩ := (spelled_nil c).addLiterals c.inputs.toList leaves
    inStep.naming c.inputs.nodup_toList fun input member => by
      obtain ⟨leaf, found⟩ := (ready ∅ 0).responsible input ((inStep.inputs input).1 member)
      have found : leaves[input]? = some leaf := found
      rw [Std.TreeMap.contains_eq_isSome_getElem?, found]
      rfl
  have started : start c root tree =
      .ok (⟨c, friendly, leaves, literals, target.size⟩, (target.addNode .and []).2) := by
    simp only [start, spanned.checkSource, ← same, ← listed, added, bind, Except.bind]
    rfl
  obtain ⟨grown, literal⟩ := Spelled.grown (k := ⟨c, friendly, leaves, literals, target.size⟩) spelled
    (fun input => (inStep.inputs input).symm) rfl
  exact ⟨_, _, started, rfl, same, ready literals target.size, grown, literal⟩

/-! ## What a compilation comes to -/

/-- The inputs of one circuit are those of another one under other numbers. -/
structure SameInputs (c c' : Circuit α) (number : Nat → Nat) : Prop where
  kind : ∀ input, c.kind input = .input → c'.kind (number input) = .input
  injective : ∀ a b, c.kind a = .input → c.kind b = .input → number a = number b → a = b
  onto : ∀ gate, c'.kind gate = .input → ∃ input, c.kind input = .input ∧ number input = gate
  name? : ∀ input, c.kind input = .input → c'.name? (number input) = c.name? input
  prob : ∀ input, c.kind input = .input → c'.prob (number input) = c.prob input

theorem Grown.sameInputs {start : Circuit α} (grown : k.Grown target) (extends_ : start.Extends target)
    (literal : ∀ input, k.source.kind input = .input →
      ∃ negative, Literal k.source start input (k.positive input) negative) :
    SameInputs k.source target k.positive where
  kind input is_input := by
    obtain ⟨_, _, _, _, kind, _⟩ := grown.literal input is_input
    exact kind
  injective := grown.injective
  onto := grown.origin
  name? input is_input := by
    obtain ⟨negative, spec⟩ := literal input is_input
    exact (spec.of_extends extends_).name?
  prob input is_input := by
    obtain ⟨negative, spec⟩ := literal input is_input
    exact (spec.of_extends extends_).prob

/-- The compilation from its start to its result: the entries of the root bag, and behind them the disjunction of
those that are accepted. -/
structure Run (k : Compilation α) (root : Nat) (start : Circuit α) (entries : List Entry) (middle : Circuit α) :
    Prop where
  ready : k.Ready root
  grown_start : k.Grown start
  found : k.entries (k.tree.size + 1) k.tree.root start = .ok (entries, middle)
  grown : k.Grown middle
  lists : ¬ k.Starved k.tree.root ∧ k.Lists middle (Part.below ready k.tree.root) entries ∨
    k.Starved k.tree.root ∧ entries = []
  inside : ∀ gate ∈ (accepted root entries).map Entry.gate, gate < middle.size
  last : k.Grown (middle.addNode .or ((accepted root entries).map Entry.gate)).2
  inputs : SameInputs k.source (middle.addNode .or ((accepted root entries).map Entry.gate)).2 k.positive

theorem Spanned.exists_run {c : Circuit α} {tree : Decomposition} (spanned : Spanned c root tree) :
    ∃ (k : Compilation α) (start : Circuit α) (entries : List Entry) (middle : Circuit α),
      Compilation.start c root tree = .ok (k, start) ∧ k.source = c ∧ k.tree = tree.friendly root ∧
      k.Run root start entries middle ∧ DDnnf.alongTree c root tree =
        .ok (DDnnf.ofCircuit (middle.addNode .or ((accepted root entries).map Entry.gate)).2 middle.size) := by
  obtain ⟨k, start, started, rfl, same, ready, grown, literal⟩ := spanned.exists_start
  obtain ⟨entries, middle, found, extends_, grown', lists⟩ :=
    ready.entries_spec (k.tree.size + 1) ready.arranged.tree.root_lt
      ((IsTree.weight_le k.tree k.tree.root).trans (Nat.le_succ _)) grown
  have listed : (∀ gate ∈ (accepted root entries).map Entry.gate, gate < middle.size) ∧
      middle.Exclusive ((accepted root entries).map Entry.gate) := by
    rcases lists with ⟨_, lists⟩ | ⟨_, rfl⟩
    · refine ⟨fun gate listed => ?_, ready.accepted_exclusive lists⟩
      obtain ⟨e, member, rfl⟩ := List.mem_map.1 listed
      exact (lists.means e (mem_accepted.1 member).1).inside
    · exact ⟨fun _ none => absurd none List.not_mem_nil, fun _ => List.Pairwise.nil⟩
  obtain ⟨inside, exclusive⟩ := listed
  have last := grown'.addNode (by decide) (grown'.sound.addNode .or inside trivial
    (fun is_and => absurd is_and (by decide)) fun _ => exclusive)
  have inputs := last.sameInputs (extends_.trans (Extends.addNode grown'.sound.inStep .or _)) literal
  refine ⟨k, start, entries, middle, started, rfl, same,
    ⟨ready, grown, found, grown', lists, inside, last, inputs⟩, ?_⟩
  simp only [DDnnf.alongTree, started, found, bind, Except.bind]
  rfl

/-- What is compiled is sound and has the same inputs, without children.  Its root has the value of the gate;
where the friendly tree has an empty leaf it is always false. -/
theorem Spanned.exists_compiled {c : Circuit α} {tree : Decomposition} (spanned : Spanned c root tree) :
    ∃ (target : Circuit α) (top : Nat) (number : Nat → Nat),
      DDnnf.alongTree c root tree = .ok (DDnnf.ofCircuit target top) ∧ target.Sound ∧
      top < target.size ∧ SameInputs c target number ∧
      (∀ gate, target.kind gate = .input → target.children gate = []) ∧
      ((∀ x, ¬ (tree.friendly root).EmptyLeaf x) → ∀ world,
        target.value world top = c.value (fun input => world (number input)) root) ∧
      ∀ x, (tree.friendly root).EmptyLeaf x → ∀ world, target.value world top = false := by
  obtain ⟨k, start, entries, middle, _, rfl, same, run, compiled⟩ := spanned.exists_run
  have value := fun world => run.grown.sound.value_addNode_or run.last.sound run.inside world
  refine ⟨_, middle.size, k.positive, compiled, run.last.sound, ?_, run.inputs, fun gate is_input => ?_,
    fun filled world => ?_, fun x leaf world => ?_⟩
  · rw [size_addNode]
    exact Nat.lt_succ_self _
  · obtain ⟨input, kind, rfl⟩ := run.last.origin gate is_input
    obtain ⟨_, _, _, _, _, childless, _⟩ := run.last.literal input kind
    exact childless
  · rw [← same] at filled
    obtain ⟨_, lists⟩ := run.lists.resolve_right fun ⟨⟨x, leaf, _⟩, _⟩ => filled x leaf
    exact (value world).trans (run.ready.any_accepted lists world)
  · rw [← same] at leaf
    obtain ⟨_, rfl⟩ := run.lists.resolve_left fun ⟨fed, _⟩ =>
      fed ⟨x, leaf, run.ready.arranged.tree.below_root x leaf.inside⟩
    exact value world

/-- What is compiled is sound, has the same inputs, without children, and its root the value of the gate. -/
theorem Compilable.exists_compiled {c : Circuit α} {tree : Decomposition}
    (compilable : Compilable c root tree) :
    ∃ (target : Circuit α) (top : Nat) (number : Nat → Nat),
      DDnnf.alongTree c root tree = .ok (DDnnf.ofCircuit target top) ∧ target.Sound ∧
      top < target.size ∧ SameInputs c target number ∧
      (∀ gate, target.kind gate = .input → target.children gate = []) ∧
      ∀ world, target.value world top = c.value (fun input => world (number input)) root := by
  obtain ⟨target, top, number, compiled, sound, small, same, childless, value, _⟩ :=
    compilable.spanned.exists_compiled
  exact ⟨target, top, number, compiled, sound, small, same, childless, value compilable.not_emptyLeaf⟩

/-- A circuit is compiled along any decomposition of it.  The result is a deterministic decomposable
circuit with the same inputs, and its root has in each world the value of the gate. -/
theorem alongTree_spec {c : Circuit α} {tree : Decomposition} (compilable : Compilable c root tree) :
    ∃ (d : DDnnf α) (number : Nat → Nat), DDnnf.alongTree c root tree = .ok d ∧
      SameInputs c d.circuit number ∧
      (∀ world world', (∀ input, c.kind input = .input → world' (number input) = world input) →
        ∃ value, c.evaluate root world = .ok value ∧ d.circuit.evaluate d.root world' = .ok value) ∧
      d.circuit.InStep ∧ d.circuit.IsFormula d.root ∧
      d.circuit.Decomposable d.root ∧ d.circuit.Deterministic d.root := by
  obtain ⟨target, top, number, compiled, sound, small, same, _, value⟩ := compilable.exists_compiled
  have formula := sound.isFormula small
  refine ⟨_, number, compiled, same, fun world world' agree => ?_, sound.inStep, formula,
    sound.decomposable _, sound.deterministic _⟩
  have source := compilable.spanned.isFormula
  refine ⟨_, source.evaluate world, ?_⟩
  show target.evaluate top world' = _
  rw [formula.evaluate, value]
  exact congrArg Except.ok (value_congr source fun input reads => agree input reads.2)

/-- The one bag of all gates of the conjunction of two inputs. -/
theorem compilable_conjunction :
    Compilable conjunction 2 (ofParents [GateSet.ofList [0, 1, 2]] [0] 0 2) := by
  have wires : ∀ gate < 3, ∀ child ∈ conjunction.children gate, child < gate ∧
      gate ∈ GateSet.ofList [0, 1, 2] ∧ child ∈ GateSet.ofList [0, 1, 2] := by decide
  have wires : ∀ gate, ∀ child ∈ conjunction.children gate, child < gate ∧
      gate ∈ GateSet.ofList [0, 1, 2] ∧ child ∈ GateSet.ofList [0, 1, 2] :=
    fun gate child wire => wires gate (lt_of_wire wire) child wire
  exact
    { inStep := inStep_conjunction
      acyclic := acyclic_of_lt fun gate child wire => (wires gate child wire).1
      evaluable := by
        intro gate inside
        have inside : gate < 3 := inside
        obtain rfl | rfl | rfl : gate = 0 ∨ gate = 1 ∨ gate = 2 := by omega
        all_goals exact trivial
      root_lt := by decide
      decomposes := decomposes_ofParents_singleton _ 2 fun gate child wire => (wires gate child wire).2
      filled := by decide
      lt_of_mem := by
        intro b gate member
        obtain rfl : b = 0 := Nat.lt_one_iff.1 (lt_of_mem_bag member)
        revert gate
        decide
      held := by
        suffices ∀ gate < 3, gate ∈ (ofParents [GateSet.ofList [0, 1, 2]] [0] 0 2).bag 0 from
          fun gate inside => ⟨0, this gate inside⟩
        decide }

/-- The conjunction of two inputs is compiled along its one bag. -/
theorem alongTree_conjunction :
    Compilable conjunction 2 (ofParents [GateSet.ofList [0, 1, 2]] [0] 0 2) ∧
      ∃ d, DDnnf.alongTree conjunction 2 (ofParents [GateSet.ofList [0, 1, 2]] [0] 0 2) = .ok d ∧
        d.circuit.Decomposable d.root ∧ d.circuit.Deterministic d.root := by
  obtain ⟨d, _, compiled, _, _, _, _, decomposable, deterministic⟩ := alongTree_spec compilable_conjunction
  exact ⟨compilable_conjunction, d, compiled, decomposable, deterministic⟩

end Provenance.Compilation
