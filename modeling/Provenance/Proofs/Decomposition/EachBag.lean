import Provenance.Proofs.Decomposition.Compile

/-!
# The entries of each bag

A compilation computes the entries of every bag once on its way down from the root (`Called`, `Computes`).  An
entry stands for assignments of the gates in the bags below its bag: they have its values in the bag, agree with
the world on the inputs decided below, respect the wires in inner bags, and leave unjustified just the suspicious
gates (`StandsFor`).  The gate of the entry is true in a world when there is such an assignment, which then is
the only one, and each assignment that leaves gates of the bag only unjustified is one that some entry stands for
(`Explains`, `alongTree_entries`).

Leaves hold one gate, so they have no wires and justify nothing: what is said here of inner bags only is what
`Part.Fits` says of all bags (`Ready.fits_iff`).
-/

namespace Provenance.Compilation

open Provenance.Circuit Provenance.Decomposition

variable {α : Type} {k : Compilation α} {root b : Nat}

/-! ## Assignments below a bag -/

/-- The gate is in some bag below. -/
def Occurs (k : Compilation α) (b gate : Nat) : Prop := ∃ x, k.tree.Below x b ∧ gate ∈ k.tree.bag x

/-- The value of the gate is strong, and no child that is with it in an inner bag below justifies it. -/
def Unjustified (k : Compilation α) (b : Nat) (s : Nat → Bool) (gate : Nat) : Prop :=
  (k.source.kind gate).isStrong (s gate) = true ∧
    ∀ x, k.tree.Below x b → k.tree.children x ≠ [] → ¬ k.Justified s x gate

/-- Each input has its value in the world when the leaf responsible for it is below, and no strong child is at
odds with a parent that is with it in an inner bag below. -/
structure Tentative (k : Compilation α) (b : Nat) (world : World) (s : Nat → Bool) : Prop where
  inputs : ∀ input leaf : Nat, k.responsible[input]? = some leaf → k.tree.Below leaf b → s input = world input
  wires : ∀ x, k.tree.Below x b → k.tree.children x ≠ [] → k.Respected s x

/-- The assignment extends the values of the entry, and the gates that it leaves unjustified are those that the
entry suspects. -/
structure StandsFor (k : Compilation α) (b : Nat) (world : World) (e : Entry) (s : Nat → Bool) : Prop
    extends k.Tentative b world s where
  values : ∀ gate ∈ k.tree.bag b, e.valuation.value? gate = some (s gate)
  suspicious : ∀ gate, k.Occurs b gate → (k.Unjustified b s gate ↔ gate ∈ e.suspicious)

/-- The entries say all about the assignments below the bag, in a circuit that has their gates. -/
structure Explains [Scalar α] (k : Compilation α) (target : Circuit α) (b : Nat) (entries : List Entry) :
    Prop where
  gates : ∀ e ∈ entries, e.valuation.map Prod.fst = (k.tree.bag b).toList
  suspicious : ∀ e ∈ entries, ∀ gate ∈ e.suspicious, gate ∈ k.tree.bag b
  distinct : entries.Pairwise fun e e' => ¬ (e.valuation = e'.valuation ∧ e.suspicious = e'.suspicious)
  value : ∀ e ∈ entries, ∀ world world' : World,
    (∀ input, k.source.kind input = .input → world' (k.positive input) = world input) →
      ∃ value, target.evaluate e.gate world' = .ok value ∧ (value = true ↔ ∃ s, k.StandsFor b world e s)
  unique : ∀ e ∈ entries, ∀ world s s', k.StandsFor b world e s → k.StandsFor b world e s' →
    ∀ gate, k.Occurs b gate → s gate = s' gate
  complete : ∀ world s, k.Tentative b world s →
    (∀ gate, k.Occurs b gate → k.Unjustified b s gate → gate ∈ k.tree.bag b) →
      ∃ e ∈ entries, k.StandsFor b world e s

/-! ## Leaves have no wires -/

/-- No leaf of the tree is empty. -/
def Filled (k : Compilation α) : Prop := ∀ x, ¬ k.tree.EmptyLeaf x

section Leaves

variable (ready : k.Ready root) (filled : k.Filled) {s : Nat → Bool} {world : World} {e : Entry}

include ready filled

theorem Ready.not_wire_of_childless {x parent child : Nat} (childless : k.tree.children x = [])
    (left : parent ∈ k.tree.bag x) (right : child ∈ k.tree.bag x) : child ∉ k.source.children parent := by
  have inside := lt_of_mem_bag left
  have size : (k.tree.bag x).size = 1 := (ready.arranged.isFriendly filled).leaf x inside childless
  exact ready.not_wire_leaf (GateSet.eq_singleton_of_size left size) left right

theorem Ready.unjustified_iff {gate : Nat} :
    k.Unjustified b s gate ↔ (Part.below ready b).Doubtful s gate := by
  refine and_congr_right fun _ => forall₂_congr fun x _ => ⟨fun inner justified => ?_, fun all _ => all⟩
  refine inner (fun childless => ?_) justified
  obtain ⟨held, child, child_held, wire, _⟩ := justified
  exact ready.not_wire_of_childless filled childless held child_held wire

/-- An assignment fits what is below a bag when it is tentative and leaves gates of the bag only unjustified. -/
theorem Ready.fits_iff : (Part.below ready b).Fits world s ↔ k.Tentative b world s ∧
    ∀ gate, k.Occurs b gate → k.Unjustified b s gate → gate ∈ k.tree.bag b := by
  constructor
  · intro fits
    refine ⟨⟨fits.inputs, fun x lower _ => fits.wires x lower⟩, fun gate occurs unjustified => ?_⟩
    by_contra outside
    exact fits.settled gate occurs outside ((ready.unjustified_iff filled).1 unjustified)
  · rintro ⟨tentative, settled⟩
    refine ⟨tentative.inputs, fun x lower => ?_, fun gate occurs outside doubtful => ?_⟩
    · by_cases childless : k.tree.children x = []
      · exact fun gate held child child_held wire _ =>
          absurd wire (ready.not_wire_of_childless filled childless held child_held)
      · exact tentative.wires x lower childless
    · exact outside (settled gate occurs ((ready.unjustified_iff filled).2 doubtful))

/-- An entry stands for the assignments that it describes and that fit what is below the bag. -/
theorem Ready.standsFor_iff (proper : (Part.below ready b).Proper e) : k.StandsFor b world e s ↔
    (Part.below ready b).Fits world s ∧ (Part.below ready b).Describes s e := by
  rw [ready.fits_iff filled]
  constructor
  · intro stands
    refine ⟨⟨stands.toTentative, fun gate occurs unjustified => ?_⟩, ⟨fun gate => ?_, fun gate => ?_⟩⟩
    · exact proper.suspicious gate ((stands.suspicious gate occurs).1 unjustified)
    · split
      · rename_i member
        exact stands.values gate member
      · rename_i outside
        rw [Valuation.value?_eq_none_iff, proper.gates]
        exact outside
    · rw [← ready.unjustified_iff filled]
      constructor
      · intro member
        have held := proper.suspicious gate member
        exact ⟨held, (stands.suspicious gate ⟨b, .refl b, held⟩).2 member⟩
      · rintro ⟨held, unjustified⟩
        exact (stands.suspicious gate ⟨b, .refl b, held⟩).1 unjustified
  · rintro ⟨⟨tentative, settled⟩, describes⟩
    refine ⟨tentative, fun gate member => ?_, fun gate occurs => ?_⟩
    · rw [describes.values gate]
      exact if_pos member
    · rw [describes.suspicious gate, ← ready.unjustified_iff filled]
      exact ⟨fun unjustified => ⟨settled gate occurs unjustified, unjustified⟩, And.right⟩

omit filled in
/-- Only the inputs of the circuit matter in a world. -/
theorem Ready.tentative_congr {world' : World}
    (agree : ∀ input, k.source.kind input = .input → world' input = world input) :
    k.Tentative b world' s ↔ k.Tentative b world s := by
  have same : ∀ {input leaf : Nat}, k.responsible[input]? = some leaf → world' input = world input :=
    fun found => agree _ (ready.leaf _ _ found).1
  constructor
  · exact fun tentative => ⟨fun input leaf found lower =>
      (tentative.inputs input leaf found lower).trans (same found), tentative.wires⟩
  · exact fun tentative => ⟨fun input leaf found lower =>
      (tentative.inputs input leaf found lower).trans (same found).symm, tentative.wires⟩

/-- Entries that list what fits the part below a bag explain the bag. -/
theorem Ready.explains [Scalar α] {target : Circuit α} {entries : List Entry} (sound : target.Sound)
    (lists : k.Lists target (Part.below ready b) entries) : k.Explains target b entries where
  gates e member := (lists.means e member).proper.gates
  suspicious e member := (lists.means e member).proper.suspicious
  distinct := lists.distinct
  value e member world world' agree := by
    have means := lists.means e member
    refine ⟨_, (sound.isFormula means.inside).evaluate world', (means.value world').trans ?_⟩
    refine exists_congr fun s => ?_
    rw [← ready.standsFor_iff filled means.proper]
    have tentative : k.Tentative b (k.pull world') s ↔ k.Tentative b world s := ready.tentative_congr agree
    exact ⟨fun stands => ⟨tentative.1 stands.toTentative, stands.values, stands.suspicious⟩,
      fun stands => ⟨tentative.2 stands.toTentative, stands.values, stands.suspicious⟩⟩
  unique e member world s s' stands stands' := by
    have proper := (lists.means e member).proper
    have fits := ((ready.standsFor_iff filled proper).1 stands).1
    have fits' := ((ready.standsFor_iff filled proper).1 stands').1
    refine fits.unique ready fits' fun gate member => ?_
    exact Option.some.inj ((stands.values gate member).symm.trans (stands'.values gate member))
  complete world s tentative settled := by
    have fits := (ready.fits_iff filled).2 ⟨tentative, settled⟩
    obtain ⟨e, member, describes⟩ := lists.complete world s fits
    exact ⟨e, member, (ready.standsFor_iff filled (lists.means e member).proper).2 ⟨fits, describes⟩⟩

end Leaves

/-! ## The calls of a compilation -/

variable [Scalar α] {start target : Circuit α} {depth : Nat}

/-- The calls made for the entries of bags, from the one for the root on: the depth that is left, the bag, and the
circuit so far. -/
inductive Called (k : Compilation α) (start : Circuit α) : Nat → Nat → Circuit α → Prop where
  | root : Called k start (k.tree.size + 1) k.tree.root start
  | only {depth b child : Nat} {target : Circuit α} (call : Called k start (depth + 1) b target)
      (children : k.tree.children b = [child]) : Called k start depth child target
  | right {depth b left right : Nat} {target : Circuit α} (call : Called k start (depth + 1) b target)
      (children : k.tree.children b = [left, right]) : Called k start depth right target
  | left {depth b left right : Nat} {target middle : Circuit α} {second : List Entry}
      (call : Called k start (depth + 1) b target) (children : k.tree.children b = [left, right])
      (before : k.entries depth right target = .ok (second, middle)) : Called k start depth left middle

/-- The entries are those that some call for the bag comes to. -/
def Computes (k : Compilation α) (start : Circuit α) (b : Nat) (entries : List Entry) : Prop :=
  ∃ depth target target', k.Called start depth b target ∧ k.entries depth b target = .ok (entries, target')

/-- A call can be answered. -/
structure Answerable (k : Compilation α) (depth b : Nat) (target : Circuit α) : Prop where
  inside : b < k.tree.size
  deep : k.tree.weight b ≤ depth
  grown : k.Grown target

/-- The answer lists what fits the part below the bag, in a circuit that has grown. -/
structure Answers {root : Nat} (ready : k.Ready root) (target : Circuit α) (b : Nat) (entries : List Entry)
    (target' : Circuit α) : Prop where
  extends_ : target.Extends target'
  grown : k.Grown target'
  lists : k.Lists target' (Part.below ready b) entries

section Calls

variable (ready : k.Ready root) (filled : k.Filled)

include filled in
theorem Answerable.exists_answer (call : k.Answerable depth b target) :
    ∃ entries target', k.entries depth b target = .ok (entries, target') ∧
      Answers ready target b entries target' := by
  obtain ⟨entries, target', found, extends_, grown, lists⟩ :=
    ready.entries_spec depth call.inside call.deep call.grown
  have lists := (lists.resolve_right fun ⟨⟨leaf, empty, _⟩, _⟩ => filled leaf empty).2
  exact ⟨entries, target', found, extends_, grown, lists⟩

include filled in
theorem Answerable.answers (call : k.Answerable depth b target) {entries : List Entry} {target' : Circuit α}
    (found : k.entries depth b target = .ok (entries, target')) : Answers ready target b entries target' := by
  obtain ⟨_, _, found', answers⟩ := call.exists_answer ready filled
  obtain ⟨rfl, rfl⟩ := Prod.mk.inj (Except.ok.inj (found'.symm.trans found))
  exact answers

include ready

omit [Scalar α] in
theorem Answerable.child (call : k.Answerable (depth + 1) b target) {child : Nat}
    (member : child ∈ k.tree.children b) {middle : Circuit α} (grown : k.Grown middle) :
    k.Answerable depth child middle where
  inside := ready.arranged.tree.child_lt member
  deep := by
    have := ready.arranged.tree.weight_child_lt member
    have := call.deep
    omega
  grown := grown

include filled

theorem Called.answerable (grown : k.Grown start) (call : k.Called start depth b target) :
    k.Answerable depth b target := by
  induction call with
  | root =>
    exact ⟨ready.arranged.tree.root_lt, (IsTree.weight_le k.tree k.tree.root).trans (Nat.le_succ _), grown⟩
  | only _ children ih => exact ih.child ready (by simp [children]) ih.grown
  | right _ children ih => exact ih.child ready (by simp [children]) ih.grown
  | left _ children before ih =>
    have answers := (ih.child ready (by simp [children]) ih.grown).answers ready filled before
    exact ih.child ready (by simp [children]) answers.grown

/-- Every bag is called for. -/
theorem exists_called (grown : k.Grown start) (inside : b < k.tree.size) :
    ∃ depth target, k.Called start depth b target := by
  have tree := ready.arranged.tree
  induction tree.reachable inside with
  | refl => exact ⟨_, _, .root⟩
  | @tail b child path member ih =>
    obtain ⟨depth, target, call⟩ := ih (tree.lt_of_child member)
    have answerable := call.answerable ready filled grown
    have positive := IsTree.weight_pos answerable.inside
    obtain ⟨depth, rfl⟩ : ∃ less, depth = less + 1 := ⟨depth - 1, by have := answerable.deep; omega⟩
    match children : k.tree.children b with
    | [] =>
      rw [children] at member
      exact absurd member List.not_mem_nil
    | [only] =>
      rw [children, List.mem_singleton] at member
      exact ⟨depth, target, member ▸ .only call children⟩
    | [left, right] =>
      have answer := answerable.child ready (show right ∈ k.tree.children b by simp [children]) answerable.grown
      obtain ⟨second, middle, before, _⟩ := answer.exists_answer ready filled
      rw [children] at member
      rcases List.mem_cons.1 member with rfl | member
      · exact ⟨depth, middle, .left call children before⟩
      · exact ⟨depth, target, List.mem_singleton.1 member ▸ .right call children⟩
    | _ :: _ :: _ :: _ =>
      have arity := ready.arranged.arity b answerable.inside
      rw [children] at arity
      simp [arityLimit] at arity

omit ready filled in
theorem entries_of_only {child : Nat} (children : k.tree.children b = [child]) {below : List Entry}
    {middle : Circuit α} (found : k.entries depth child target = .ok (below, middle)) :
    k.entries (depth + 1) b target = .ok (k.merge b below [k.neutral] middle) := by
  simp only [entries, children, found, bind, Except.bind]

omit ready filled in
theorem entries_of_pair {left right : Nat} (children : k.tree.children b = [left, right])
    {first second : List Entry} {middle later : Circuit α}
    (found : k.entries depth right target = .ok (second, middle))
    (found' : k.entries depth left middle = .ok (first, later)) :
    k.entries (depth + 1) b target = .ok (k.merge b first second later) := by
  simp only [entries, children, found, found', bind, Except.bind]

omit filled in
/-- A merge adds to the circuit that its entries were made in. -/
theorem extends_merge {left right whole : Part k} {first second : List Entry} (joins : Joins b left right whole)
    (grown : k.Grown target) (lists : k.Lists target left first) (lists' : k.Lists target right second) :
    target.Extends (k.merge b first second target).2 := (lists_merge ready joins grown lists lists').1

/-- What a call has made is still there when the root is done. -/
theorem Called.extends (grown : k.Grown start) {last : Circuit α} {answer : List Entry}
    (done : k.entries (k.tree.size + 1) k.tree.root start = .ok (answer, last))
    (call : k.Called start depth b target) {entries : List Entry} {target' : Circuit α}
    (found : k.entries depth b target = .ok (entries, target')) : target'.Extends last := by
  induction call generalizing entries target' with
  | root =>
    obtain ⟨_, rfl⟩ := Prod.mk.inj (Except.ok.inj (found.symm.trans done))
    exact .refl _
  | only call children ih =>
    have above := call.answerable ready filled grown
    have below := (above.child ready (by simp [children]) above.grown).answers ready filled found
    have merged := extends_merge ready (ready.joins_one above.inside children) below.grown below.lists
      below.grown.lists_neutral
    exact merged.trans (ih (entries_of_only children found))
  | @right depth b left right target call children ih =>
    have above := call.answerable ready filled grown
    have second := (above.child ready (by simp [children]) above.grown).answers ready filled found
    obtain ⟨_, later, found', first⟩ := (above.child ready (show left ∈ k.tree.children b by simp [children])
      second.grown).exists_answer ready filled
    have merged := extends_merge ready (ready.joins_two above.inside children) first.grown first.lists
      (second.lists.of_extends second.grown.sound first.extends_ first.grown.sound)
    exact first.extends_.trans (merged.trans (ih (entries_of_pair children found found')))
  | left call children before ih =>
    have above := call.answerable ready filled grown
    have second := (above.child ready (by simp [children]) above.grown).answers ready filled before
    have first := (above.child ready (by simp [children]) second.grown).answers ready filled found
    have merged := extends_merge ready (ready.joins_two above.inside children) first.grown first.lists
      (second.lists.of_extends second.grown.sound first.extends_ first.grown.sound)
    exact merged.trans (ih (entries_of_pair children before found))

end Calls

/-! ## All bags of a run -/

/-- A compilation computes entries for every bag of the friendly tree, and in its result they explain the bag. -/
theorem alongTree_entries {c : Circuit α} {tree : Decomposition} (compilable : Compilable c root tree) :
    ∃ (k : Compilation α) (start : Circuit α) (d : DDnnf α),
      Compilation.start c root tree = .ok (k, start) ∧ DDnnf.alongTree c root tree = .ok d ∧
      k.source = c ∧ k.tree = tree.friendly root ∧ SameInputs c d.circuit k.positive ∧
      ∀ b < k.tree.size, (∃ entries, k.Computes start b entries) ∧
        ∀ entries, k.Computes start b entries → k.Explains d.circuit b entries := by
  obtain ⟨k, start, answer, middle, started, rfl, same, run, compiled⟩ := compilable.spanned.exists_run
  have filled : k.Filled := fun x => same ▸ compilable.not_emptyLeaf x
  have ready := run.ready
  refine ⟨k, start, _, started, compiled, rfl, same, run.inputs, fun b inside => ⟨?_, ?_⟩⟩
  · obtain ⟨depth, target, call⟩ := exists_called ready filled run.grown_start inside
    obtain ⟨entries, target', found, _⟩ :=
      (call.answerable ready filled run.grown_start).exists_answer ready filled
    exact ⟨entries, depth, target, target', call, found⟩
  · rintro entries ⟨depth, target, target', call, found⟩
    have answers := (call.answerable ready filled run.grown_start).answers ready filled found
    have later := (call.extends ready filled run.grown_start run.found found).trans
      (Extends.addNode run.grown.sound.inStep .or ((accepted root answer).map Entry.gate))
    exact ready.explains filled run.last.sound
      (answers.lists.of_extends answers.grown.sound later run.last.sound)

theorem alongTree_entries_conjunction :
    Compilable conjunction 2 (ofParents [GateSet.ofList [0, 1, 2]] [0] 0 2) ∧
      ∃ (k : Compilation Rat) (start : Circuit Rat) (d : DDnnf Rat), k.source = conjunction ∧
        k.tree = (ofParents [GateSet.ofList [0, 1, 2]] [0] 0 2).friendly 2 ∧
        ∀ b < k.tree.size, ∃ entries, k.Computes start b entries ∧ k.Explains d.circuit b entries := by
  obtain ⟨k, start, d, _, _, source, tree, _, each⟩ := alongTree_entries compilable_conjunction
  refine ⟨compilable_conjunction, k, start, d, source, tree, fun b inside => ?_⟩
  obtain ⟨⟨entries, computes⟩, explains⟩ := each b inside
  exact ⟨entries, computes, explains entries computes⟩

end Provenance.Compilation
