import Provenance.DDnnf.Compiled
import Provenance.Decomposition.Compile
import Provenance.Proofs.Circuit.Upkeep
import Provenance.Proofs.Circuit.Variable
import Provenance.Proofs.DDnnf.Session

/-!
# d-DNNFs under construction

A d-DNNF wraps a circuit that was made by single changes, is compiled along a tree decomposition, or is read of
a compiled formula; then it is used, and a gate of it may become the root of another one (`Made`).  Some uses
add gates, some change kinds in place, and simplification builds the circuit anew.  All of them keep the tables
in step and the names to gates of the tables (`Circuit.Regular`), whatever the gates, the wires, the tree or the
formula are: a kind is changed for a gate that has one, so the gate is in the tables.

Main statement: whatever was done before, the lists of inputs and of alternatives hold the gates of these kinds
and there is one probability for each gate (`listed_of_edited_and_run`).
-/

namespace Provenance

open Circuit Network

variable {α : Type} [Scalar α]

namespace Circuit

variable {c target : Circuit α}

/-- A copy of an input has its name. -/
theorem Regular.addVariable (regular : target.Regular) (c : Circuit α) (input : Nat) :
    (addVariable c target input).Regular := by
  have added := regular.addInput (c.prob input)
  unfold Circuit.addVariable
  cases c.name? input with
  | none => exact added
  | some name =>
    refine added.setName ?_ name
    rw [size_addInput]
    exact Nat.lt_succ_self _

omit [Scalar α] in
theorem Regular.addWires (regular : c.Regular) (gate : Nat) (children : List Nat) :
    (c.addWires gate children).Regular :=
  regular.keep (regular.inStep.addWires gate children) (naming_addWires c gate children)
    (size_addWires c gate children).ge

theorem Regular.addLabelled (regular : c.Regular) (kind : Kind) (p : α) (key : Option Nat) (name : Option String)
    (children : List Nat) : (c.addLabelled kind p key name children).Regular := by
  have proved : ((c.addGate kind).2.setProb c.size p).Regular := (regular.addGate kind).setProb c.size p
  have small : c.size < ((c.addGate kind).2.setProb c.size p).size := by
    rw [size_setProb, size_addGate]
    exact Nat.lt_succ_self _
  cases key with
  | none =>
    cases name with
    | none => exact proved.addWires c.size children
    | some name => exact (proved.setName small name).addWires c.size children
  | some key =>
    cases name with
    | none => exact (proved.setKey c.size key).addWires c.size children
    | some name => exact ((proved.setKey c.size key).setName small name).addWires c.size children

end Circuit

/-! ## Compilation along a decomposition -/

namespace Compilation

variable {k : Compilation α} {target target' : Circuit α}

theorem regular_conjoin (regular : target.Regular) (left right : Nat) :
    (k.conjoin target left right).2.Regular := by
  unfold conjoin
  split
  · exact regular
  · exact regular
  · exact regular.addNode .and _

theorem regular_collect {state : Collected α} (regular : state.target.Regular) (wires : BagWires)
    (left right : Entry) : (k.collect wires left state right).target.Regular := by
  unfold collect
  split
  · exact regular
  · exact regular_conjoin regular left.gate right.gate

theorem regular_close (regular : target.Regular) (group : Entry × List Nat) :
    (close group target).2.Regular := by
  unfold close
  split
  · exact regular
  · exact regular.addNode .or _

theorem regular_closeAll (regular : target.Regular) (groups : List (Entry × List Nat)) :
    (closeAll groups target).2.Regular := by
  induction groups generalizing target with
  | nil => exact regular
  | cons group groups ih => exact ih (regular_close regular group)

theorem regular_merge (regular : target.Regular) (b : Nat) (left right : List Entry) :
    (k.merge b left right target).2.Regular := by
  refine regular_closeAll ?_ _
  -- the rows of the pairs are collected one after the other, and in each row its pairs
  refine List.foldlRecOn (motive := fun state : Collected α => state.target.Regular) _ _ regular
    fun state regular e _ => ?_
  exact List.foldlRecOn (motive := fun state : Collected α => state.target.Regular) _ _ regular
    fun state regular e' _ => regular_collect regular _ e e'

theorem regular_entries {depth b : Nat} {entries : List Entry} (regular : target.Regular)
    (made : k.entries depth b target = .ok (entries, target')) : target'.Regular := by
  induction depth generalizing b target target' entries with
  | zero => exact absurd made Outcome.fail_eq_ok.1
  | succ depth ih =>
    unfold Compilation.entries at made
    -- a leaf adds nothing, and a bag with one child or two merges what they made
    split at made
    · obtain ⟨_, _, same⟩ := Outcome.map_eq_ok.1 made
      cases same
      exact regular
    · obtain ⟨⟨below, middle⟩, first, same⟩ := Outcome.bind_eq_ok.1 made
      have merged := regular_merge (k := k) (ih regular first) b below [k.neutral]
      rwa [Except.ok.inj same] at merged
    · obtain ⟨⟨second, middle⟩, later, made⟩ := Outcome.bind_eq_ok.1 made
      obtain ⟨⟨first, last⟩, earlier, same⟩ := Outcome.bind_eq_ok.1 made
      have merged := regular_merge (k := k) (ih (ih regular later) earlier) b first second
      rwa [Except.ok.inj same] at merged
    · exact absurd made Outcome.fail_eq_ok.1

theorem regular_addLiterals {c : Circuit α} {responsible : Std.TreeMap Nat Nat} {inputs : List Nat}
    {literals literals' : Std.TreeMap Nat (Nat × Nat)} (regular : target.Regular)
    (made : addLiterals c responsible inputs literals target = .ok (literals', target')) : target'.Regular := by
  induction inputs generalizing literals target with
  | nil =>
    cases made
    exact regular
  | cons input inputs ih =>
    unfold addLiterals at made
    obtain ⟨_, _, made⟩ := Outcome.bind_eq_ok.1 made
    exact ih ((regular.addVariable c input).addNode .not [target.size]) made

theorem regular_start {c : Circuit α} {root : Nat} {tree : Decomposition}
    (made : Compilation.start c root tree = .ok (k, target)) : target.Regular := by
  unfold Compilation.start at made
  obtain ⟨_, _, made⟩ := Outcome.bind_eq_ok.1 made
  obtain ⟨⟨literals, middle⟩, spelled, same⟩ := Outcome.bind_eq_ok.1 made
  have constant := (regular_addLiterals regular_empty spelled).addGate .and
  cases same
  exact constant

end Compilation

/-! ## Compiled formulas -/

namespace Projection

variable {p p' : Projection α} {source : Circuit α} {gate made : Nat}

theorem regular_input (regular : p.target.Regular) (source : Circuit α) (gate : Nat) :
    (p.input source gate).2.target.Regular := by
  unfold Projection.input
  split
  · exact regular
  · exact regular.addVariable source gate

theorem regular_negation (regular : p.target.Regular) (source : Circuit α) (gate : Nat) :
    (p.negation source gate).2.target.Regular := by
  have positive := regular_input regular source gate
  unfold Projection.negation
  dsimp only
  split
  · exact positive
  · exact positive.addNode .not _

theorem regular_constant (regular : p.target.Regular) : p.constant.2.target.Regular := by
  unfold Projection.constant
  split
  · exact regular
  · exact regular.addGate .and

theorem regular_literal {l : Literal} (regular : p.target.Regular)
    (taken : p.literal source l = .ok (made, p')) : p'.target.Regular := by
  unfold Projection.literal at taken
  obtain ⟨_, _, same⟩ := Outcome.bind_eq_ok.1 taken
  split at same
  · split at same
    · have positive := regular_input regular source l.index
      rwa [Except.ok.inj same] at positive
    · have negative := regular_negation regular source l.index
      rwa [Except.ok.inj same] at negative
  · have constant := regular_constant regular
    rwa [Except.ok.inj same] at constant

theorem regular_connective {kind : Kind} {children : List Nat} (regular : p.target.Regular)
    (taken : p.connective kind children = .ok (made, p')) : p'.target.Regular := by
  unfold Projection.connective at taken
  obtain ⟨gates, _, same⟩ := Outcome.bind_eq_ok.1 taken
  have connected := regular.addNode kind gates
  cases same
  exact connected

omit [Scalar α] in
/-- The gate of a node is entered in a table beside the circuit. -/
theorem regular_push {x : Outcome (Nat × Projection α)}
    (regular : ∀ made p, x = .ok (made, p) → p.target.Regular)
    (taken : (do let (made, p) ← x; .ok { p with gates := p.gates.push made }) = .ok p') : p'.target.Regular := by
  obtain ⟨⟨made, p⟩, first, same⟩ := Outcome.bind_eq_ok.1 taken
  have regular := regular made p first
  cases same
  exact regular

theorem regular_addNode {node : NnfNode} (regular : p.target.Regular) (taken : p.addNode source node = .ok p') :
    p'.target.Regular := by
  unfold Projection.addNode at taken
  cases node with
  | literal l => exact regular_push (fun _ _ => regular_literal regular) taken
  | and children => exact regular_push (fun _ _ => regular_connective regular) taken
  | or _ children => exact regular_push (fun _ _ => regular_connective regular) taken

end Projection

namespace DDnnf

variable {d d' : DDnnf α} {c : Circuit α} {root : Nat}

theorem regular_falsum : (falsum : DDnnf α).circuit.Regular := regular_empty.addGate .or

theorem regular_alongTree {tree : Decomposition} (made : alongTree c root tree = .ok d) : d.circuit.Regular := by
  unfold alongTree at made
  obtain ⟨⟨k, start⟩, started, made⟩ := Outcome.bind_eq_ok.1 made
  obtain ⟨⟨entries, middle⟩, found, same⟩ := Outcome.bind_eq_ok.1 made
  have regular := Compilation.regular_entries (Compilation.regular_start started) found
  cases same
  exact regular.addNode .or _

theorem regular_ofReading {source : Circuit α} {reading : NnfReading}
    (made : ofReading source reading = .ok d) : d.circuit.Regular := by
  unfold ofReading at made
  obtain ⟨_, _, made⟩ := Outcome.bind_eq_ok.1 made
  obtain ⟨p, taken, made⟩ := Outcome.bind_eq_ok.1 made
  obtain ⟨_, _, made⟩ := Outcome.bind_eq_ok.1 made
  obtain ⟨_, _, same⟩ := Outcome.bind_eq_ok.1 made
  have regular := Outcome.foldlM_invariant (motive := fun p : Projection α => p.target.Regular)
    (fun _ _ _ => Projection.regular_addNode) regular_empty taken
  cases same
  exact regular

theorem regular_ofCompiled {source : Circuit α} {text : String} (made : ofCompiled source text = .ok d) :
    d.circuit.Regular := by
  unfold ofCompiled at made
  split at made
  · cases made
    exact regular_falsum
  · rw [Outcome.mapError_eq_ok] at made
    obtain ⟨reading, _, made⟩ := Outcome.bind_eq_ok.1 made
    exact regular_ofReading made

/-! ## Smoothing -/

namespace Smoothing

variable {s : Smoothing α}

theorem regular_tautology (regular : s.circuit.Regular) (input : Nat) :
    (s.tautology input).2.circuit.Regular := by
  unfold tautology
  split
  · exact regular
  · exact (regular.addNode .not [input]).addNode .or _

theorem regular_addTautologies (regular : s.circuit.Regular) (gate : Nat) (missing : List Nat) :
    (s.addTautologies gate missing).circuit.Regular := by
  induction missing generalizing s with
  | nil => exact regular
  | cons input missing ih => exact ih ((regular_tautology regular input).addWire gate _)

theorem regular_pad (regular : s.circuit.Regular) (child : Nat) (missing : List Nat) :
    (s.pad child missing).2.circuit.Regular := by
  unfold pad
  split
  · exact regular
  · exact regular_addTautologies (s := { s with circuit := (s.circuit.addNode .and [child]).2 })
      (regular.addNode .and [child]) _ missing

theorem regular_padAll (regular : s.circuit.Regular) (reads : Std.TreeMap Nat GateSet) (all : GateSet)
    (children : List Nat) : (s.padAll reads all children).2.circuit.Regular := by
  induction children generalizing s with
  | nil => exact regular
  | cons child children ih => exact ih (regular_pad regular child _)

theorem regular_smoothGate (regular : s.circuit.Regular) (reads : Std.TreeMap Nat GateSet) (gate : Nat) :
    (s.smoothGate reads gate).circuit.Regular := by
  unfold smoothGate
  split
  · exact (regular_padAll regular reads _ _).setChildren gate _
  · exact regular

end Smoothing

/-! ## Binary gates -/

theorem regular_pairUp (kind : Kind) (regular : c.Regular) (children : List Nat) :
    (pairUp kind children c).2.Regular := by
  fun_induction pairUp kind children c with
  | case1 left right rest c new c' added others c'' paired ih =>
    rw [paired] at ih
    refine ih ?_
    have node := regular.addNode kind [left, right]
    rwa [added] at node
  | case2 few c short => exact regular

theorem regular_pairDown (kind : Kind) (rounds : Nat) (regular : c.Regular) (children : List Nat) :
    (pairDown kind rounds children c).2.Regular := by
  induction rounds generalizing children c with
  | zero => exact regular
  | succ rounds ih =>
    unfold pairDown
    split
    · exact regular
    · exact ih (regular_pairUp kind regular children) _

theorem regular_binaryGate (kind : Kind) (regular : c.Regular) (gate : Nat) :
    (binaryGate kind c gate).Regular := by
  unfold binaryGate
  split
  · exact (regular_pairDown kind _ regular _).setChildren gate _
  · exact regular

/-! ## Uses -/

section Uses

variable (regular : d.circuit.Regular)

include regular

theorem regular_condition {gate : Nat} (small : gate < d.circuit.size) (value : Bool) :
    (d.condition gate value).circuit.Regular :=
  ((regular.setKind _ small).setChildren gate []).dropName gate

theorem regular_smooth : d.smooth.circuit.Regular :=
  List.foldlRecOn (motive := fun s : Smoothing α => s.circuit.Regular) _ _ regular
    fun _ regular gate _ => Smoothing.regular_smoothGate regular _ gate

theorem regular_binary {kind : Kind} (made : d.binary kind = .ok d') : d'.circuit.Regular := by
  unfold DDnnf.binary at made
  split at made
  · cases made
    exact List.foldlRecOn _ _ regular fun c regular gate _ => regular_binaryGate kind regular gate
  · exact absurd made Outcome.fail_eq_ok.1

end Uses

/-- Simplification ends with a copy of what the root reaches, which has tables of its own. -/
theorem regular_simplify (d : DDnnf α) : d.simplify.circuit.Regular := by
  unfold simplify
  rw [extract_eq]
  refine List.foldlRecOn (motive := fun state : Circuit α × Std.TreeMap Nat Nat => state.1.Regular) _ _
    (b := (empty, ∅)) regular_empty fun state regular gate _ => ?_
  rw [copyGate_eq]
  exact regular.addLabelled _ _ _ _ _

/-! ## Sessions -/

/-- A change by hand is a sequence of single changes, and the gate of a condition is there. -/
def Use.Regular (d : DDnnf α) : Use α → Prop
  | .change f => ∃ edits, d.circuit.Editable edits ∧ f d.circuit = d.circuit.edited edits
  | .condition gate _ _ => gate < d.circuit.size
  | .probability _ | .smooth | .binary _ | .simplify | .copy _ => True

/-- Whether each use is regular when its turn comes. -/
def Usable (d : DDnnf α) (uses : List (Use α)) : Prop := Permitted Use.step Use.Regular d uses

theorem regular_step (regular : d.circuit.Regular) {use : Use α} (allowed : use.Regular d) :
    (use.step d).circuit.Regular := by
  cases use with
  | probability gate =>
    show (d.probabilityOf gate).2.circuit.Regular
    rw [(frame_probabilityOf d gate).1]
    exact regular
  | change f =>
    obtain ⟨edits, editable, same⟩ := allowed
    show (f d.circuit).Regular
    rw [same]
    exact regular.edited editable
  | smooth => exact regular_smooth regular
  | binary kind =>
    simp only [Use.step]
    split
    · rename_i made
      exact regular_binary regular made
    · exact regular
  | simplify => exact regular_simplify d
  | copy copied =>
    cases copied with
    | true => exact regular
    | false => exact regular
  | condition gate value copied =>
    cases copied with
    | true => exact regular_condition regular allowed value
    | false => exact regular

theorem regular_run (regular : d.circuit.Regular) {uses : List (Use α)} (allowed : Usable d uses) :
    (run d uses).circuit.Regular :=
  Permitted.foldl (motive := fun d => d.circuit.Regular) (fun _ _ regular => regular_step regular) allowed regular

/-- How a d-DNNF comes about. -/
inductive Made : DDnnf α → Prop
  /-- A circuit that was made from the empty one gets a root. -/
  | wrapped {edits : List (Circuit.Edit α)} (editable : (empty : Circuit α).Editable edits) (root : Nat) :
    Made (ofCircuit (empty.edited edits) root)
  | alongTree {c : Circuit α} {root : Nat} {tree : Decomposition} {d : DDnnf α}
    (compiled : DDnnf.alongTree c root tree = .ok d) : Made d
  | ofCompiled {source : Circuit α} {text : String} {d : DDnnf α} (read : DDnnf.ofCompiled source text = .ok d) :
    Made d
  /-- A d-DNNF is used. -/
  | used {d : DDnnf α} (made : Made d) {use : Use α} (allowed : use.Regular d) : Made (use.step d)
  /-- Another gate becomes the root. -/
  | rerooted {d : DDnnf α} (made : Made d) (root : Nat) : Made (ofCircuit d.circuit root)

theorem Made.regular (made : Made d) : d.circuit.Regular := by
  induction made with
  | wrapped editable root => exact regular_empty.edited editable
  | alongTree compiled => exact regular_alongTree compiled
  | ofCompiled read => exact regular_ofCompiled read
  | used _ allowed regular => exact regular_step regular allowed
  | rerooted _ root regular => exact regular

/-- However a circuit was made, its lists of inputs and of alternatives hold the gates of these kinds and there is
one probability for each gate; and so it is in a d-DNNF, however it came about and whatever was done with it. -/
theorem listed_of_edited_and_run :
    (∀ edits : List (Circuit.Edit α), (empty : Circuit α).Editable edits → (empty.edited edits).Listed) ∧
    ∀ d : DDnnf α, Made d → ∀ uses, Usable d uses → (run d uses).circuit.Listed :=
  ⟨fun _ editable => (regular_empty.edited editable).inStep.listed,
    fun _ made _ usable => (regular_run made.regular usable).inStep.listed⟩

/-- Two alternatives of one key, an input whose first record is refused once it has its kind, and a disjunction;
then the alternatives are expanded. -/
def assembled : List (Circuit.Edit Rat) :=
  [.defineAlternative "a" (1 / 3) 7, .defineAlternative "b" (1 / 2) 7,
    .ingest ⟨"y", .input, [], some (.ofNat 2), none⟩, .setKind 2 .undetermined,
    .ingest ⟨"y", .input, [], none, none⟩, .ingest ⟨"r", .or, ["a", "y"], none, none⟩, .expandAlternatives]

theorem editable_assembled : (empty : Circuit Rat).Editable assembled := by
  refine ⟨trivial, trivial, trivial, ?_, trivial, trivial, trivial, trivial⟩
  show _ < Network.size _
  decide +kernel

/-- The input is made true in a smooth copy, whose conjunctions become binary before it is simplified. -/
def treated : List (Use Rat) := [.smooth, .condition 2 true true, .binary .and, .simplify]

theorem usable_treated : Usable (ofCircuit (empty.edited assembled) 3) treated := by
  refine ⟨trivial, ?_, trivial, trivial, trivial⟩
  show _ < Network.size _
  decide +kernel

/-- The inputs of the expansion and the one of a record are listed, and after the uses the former alone. -/
theorem listed_of_edited_and_run_assembled :
    (empty : Circuit Rat).Editable assembled ∧ (empty.edited assembled).inputs.toList = [2, 4, 5] ∧
    (empty.edited assembled).Listed ∧ Made (ofCircuit (empty.edited assembled) 3) ∧
    Usable (ofCircuit (empty.edited assembled) 3) treated ∧
    (run (ofCircuit (empty.edited assembled) 3) treated).circuit.inputs.toList = [0, 1] ∧
    (run (ofCircuit (empty.edited assembled) 3) treated).circuit.Listed := by
  have made : Made (ofCircuit (empty.edited assembled) 3) := .wrapped editable_assembled 3
  exact ⟨editable_assembled, by decide +kernel, listed_of_edited_and_run.1 assembled editable_assembled, made,
    usable_treated, by decide +kernel, listed_of_edited_and_run.2 _ made treated usable_treated⟩

end DDnnf

end Provenance
