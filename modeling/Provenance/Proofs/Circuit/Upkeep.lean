import Provenance.Proofs.Circuit.Categorical
import Provenance.Proofs.Circuit.Define
import Provenance.Proofs.Network.Names

/-!
# Circuits under construction

A circuit is made from the empty one by single changes (`Edit`, `edited`): gates and wires are added, names
looked up and given to new gates, kinds, probabilities and keys set, records taken or refused, and alternatives
expanded.  Each of them keeps the tables in step and the names to gates of the tables (`Regular`).  A change
that names nothing need only keep the tables in step (`Regular.keep`); a gate that is looked up by its name is
there because names are kept (`fst_intern_lt`), so its kind can be set.

Main statement: however a circuit was made, its lists of inputs and of alternatives hold the gates of these
kinds and there is one probability for each gate (`Regular.edited`, `InStep.listed`).
-/

namespace Provenance.Circuit

open Provenance.Network

variable {α : Type} {c c' : Circuit α} {gate : Nat}

/-- The lists of a circuit hold the gates of their kinds, and there is one probability for each gate. -/
structure Listed (c : Circuit α) : Prop where
  inputs : ∀ gate, gate ∈ c.inputs ↔ gate < c.size ∧ c.kind gate = .input
  alternatives : ∀ gate, gate ∈ c.alternatives ↔ gate < c.size ∧ c.kind gate = .alternative
  probs : c.probs.size = c.size

theorem InStep.listed (inStep : c.InStep) : c.Listed where
  inputs gate := (inStep.inputs gate).trans (iff_and_self.2 lt_of_input)
  alternatives gate := (inStep.alternatives gate).trans (iff_and_self.2 lt_of_alternative)
  probs := inStep.probs

/-- Tables in step with names of gates. -/
structure Regular (c : Circuit α) : Prop where
  inStep : c.InStep
  registered : c.toNetwork.Registered

theorem regular_empty : (empty : Circuit α).Regular := ⟨inStep_empty, registered_empty⟩

/-! ## Changes of one gate -/

namespace Regular

variable (regular : c.Regular)

include regular

/-- Names stay good for as long as there are no fewer gates. -/
theorem keep (inStep : c'.InStep) (naming : c'.naming = c.naming) (size_le : c.size ≤ c'.size) : c'.Regular where
  inStep := inStep
  registered :=
    { paired := inStep.naming
      named := fun name gate found => by
        have found : c'.naming.owner? name = some gate := found
        rw [naming] at found
        exact (regular.registered.named name gate found).trans_le size_le }

theorem setKind (kind : Kind) (small : gate < c.size) : (c.setKind gate kind).Regular :=
  regular.keep (regular.inStep.setKind kind small) rfl (size_setKind ..).ge

theorem setChildren (gate : Nat) (children : List Nat) : (c.setChildren gate children).Regular :=
  regular.keep (regular.inStep.setChildren children) rfl le_rfl

theorem addWire (gate child : Nat) : (c.addWire gate child).Regular :=
  regular.keep (regular.inStep.addWire child) rfl le_rfl

theorem setProb (gate : Nat) (p : α) : (c.setProb gate p).Regular :=
  regular.keep (regular.inStep.setProb p) rfl le_rfl

theorem setKey (gate key : Nat) : (c.setKey gate key).Regular :=
  regular.keep (regular.inStep.setKey key) rfl le_rfl

theorem setName (small : gate < c.size) (name : String) : (c.setName gate name).Regular :=
  ⟨regular.inStep.setName name, regular.registered.setName small name⟩

theorem dropName (gate : Nat) : (c.dropName gate).Regular :=
  ⟨regular.inStep.dropName, regular.registered.dropName gate⟩

/-! ## New gates -/

variable [Scalar α]

theorem addGate (kind : Kind) : (c.addGate kind).2.Regular :=
  regular.keep (regular.inStep.addGate kind) rfl ((Nat.le_succ _).trans (size_addGate c kind).ge)

theorem addInput (p : α) : (c.addInput p).2.Regular := (regular.addGate .input).setProb c.size p

theorem addNode (kind : Kind) (children : List Nat) : (c.addNode kind children).2.Regular :=
  regular.keep (InStep.addNode c kind children regular.inStep) (naming_addNode c kind children)
    ((Nat.le_succ _).trans (size_addNode c kind children).ge)

/-! ## Gates by name -/

theorem intern (name : String) : (c.intern name).2.Regular := by
  refine intern_induction c name regular ((regular.addGate .undetermined).setName ?_ name)
  rw [size_addGate]
  exact Nat.lt_succ_self _

theorem define (name : String) (kind : Kind) : (c.define name kind).2.Regular :=
  (regular.intern name).setKind kind (fst_intern_lt name regular.registered.named)

theorem defineInput (name : String) (p : α) : (c.defineInput name p).2.Regular :=
  (regular.define name .input).setProb _ p

theorem defineAlternative (name : String) (p : α) (key : Nat) : (c.defineAlternative name p key).2.Regular :=
  ((regular.define name .alternative).setProb _ p).setKey _ key

theorem addNamedWires (gate : Nat) (names : List String) : (c.addNamedWires gate names).Regular :=
  addNamedWires_induction c gate names regular fun _ name regular => (regular.intern name).addWire gate _

/-- A record is taken, refused as it stands, or refused once its gate has got its kind. -/
theorem ingest (record : Record) : (c.ingest record).2.Regular := by
  unfold Circuit.ingest
  cases record.check c with
  | error _ => exact regular
  | ok _ =>
    have defined := regular.define record.id record.kind
    dsimp only
    cases record.weight (α := α) with
    | error _ => exact defined
    | ok label =>
      obtain ⟨p, key⟩ := label
      cases p with
      | none =>
        cases key with
        | none => exact defined.addNamedWires _ _
        | some key => exact (defined.setKey _ key).addNamedWires _ _
      | some p =>
        cases key with
        | none => exact (defined.setProb _ p).addNamedWires _ _
        | some key => exact ((defined.setProb _ p).setKey _ key).addNamedWires _ _

end Regular

/-! ## The expansion of alternatives -/

section Expansion

variable [Scalar α] (c)

/-- The expansion of a key gives no names. -/
theorem naming_expandGroup (group : List Nat) : (c.expandGroup group).naming = c.naming := by
  have front : ∀ total, (c.withFront total).2.naming = c.naming := fun total => by
    unfold withFront
    split
    · rfl
    · rfl
  have leaves : ∀ (gates : List Nat) (c' : Circuit α), (gates.foldl toConjunction c').naming = c'.naming := by
    intro gates
    induction gates with
    | nil => exact fun _ => rfl
    | cons gate gates ih => exact fun c' => ih (c'.toConjunction gate)
  rw [expandGroup_eq, leaves]
  refine decisionTree_induction (motive := fun c' => c'.naming = c.naming) (fun c' first last _ _ kept => ?_)
    (fun _ _ _ kept => kept) (Nat.lt_succ_self _) _ (front _)
  rw [addChoice, naming_addNode]
  exact kept

theorem naming_expandAlternatives : c.expandAlternatives.naming = c.naming := by
  unfold expandAlternatives
  generalize c.keyGroups = groups
  induction groups generalizing c with
  | nil => rfl
  | cons group groups ih => rw [List.foldl_cons, ih, naming_expandGroup]

variable {c}

theorem Regular.expandAlternatives (regular : c.Regular) : c.expandAlternatives.Regular := by
  obtain ⟨_, expanded, _⟩ := expanded_expandAlternatives regular.inStep
  exact regular.keep expanded.inStep (naming_expandAlternatives c) expanded.size_le

end Expansion

/-! ## Changes one after the other -/

/-- A change of a circuit. -/
inductive Edit (α : Type) where
  | addGate (kind : Kind)
  /-- A name is looked up, which may be new. -/
  | intern (name : String)
  /-- A name is looked up, and its gate gets a kind. -/
  | define (name : String) (kind : Kind)
  | setKind (gate : Nat) (kind : Kind)
  | defineInput (name : String) (p : α)
  | addInput (p : α)
  | defineAlternative (name : String) (p : α) (key : Nat)
  | setProb (gate : Nat) (p : α)
  | setKey (gate key : Nat)
  | addWire (gate child : Nat)
  /-- A record is taken or refused. -/
  | ingest (record : Record)
  | expandAlternatives

/-- Only a gate that is there can be given a kind. -/
def Edit.Allowed (c : Circuit α) : Edit α → Prop
  | .setKind gate _ => gate < c.size
  | .addGate _ | .intern _ | .define _ _ | .defineInput _ _ | .addInput _ | .defineAlternative _ _ _
  | .setProb _ _ | .setKey _ _ | .addWire _ _ | .ingest _ | .expandAlternatives => True

variable [Scalar α]

/-- The circuit after a change. -/
def Edit.apply (c : Circuit α) : Edit α → Circuit α
  | .addGate kind => (c.addGate kind).2
  | .intern name => (c.intern name).2
  | .define name kind => (c.define name kind).2
  | .setKind gate kind => c.setKind gate kind
  | .defineInput name p => (c.defineInput name p).2
  | .addInput p => (c.addInput p).2
  | .defineAlternative name p key => (c.defineAlternative name p key).2
  | .setProb gate p => c.setProb gate p
  | .setKey gate key => c.setKey gate key
  | .addWire gate child => c.addWire gate child
  | .ingest record => (c.ingest record).2
  | .expandAlternatives => c.expandAlternatives

/-- The circuit after some changes. -/
def edited (c : Circuit α) (edits : List (Edit α)) : Circuit α := edits.foldl Edit.apply c

/-- Whether each change is allowed when its turn comes. -/
def Editable (c : Circuit α) (edits : List (Edit α)) : Prop := Permitted Edit.apply Edit.Allowed c edits

namespace Regular

theorem apply (regular : c.Regular) {edit : Edit α} (allowed : edit.Allowed c) : (edit.apply c).Regular := by
  cases edit with
  | addGate kind => exact regular.addGate kind
  | intern name => exact regular.intern name
  | define name kind => exact regular.define name kind
  | setKind gate kind => exact regular.setKind kind allowed
  | defineInput name p => exact regular.defineInput name p
  | addInput p => exact regular.addInput p
  | defineAlternative name p key => exact regular.defineAlternative name p key
  | setProb gate p => exact regular.setProb gate p
  | setKey gate key => exact regular.setKey gate key
  | addWire gate child => exact regular.addWire gate child
  | ingest record => exact regular.ingest record
  | expandAlternatives => exact regular.expandAlternatives

theorem edited (regular : c.Regular) {edits : List (Edit α)} (allowed : c.Editable edits) :
    (c.edited edits).Regular :=
  Permitted.foldl (fun _ _ regular => regular.apply) allowed regular

end Regular

end Provenance.Circuit
