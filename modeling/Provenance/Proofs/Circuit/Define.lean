import Provenance.Proofs.Circuit.InStep
import Provenance.Record.Basic

/-!
# Gates by name

A circuit under construction has tables in step, and its wires and its names are those of gates in the
tables (`Tables`).  Looking up a name adds at most an undetermined gate at the end, which changes no kind, no
child, no probability and no key (`intern_induction`, `kind_intern`, `children_intern`, `prob_intern`,
`key?_intern`); a definition changes the kind of one gate (`kind_define`).
-/

namespace Provenance.Circuit

open Provenance.Network

variable {α : Type} {c : Circuit α}

/-- Tables in step with wires between gates and names of gates. -/
structure Tables (c : Circuit α) : Prop where
  inStep : c.InStep
  within : ∀ gate, ∀ child ∈ c.children gate, child < c.size
  named : ∀ name gate, c.find? name = some gate → gate < c.size

theorem tables_empty : (empty : Circuit α).Tables where
  inStep := inStep_empty
  within gate child wire := absurd wire (notMem_children_empty gate child)
  named name gate found := by
    have none_ : (empty : Circuit α).find? name = none := by
      show (∅ : Std.TreeMap String Nat)[name]? = none
      simp
    rw [none_] at found
    cases found

namespace Tables

variable (tables : c.Tables)

include tables

theorem setProb (gate : Nat) (p : α) : (c.setProb gate p).Tables :=
  ⟨tables.inStep.setProb p, tables.within, tables.named⟩

theorem setKey (gate key : Nat) : (c.setKey gate key).Tables :=
  ⟨tables.inStep.setKey key, tables.within, tables.named⟩

theorem setKind {gate : Nat} (small : gate < c.size) (kind : Kind) : (c.setKind gate kind).Tables where
  inStep := tables.inStep.setKind kind small
  within other child wire := by
    rw [size_setKind]
    exact tables.within other child wire
  named name other found := by
    rw [size_setKind]
    exact tables.named name other found

/-- A wire between gates. -/
theorem addWire {gate child : Nat} (small : gate < c.size) (small' : child < c.size) :
    (c.addWire gate child).Tables where
  inStep := tables.inStep.addWire child
  within other target wire := by
    rw [children_addWire _ _ _ _ (tables.inStep.wires ▸ small)] at wire
    split at wire
    · rcases List.mem_append.1 wire with wire | wire
      · exact tables.within gate target wire
      · exact List.mem_singleton.1 wire ▸ small'
    · exact tables.within other target wire
  named := tables.named

/-- A gate has one name. -/
theorem eq_of_find? {name other : String} {gate : Nat} (found : c.find? name = some gate)
    (found' : c.find? other = some gate) : name = other :=
  Option.some.inj (((tables.inStep.naming name gate).1 found).symm.trans
    ((tables.inStep.naming other gate).1 found'))

/-- A gate behind the last one has no name. -/
theorem name?_size : c.name? c.size = none := by
  cases found : c.name? c.size with
  | none => rfl
  | some name =>
    have owned : c.find? name = some c.size := (tables.inStep.naming name c.size).2 found
    exact absurd (tables.named name c.size owned) (Nat.lt_irrefl _)

end Tables

/-! ## Looking up a name -/

section Intern

variable [Scalar α] (c) (name : String)

/-- The name has a gate, or gets the next one. -/
theorem intern_cases : (∃ gate, c.find? name = some gate ∧ c.intern name = (gate, c)) ∨
    (c.find? name = none ∧ c.intern name = (c.size, (c.addGate .undetermined).2.setName c.size name)) := by
  unfold Circuit.intern
  cases found : c.find? name with
  | some gate => exact Or.inl ⟨gate, rfl, rfl⟩
  | none => exact Or.inr ⟨rfl, rfl⟩

/-- What holds of a circuit also when it gets a new gate with the name holds once the name was looked up. -/
theorem intern_induction {motive : Circuit α → Prop} (kept : motive c)
    (new : motive ((c.addGate .undetermined).2.setName c.size name)) : motive (c.intern name).2 := by
  rcases intern_cases c name with ⟨gate, _, same⟩ | ⟨_, same⟩
  · rw [same]
    exact kept
  · rw [same]
    exact new

@[simp] theorem kind_intern : (c.intern name).2.kind = c.kind := by
  refine intern_induction c name (motive := fun c' => c'.kind = c.kind) rfl (funext fun other => ?_)
  show (c.addGate .undetermined).2.kind other = c.kind other
  rw [kind_addGate]
  split
  · rename_i last
    rw [last, kind_of_le (Nat.le_refl _)]
  · rfl

@[simp] theorem children_intern : (c.intern name).2.children = c.children :=
  intern_induction c name (motive := fun c' => c'.children = c.children) rfl (children_addGate c .undetermined)

@[simp] theorem prob_intern : (c.intern name).2.prob = c.prob :=
  intern_induction c name (motive := fun c' => c'.prob = c.prob) rfl (prob_addGate c .undetermined)

@[simp] theorem key?_intern : (c.intern name).2.key? = c.key? :=
  intern_induction c name (motive := fun c' => c'.key? = c.key?) rfl rfl

theorem size_le_intern : c.size ≤ (c.intern name).2.size := by
  refine intern_induction c name (motive := fun c' => c.size ≤ c'.size) (Nat.le_refl _) ?_
  show c.size ≤ (c.addGate .undetermined).2.size
  rw [size_addGate]
  exact Nat.le_succ _

variable {c}

theorem InStep.intern (inStep : c.InStep) : (c.intern name).2.InStep :=
  intern_induction c name inStep ((inStep.addGate .undetermined).setName name)

/-- A name leads to a gate, which was there or is new. -/
theorem fst_intern_lt (named : ∀ name gate, c.find? name = some gate → gate < c.size) :
    (c.intern name).1 < (c.intern name).2.size := by
  rcases intern_cases c name with ⟨gate, found, same⟩ | ⟨_, same⟩
  · rw [same]
    exact named name gate found
  · rw [same]
    show c.size < (c.addGate .undetermined).2.size
    rw [size_addGate]
    exact Nat.lt_succ_self _

variable (tables : c.Tables)

include tables

/-- Afterwards the name has its gate, and the other names have theirs. -/
theorem find?_intern (other : String) : (c.intern name).2.find? other =
    if other = name then some (c.intern name).1 else c.find? other := by
  rcases intern_cases c name with ⟨gate, found, same⟩ | ⟨_, same⟩
  · rw [same]
    split
    · rename_i equal
      rw [equal, found]
    · rfl
  · rw [same]
    show (c.naming.assign c.size name).owner? other = _
    rw [Naming.owner?_assign]
    have anonymous : c.naming.name? c.size = none := tables.name?_size
    simp only [anonymous]
    rfl

theorem Tables.intern : (c.intern name).2.Tables where
  inStep := tables.inStep.intern name
  within gate child wire := by
    rw [children_intern] at wire
    exact (tables.within gate child wire).trans_le (size_le_intern c name)
  named other gate found := by
    rw [find?_intern name tables] at found
    split at found
    · exact Option.some.inj found ▸ fst_intern_lt name tables.named
    · exact (tables.named other gate found).trans_le (size_le_intern c name)

/-- Every gate has a name afterwards when it had one. -/
theorem named_intern (named : ∀ gate < c.size, ∃ name, c.find? name = some gate) :
    ∀ gate < (c.intern name).2.size, ∃ other, (c.intern name).2.find? other = some gate := by
  intro gate small
  rcases intern_cases c name with ⟨target, _, same⟩ | ⟨new, same⟩
  · rw [same] at small ⊢
    exact named gate small
  · by_cases last : gate = c.size
    · refine ⟨name, ?_⟩
      rw [find?_intern name tables, if_pos rfl, same, last]
    · rw [same] at small
      have small : gate < (c.addGate .undetermined).2.size := small
      rw [size_addGate] at small
      obtain ⟨other, found⟩ := named gate (by omega)
      refine ⟨other, ?_⟩
      rw [find?_intern name tables, if_neg, found]
      rintro rfl
      rw [new] at found
      cases found

end Intern

/-! ## Definitions -/

section Define

variable [Scalar α] (c) (name : String) (kind : Kind)

@[simp] theorem children_define : (c.define name kind).2.children = c.children := children_intern c name

@[simp] theorem prob_define : (c.define name kind).2.prob = c.prob := prob_intern c name

@[simp] theorem key?_define : (c.define name kind).2.key? = c.key? := key?_intern c name

variable {c} (tables : c.Tables)

include tables

theorem fst_define_lt : (c.define name kind).1 < (c.define name kind).2.size := by
  show (c.intern name).1 < ((c.intern name).2.setKind (c.intern name).1 kind).size
  rw [size_setKind]
  exact fst_intern_lt name tables.named

/-- The gate of the name gets the kind. -/
theorem kind_define (other : Nat) : (c.define name kind).2.kind other =
    if other = (c.define name kind).1 then kind else c.kind other := by
  show ((c.intern name).2.setKind (c.intern name).1 kind).kind other = _
  rw [kind_setKind _ _ _ _ (fst_intern_lt name tables.named), kind_intern]
  rfl

theorem Tables.define : (c.define name kind).2.Tables :=
  (tables.intern name).setKind (fst_intern_lt name tables.named) kind

theorem find?_define (other : String) : (c.define name kind).2.find? other =
    if other = name then some (c.define name kind).1 else c.find? other :=
  find?_intern name tables other

omit tables in
/-- A gate with the name is that of the definition. -/
theorem fst_define_of_found {gate : Nat} (found : c.find? name = some gate) :
    (c.define name kind).1 = gate := by
  show (c.intern name).1 = gate
  rcases intern_cases c name with ⟨target, there, same⟩ | ⟨new, _⟩
  · rw [same]
    exact Option.some.inj (there.symm.trans found)
  · rw [new] at found
    cases found

omit tables in
/-- A name without gate, or of an undetermined gate, is that of a gate that was undetermined. -/
theorem kind_fst_define (free : ∀ gate, c.find? name = some gate → c.kind gate = .undetermined) :
    c.kind (c.define name kind).1 = .undetermined := by
  show c.kind (c.intern name).1 = .undetermined
  rcases intern_cases c name with ⟨gate, found, same⟩ | ⟨_, same⟩
  · rw [same]
    exact free gate found
  · rw [same]
    exact kind_of_le (Nat.le_refl _)

omit tables in
/-- A new name is that of a new gate. -/
theorem define_of_new (new : c.find? name = none) :
    (c.define name kind).1 = c.size ∧ (c.define name kind).2.size = c.size + 1 := by
  rcases intern_cases c name with ⟨gate, found, _⟩ | ⟨_, same⟩
  · rw [new] at found
    cases found
  · constructor
    · show (c.intern name).1 = c.size
      rw [same]
    · show ((c.intern name).2.setKind (c.intern name).1 kind).size = c.size + 1
      rw [size_setKind, same]
      exact size_addGate c .undetermined

end Define

/-! ## Wires to names -/

section AddNamedWires

variable [Scalar α] (c) (gate : Nat) (names : List String)

/-- What a wire to a name keeps is kept by wires to several names. -/
theorem addNamedWires_induction {motive : Circuit α → Prop} (start : motive c)
    (wire : ∀ c name, motive c → motive ((c.intern name).2.addWire gate (c.intern name).1)) :
    motive (c.addNamedWires gate names) := by
  induction names generalizing c with
  | nil => exact start
  | cons name rest ih => exact ih _ (wire c name start)

@[simp] theorem kind_addNamedWires : (c.addNamedWires gate names).kind = c.kind :=
  addNamedWires_induction c gate names (motive := fun c' => c'.kind = c.kind) rfl
    fun c' name kept => (kind_intern c' name).trans kept

@[simp] theorem prob_addNamedWires : (c.addNamedWires gate names).prob = c.prob :=
  addNamedWires_induction c gate names (motive := fun c' => c'.prob = c.prob) rfl
    fun c' name kept => (prob_intern c' name).trans kept

@[simp] theorem key?_addNamedWires : (c.addNamedWires gate names).key? = c.key? :=
  addNamedWires_induction c gate names (motive := fun c' => c'.key? = c.key?) rfl
    fun c' name kept => (key?_intern c' name).trans kept

variable {c gate} (tables : c.Tables) (small : gate < c.size)

include tables small

theorem Tables.addNamedWires : (c.addNamedWires gate names).Tables := by
  induction names generalizing c with
  | nil => exact tables
  | cons name rest ih =>
    have small := small.trans_le (size_le_intern c name)
    exact ih ((tables.intern name).addWire small (fst_intern_lt name tables.named)) small

/-- The names have gates afterwards, and each gate keeps its name. -/
theorem find?_addNamedWires : (∀ name other, c.find? name = some other →
      (c.addNamedWires gate names).find? name = some other) ∧
    ∀ name, ((c.addNamedWires gate names).find? name).isSome ↔ name ∈ names ∨ (c.find? name).isSome := by
  induction names generalizing c with
  | nil => exact ⟨fun _ _ found => found, fun name => by simp [addNamedWires]⟩
  | cons first rest ih =>
    have small := small.trans_le (size_le_intern c first)
    obtain ⟨kept, named⟩ := ih ((tables.intern first).addWire small (fst_intern_lt first tables.named)) small
    have found_iff : ∀ name, ((c.intern first).2.find? name).isSome ↔ name = first ∨ (c.find? name).isSome := by
      intro name
      rw [find?_intern first tables]
      split
      · rename_i same
        simp [same]
      · rename_i different
        simp [different]
    refine ⟨fun name other found => kept name other ?_, fun name => ?_⟩
    · show (c.intern first).2.find? name = some other
      rcases intern_cases c first with ⟨target, _, same⟩ | ⟨new, _⟩
      · rw [same]
        exact found
      · rw [find?_intern first tables, if_neg, found]
        rintro rfl
        rw [new] at found
        cases found
    · refine (named name).trans ?_
      rw [List.mem_cons, or_assoc, or_left_comm]
      exact or_congr_right (found_iff name)

/-- Every gate has a name afterwards when it had one. -/
theorem named_addNamedWires (named : ∀ other < c.size, ∃ name, c.find? name = some other) :
    ∀ other < (c.addNamedWires gate names).size, ∃ name, (c.addNamedWires gate names).find? name = some other := by
  induction names generalizing c with
  | nil => exact named
  | cons first rest ih =>
    have small := small.trans_le (size_le_intern c first)
    exact ih ((tables.intern first).addWire small (fst_intern_lt first tables.named)) small
      (named_intern first tables named)

/-- Gates with the names come behind the children that the gate has. -/
theorem children_addNamedWires : ∃ targets : List Nat,
    names.map (c.addNamedWires gate names).find? = targets.map some ∧
    ∀ other, (c.addNamedWires gate names).children other =
      if other = gate then c.children gate ++ targets else c.children other := by
  induction names generalizing c with
  | nil =>
    refine ⟨[], rfl, fun other => ?_⟩
    rw [addNamedWires, List.append_nil]
    split
    · rename_i same
      rw [same]
    · rfl
  | cons name rest ih =>
    have small := small.trans_le (size_le_intern c name)
    have tables' := (tables.intern name).addWire small (fst_intern_lt name tables.named)
    have wired := fun other => children_addWire (c.intern name).2 gate (c.intern name).1 other
      ((tables.intern name).inStep.wires ▸ small)
    obtain ⟨targets, named, listed⟩ := ih tables' small
    refine ⟨(c.intern name).1 :: targets, ?_, fun other => ?_⟩
    · have here : (c.intern name).2.find? name = some (c.intern name).1 := by
        rw [find?_intern name tables, if_pos rfl]
      rw [List.map_cons, List.map_cons]
      exact congr (congrArg List.cons ((find?_addNamedWires rest tables' small).1 name _ here)) named
    · rw [addNamedWires, listed, wired, wired, children_intern]
      by_cases same : other = gate
      · simp [same]
      · simp [same]

end AddNamedWires

end Provenance.Circuit
