import Provenance.Proofs.Readers

/-!
# Refused records

A record is checked in two steps, and its gate is defined in between.  What the first step finds wrong, a name
that is taken or children that do not fit the kind, leaves the circuit as it was.  What the second step finds
wrong is the label, a probability or a key (`Cause.BlamesLabel`), and by then the gate has its name and its
kind (`Circuit.Preempted`).  No other gate is touched, but the circuit takes no record of that name any more,
however it is corrected (`Circuit.ingest_refused`).
-/

namespace Provenance

variable {α : Type}

/-- The cause is the probability or the key of a gate. -/
def Cause.BlamesLabel : Cause → Prop
  | .missingProbability _ | .missingKey _ | .probabilityOutOfRange _ _ => True
  | _ => False

/-! ## Why a record is refused -/

namespace Outcome

variable {β γ : Type} {sort : Cause → Prop}

/-- An outcome that can fail for causes of one sort only. -/
def FailsFor (sort : Cause → Prop) (x : Outcome β) : Prop :=
  ∀ failure, x = .error failure → sort failure.cause

theorem failsFor_ok (y : β) : FailsFor sort (.ok y : Outcome β) := by
  rintro _ ⟨⟩

theorem failsFor_fail {cause : Cause} (fits : sort cause) : FailsFor sort (fail cause : Outcome β) := by
  rintro _ ⟨⟩
  exact fits

theorem failsFor_require {condition : Bool} {cause : Cause} (fits : sort cause) :
    FailsFor sort (require condition cause) := by
  cases condition with
  | true => exact failsFor_ok ()
  | false => exact failsFor_fail fits

theorem failsFor_ofOption {cause : Cause} {x : Option β} (fits : sort cause) :
    FailsFor sort (ofOption cause x) := by
  cases x with
  | some y => exact failsFor_ok y
  | none => exact failsFor_fail fits

theorem FailsFor.bind {x : Outcome β} {f : β → Outcome γ} (first : FailsFor sort x)
    (second : ∀ y, FailsFor sort (f y)) : FailsFor sort (x >>= f) := by
  cases x with
  | ok y => exact second y
  | error failure =>
    rintro _ ⟨⟩
    exact first failure rfl

end Outcome

namespace Record

open Outcome

variable (record : Record)

/-- The checks ahead of the definition do not look at the label. -/
theorem check_failsFor (c : Circuit α) :
    FailsFor (fun cause => ¬ cause.BlamesLabel) (record.check c) := by
  unfold check
  cases c.find? record.id with
  | none =>
    refine FailsFor.bind (failsFor_ok ()) fun _ => ?_
    cases record.kind with
    | input | alternative | not => exact failsFor_require not_false
    | and | or => exact failsFor_ok ()
    | undetermined => exact failsFor_fail not_false
  | some gate =>
    refine FailsFor.bind (failsFor_require not_false) fun _ => ?_
    cases record.kind with
    | input | alternative | not => exact failsFor_require not_false
    | and | or => exact failsFor_ok ()
    | undetermined => exact failsFor_fail not_false

variable [Scalar α]

theorem requireProbability_failsFor (name : String) (numeral : Numeral) :
    FailsFor Cause.BlamesLabel (requireProbability name numeral : Outcome α) := by
  unfold requireProbability
  split
  · split
    · exact failsFor_ok _
    · exact failsFor_fail trivial
  · exact failsFor_fail trivial

/-- The checks behind it look at nothing else. -/
theorem weight_failsFor : FailsFor Cause.BlamesLabel (record.weight (α := α)) := by
  unfold weight
  cases record.kind with
  | input => exact (requireProbability_failsFor _ _).bind fun _ => failsFor_ok _
  | alternative =>
    exact (failsFor_ofOption trivial).bind fun _ => (failsFor_ofOption trivial).bind fun _ =>
      (requireProbability_failsFor _ _).bind fun _ => failsFor_ok _
  | undetermined | and | or | not => exact failsFor_ok _

/-- A gate whose label can be refused is an input or an alternative. -/
theorem kind_of_weight_eq_error {failure : Failure} (refused : record.weight (α := α) = .error failure) :
    record.kind = .input ∨ record.kind = .alternative := by
  cases kind : record.kind with
  | input => exact Or.inl rfl
  | alternative => exact Or.inr rfl
  | undetermined | and | or | not => simp [weight, kind] at refused

end Record

/-! ## What a refused record leaves behind -/

namespace Circuit

variable {c c' : Circuit α} {record : Record} {gate : Nat}

/-- A name that is defined is refused. -/
theorem check_of_defined (found : c.find? record.id = some gate) (defined : c.kind gate ≠ .undetermined) :
    record.check c = Outcome.fail (.definedTwice record.id) := by
  have different : (c.kind gate == .undetermined) = false := beq_false_of_ne defined
  unfold Record.check
  rw [found]
  simp only [Outcome.require, different]
  rfl

variable [Scalar α]

/-- A gate has been defined for a record that was refused, and nothing else has changed: the gate was free, has
the name and the kind of the record, and is the next one where the name was new. -/
structure Preempted (c : Circuit α) (record : Record) (gate : Nat) (c' : Circuit α) : Prop where
  tables : c'.Tables
  position : gate = (c.find? record.id).getD c.size
  free : c.kind gate = .undetermined
  labelled : record.kind = .input ∨ record.kind = .alternative
  size : c'.size = max c.size (gate + 1)
  kind : ∀ other, c'.kind other = if other = gate then record.kind else c.kind other
  find? : ∀ name, c'.find? name = if name = record.id then some gate else c.find? name
  children : c'.children = c.children
  prob : c'.prob = c.prob
  key? : c'.key? = c.key?

/-- The gate of a name is the one that has it, or the next one. -/
theorem fst_define_eq (c : Circuit α) (name : String) (kind : Kind) :
    (c.define name kind).1 = (c.find? name).getD c.size := by
  cases found : c.find? name with
  | some gate => exact fst_define_of_found name kind found
  | none => exact (define_of_new name kind found).1

theorem size_define (tables : c.Tables) (name : String) (kind : Kind) :
    (c.define name kind).2.size = max c.size ((c.define name kind).1 + 1) := by
  rw [fst_define_eq]
  cases found : c.find? name with
  | some gate =>
    have small := tables.named name gate found
    have same : (c.define name kind).2.size = (c.intern name).2.size := size_setKind ..
    rcases intern_cases c name with ⟨_, _, kept⟩ | ⟨new, _⟩
    · rw [same, kept, Option.getD_some, Nat.max_eq_left small]
    · rw [new] at found
      cases found
  | none => rw [(define_of_new name kind found).2, Option.getD_none, Nat.max_eq_right (Nat.le_succ _)]

/-- The definition alone is what stays when the label is refused. -/
theorem preempted_define (tables : c.Tables) (passed : record.check c = .ok ())
    (labelled : record.kind = .input ∨ record.kind = .alternative) :
    c.Preempted record (c.define record.id record.kind).1 (c.define record.id record.kind).2 where
  tables := tables.define record.id record.kind
  position := fst_define_eq c record.id record.kind
  free := kind_fst_define record.id record.kind (check_eq_ok_iff.1 passed).1
  labelled := labelled
  size := size_define tables record.id record.kind
  kind := kind_define record.id record.kind tables
  find? := find?_define record.id record.kind tables
  children := children_define c record.id record.kind
  prob := prob_define c record.id record.kind
  key? := key?_define c record.id record.kind

theorem ingest_of_check_eq_error {failure : Failure} (refused : record.check c = .error failure) :
    c.ingest record = (.error failure, c) := by
  unfold ingest
  rw [refused]

theorem Preempted.kind_ne (preempted : c.Preempted record gate c') : c'.kind gate ≠ .undetermined := by
  rw [preempted.kind, if_pos rfl]
  rcases preempted.labelled with kind | kind
  · simp [kind]
  · simp [kind]

/-- The circuit is not as it was. -/
theorem Preempted.ne (preempted : c.Preempted record gate c') : c' ≠ c := by
  rintro rfl
  exact preempted.kind_ne preempted.free

/-- No record of the name is taken any more. -/
theorem Preempted.ingest (preempted : c.Preempted record gate c') {corrected : Record}
    (same : corrected.id = record.id) :
    c'.ingest corrected = (Outcome.fail (.definedTwice record.id), c') := by
  have found : c'.find? corrected.id = some gate := by rw [preempted.find?, if_pos same]
  rw [← same]
  exact ingest_of_check_eq_error (check_of_defined found preempted.kind_ne)

/-- A record that is refused for another reason than its label leaves the circuit as it was.  One that is
refused for its label leaves a gate with its name and its kind, and a corrected record is refused for the
name. -/
theorem ingest_refused {failure : Failure} (tables : c.Tables) (refused : (c.ingest record).1 = .error failure) :
    (¬ failure.cause.BlamesLabel → (c.ingest record).2 = c) ∧
    (failure.cause.BlamesLabel → (c.ingest record).2 ≠ c ∧
      (∃ gate, c.Preempted record gate (c.ingest record).2) ∧
      ∀ corrected : Record, corrected.id = record.id → (c.ingest record).2.ingest corrected =
        (Outcome.fail (.definedTwice record.id), (c.ingest record).2)) := by
  cases checked : record.check c with
  | error failure' =>
    rw [ingest_of_check_eq_error checked] at refused ⊢
    obtain rfl : failure' = failure := Except.error.inj refused
    exact ⟨fun _ => rfl, fun blamed => absurd blamed (record.check_failsFor c _ checked)⟩
  | ok done =>
    cases weighed : record.weight (α := α) with
    | ok label =>
      unfold ingest at refused
      simp [checked, weighed] at refused
    | error failure' =>
      have result : c.ingest record = (.error failure', (c.define record.id record.kind).2) := by
        unfold ingest
        rw [checked, weighed]
      rw [result] at refused ⊢
      obtain rfl : failure' = failure := Except.error.inj refused
      have preempted := preempted_define tables checked (record.kind_of_weight_eq_error weighed)
      exact ⟨fun other => absurd (record.weight_failsFor _ weighed) other,
        fun _ => ⟨preempted.ne, ⟨_, preempted⟩, fun _ same => preempted.ingest same⟩⟩

/-- A disjunction that mentions a gate. -/
def mentioning : Circuit Rat := (empty.ingest ⟨"r", .or, ["x"], none, none⟩).2

/-- The mentioned gate becomes an alternative when it is described as one without key.  A second description
of the disjunction changes nothing. -/
theorem ingest_refused_mentioning :
    (mentioning.ingest ⟨"r", .and, [], none, none⟩).2 = mentioning ∧
    ∃ gate, mentioning.Preempted ⟨"x", .alternative, [], some (Numeral.ofNat 1), none⟩ gate
      (mentioning.ingest ⟨"x", .alternative, [], some (Numeral.ofNat 1), none⟩).2 := by
  have made : ((empty : Circuit Rat).ingest ⟨"r", .or, ["x"], none, none⟩).1 = .ok 0 := by decide +kernel
  have tables : mentioning.Tables := (ingested_of_ingest tables_empty made).tables
  have twice : (mentioning.ingest ⟨"r", .and, [], none, none⟩).1 = .error (.of (.definedTwice "r")) := by
    decide +kernel
  have keyless : (mentioning.ingest ⟨"x", .alternative, [], some (Numeral.ofNat 1), none⟩).1 =
      .error (.of (.missingKey "x")) := by decide +kernel
  exact ⟨(ingest_refused tables twice).1 id, ((ingest_refused tables keyless).2 trivial).2.1⟩

/-- An input that is said to be true with probability `p`. -/
def inputRecord (p : Nat) : Record := ⟨"x", .input, [], some (Numeral.ofNat p), none⟩

/-- A record refused for its probability leaves a gate in the empty circuit.  The corrected record, which the
empty circuit takes, is refused then. -/
theorem ingest_leaves_gate :
    ((empty : Circuit Rat).ingest (inputRecord 2)).1 = .error (.of (.probabilityOutOfRange "2" "x")) ∧
    (empty : Circuit Rat).size = 0 ∧ ((empty : Circuit Rat).ingest (inputRecord 2)).2.size = 1 ∧
    ((empty : Circuit Rat).ingest (inputRecord 2)).2.kind 0 = .input ∧
    ((empty : Circuit Rat).ingest (inputRecord 1)).1 = .ok 0 ∧
    (((empty : Circuit Rat).ingest (inputRecord 2)).2.ingest (inputRecord 1)).1 =
      .error (.of (.definedTwice "x")) := by
  decide +kernel

end Circuit

end Provenance
