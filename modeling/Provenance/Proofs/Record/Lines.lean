import Provenance.Proofs.Record.Basic

/-!
# The order of the lines of records

A line means nothing, or one record, or cannot be read (`lineRecord?`).  Lines are taken one after the other when
each can be read, each record can be taken and no two have the same name (`Describes.exists_foldlM_iff`), and
the circuit then describes the records.  None of this depends on the order of the lines, so lines in another
order are accepted too and give the same circuit but for the numbers of its gates (`ofRecordLines_perm`).
-/

namespace Provenance.Circuit

variable {α : Type} [Scalar α] {c : Circuit α}

/-- What a line means: nothing when it is blank. -/
def lineRecord? (bytes : List UInt8) : Option (Option Record) := do
  let line ← Text.Utf8.strict? ⟨bytes.toArray⟩
  if Text.allWhite line.toList then some none else (Record.ofLine? line.toList).map some

/-- The records that some lines say. -/
def recordsOf (lines : List (List UInt8)) : List Record := lines.filterMap fun bytes => (lineRecord? bytes).join

theorem recordsOf_cons (bytes : List UInt8) (lines : List (List UInt8)) :
    recordsOf (bytes :: lines) = recordsOf [bytes] ++ recordsOf lines := by
  show List.filterMap _ ([bytes] ++ lines) = _
  exact List.filterMap_append

/-- Each line can be read, each record can be taken, and no two have the same name. -/
structure Readable (α : Type) [Scalar α] (lines : List (List UInt8)) : Prop where
  each : ∀ bytes ∈ lines, ∃ said, lineRecord? bytes = some said ∧ ∀ record ∈ said, Takable α record
  distinct : ((recordsOf lines).map (·.id)).Nodup

theorem Readable.perm {lines lines' : List (List UInt8)} (same : lines.Perm lines') (readable : Readable α lines) :
    Readable α lines' where
  each bytes member := readable.each bytes (same.mem_iff.2 member)
  distinct := ((same.filterMap _).map _).nodup_iff.1 readable.distinct

/-! ## Taking lines -/

/-- A blank line changes nothing, and the record of another one is taken. -/
theorem ingestLine_eq_ok_iff {bytes : List UInt8} {number : Nat} {c' : Circuit α} :
    c.ingestLine (bytes, number) = .ok c' ↔ ∃ said, lineRecord? bytes = some said ∧
      match said with
      | none => c' = c
      | some record => (∃ gate, (c.ingest record).1 = .ok gate) ∧ c' = (c.ingest record).2 := by
  simp only [ingestLine, Outcome.within, Outcome.bind_eq_ok, Outcome.mapError_eq_ok, Outcome.ofOption_eq_ok,
    lineRecord?, Option.bind_eq_bind, Option.bind_eq_some_iff]
  constructor
  · rintro ⟨line, decoded, taken⟩
    split at taken
    · rename_i white
      exact ⟨none, ⟨line, decoded, by rw [if_pos white]⟩, (Except.ok.inj taken).symm⟩
    · rename_i black
      simp only [Outcome.bind_eq_ok, Outcome.mapError_eq_ok, Outcome.ofOption_eq_ok, Outcome.map_eq_ok] at taken
      obtain ⟨record, read, gate, taken, same⟩ := taken
      exact ⟨some record, ⟨line, decoded, by rw [if_neg black, read, Option.map_some]⟩, ⟨gate, taken⟩, same.symm⟩
  · rintro ⟨said, ⟨line, decoded, means⟩, taken⟩
    refine ⟨line, decoded, ?_⟩
    split at means
    · rename_i white
      obtain rfl := Option.some.inj means
      rw [if_pos white, show c' = c from taken]
    · rename_i black
      obtain ⟨record, read, rfl⟩ := Option.map_eq_some_iff.1 means
      obtain ⟨⟨gate, taken⟩, rfl⟩ := taken
      simp only [if_neg black, Outcome.bind_eq_ok, Outcome.mapError_eq_ok, Outcome.ofOption_eq_ok,
        Outcome.map_eq_ok]
      exact ⟨record, read, gate, taken, rfl⟩

/-- A circuit that has taken a line describes what it means too. -/
theorem Describes.ingestLine {records : List Record} (describes : c.Describes records) {bytes : List UInt8}
    {number : Nat} {c' : Circuit α} (taken : c.ingestLine (bytes, number) = .ok c') :
    c'.Describes (recordsOf [bytes] ++ records) := by
  obtain ⟨said, means, taken⟩ := ingestLine_eq_ok_iff.1 taken
  cases said with
  | none =>
    obtain rfl := taken
    simpa [recordsOf, means] using describes
  | some record =>
    obtain ⟨⟨gate, ingested⟩, rfl⟩ := taken
    simpa [recordsOf, means] using describes.ingest ingested

/-- A line is taken when it can be, and its record has a new name. -/
theorem Describes.exists_ingestLine_iff {records : List Record} (describes : c.Describes records)
    (bytes : List UInt8) (number : Nat) : (∃ c', c.ingestLine (bytes, number) = .ok c') ↔
      (∃ said, lineRecord? bytes = some said ∧ ∀ record ∈ said, Takable α record) ∧
        ∀ record ∈ recordsOf [bytes], ∀ other ∈ records, other.id ≠ record.id := by
  simp only [ingestLine_eq_ok_iff]
  cases said : lineRecord? bytes with
  | none => simp
  | some said' =>
    cases said' with
    | none => simp [recordsOf, said]
    | some record =>
      simp only [Option.some.injEq, exists_eq_left', exists_and_left, exists_eq, and_true]
      rw [describes.exists_ingest_iff, and_comm]
      simp [recordsOf, said]

/-- Lines are taken when they can be, and their records have new names. -/
theorem Describes.exists_foldlM_iff {lines : List (List UInt8)} {records : List Record}
    (describes : c.Describes records) (start : Nat) :
    (∃ c', (lines.zipIdx start).foldlM Circuit.ingestLine c = .ok c') ↔
      Readable α lines ∧ ∀ record ∈ recordsOf lines, ∀ other ∈ records, other.id ≠ record.id := by
  induction lines generalizing c records start with
  | nil =>
    exact ⟨fun _ => ⟨⟨fun _ none => absurd none List.not_mem_nil, List.nodup_nil⟩, fun _ none =>
      absurd none List.not_mem_nil⟩, fun _ => ⟨c, rfl⟩⟩
  | cons bytes lines ih =>
    simp only [List.zipIdx_cons, List.foldlM_cons, Outcome.bind_eq_ok]
    have single : ((recordsOf [bytes]).map (·.id)).Nodup := by
      unfold recordsOf
      cases said : (lineRecord? bytes).join <;> simp [said]
    constructor
    · rintro ⟨c', middle, first, rest⟩
      obtain ⟨readable, new⟩ := (describes.exists_ingestLine_iff bytes start).1 ⟨middle, first⟩
      obtain ⟨⟨each, distinct⟩, new'⟩ := (ih (describes.ingestLine first) (start + 1)).1 ⟨c', rest⟩
      refine ⟨⟨List.forall_mem_cons.2 ⟨readable, each⟩, ?_⟩, fun record member other earlier => ?_⟩
      · rw [recordsOf_cons, List.map_append]
        refine List.nodup_append.2 ⟨single, distinct, fun name listed name' listed' => ?_⟩
        obtain ⟨other, member, rfl⟩ := List.mem_map.1 listed
        obtain ⟨record, member', rfl⟩ := List.mem_map.1 listed'
        exact new' record member' other (List.mem_append_left _ member)
      · rw [recordsOf_cons] at member
        rcases List.mem_append.1 member with member | member
        · exact new record member other earlier
        · exact new' record member other (List.mem_append_right _ earlier)
    · rintro ⟨⟨each, distinct⟩, new⟩
      rw [recordsOf_cons, List.map_append] at distinct
      obtain ⟨_, distinct, apart⟩ := List.nodup_append.1 distinct
      obtain ⟨readable, each⟩ := List.forall_mem_cons.1 each
      rw [recordsOf_cons] at new
      obtain ⟨middle, first⟩ := (describes.exists_ingestLine_iff bytes start).2
        ⟨readable, fun record member => new record (List.mem_append_left _ member)⟩
      obtain ⟨c', rest⟩ := (ih (describes.ingestLine first) (start + 1)).2 ⟨⟨each, distinct⟩,
        fun record member other earlier => by
          rcases List.mem_append.1 earlier with earlier | earlier
          · exact apart _ (List.mem_map_of_mem earlier) _ (List.mem_map_of_mem member)
          · exact new record (List.mem_append_right _ member) other earlier⟩
      exact ⟨c', middle, first, rest⟩

/-- A circuit that has taken some lines describes what they say. -/
theorem Describes.foldlM {lines : List (List UInt8)} {records : List Record} (describes : c.Describes records)
    {start : Nat} {c' : Circuit α} (taken : (lines.zipIdx start).foldlM Circuit.ingestLine c = .ok c') :
    ∃ all, c'.Describes all ∧ ∀ record, record ∈ all ↔ record ∈ recordsOf lines ∨ record ∈ records := by
  induction lines generalizing c records start with
  | nil =>
    refine ⟨records, Except.ok.inj taken ▸ describes, fun record => ?_⟩
    exact (or_iff_right List.not_mem_nil).symm
  | cons bytes lines ih =>
    rw [List.zipIdx_cons, List.foldlM_cons, Outcome.bind_eq_ok] at taken
    obtain ⟨middle, first, rest⟩ := taken
    obtain ⟨all, describes', mem⟩ := ih (describes.ingestLine first) rest
    refine ⟨all, describes', fun record => ?_⟩
    rw [mem, recordsOf_cons bytes lines, List.mem_append, List.mem_append, or_left_comm, or_assoc]

/-! ## Lines in another order -/

/-- The circuit of some lines describes their records. -/
theorem describes_of_ofRecordLines {lines : List (List UInt8)} (read : ofRecordLines lines = .ok c) :
    ∃ all, c.Describes all ∧ ∀ record, record ∈ all ↔ record ∈ recordsOf lines := by
  simp only [ofRecordLines, Outcome.bind_eq_ok, Except.ok.injEq] at read
  obtain ⟨_, taken, _, _, rfl⟩ := read
  obtain ⟨all, describes, mem⟩ := describes_empty.foldlM taken
  exact ⟨all, describes, fun record => (mem record).trans (or_iff_left List.not_mem_nil)⟩

/-- Lines in another order are accepted too. -/
theorem exists_ofRecordLines_of_perm {lines lines' : List (List UInt8)} (same : lines.Perm lines')
    (read : ofRecordLines lines = .ok c) : ∃ c' : Circuit α, ofRecordLines lines' = .ok c' := by
  obtain ⟨all, describes, mem⟩ := describes_of_ofRecordLines read
  have acyclic := (conforms_of_ofRecordLines read).1.acyclic
  simp only [ofRecordLines, Outcome.bind_eq_ok, Except.ok.injEq] at read
  obtain ⟨_, taken, _⟩ := read
  obtain ⟨readable, _⟩ := (describes_empty.exists_foldlM_iff 1).1 ⟨_, taken⟩
  obtain ⟨c', taken'⟩ := (describes_empty.exists_foldlM_iff 1).2
    ⟨readable.perm same, fun _ _ _ none => absurd none List.not_mem_nil⟩
  obtain ⟨all', describes', mem'⟩ := describes_empty.foldlM taken'
  have alike : ∀ record, record ∈ all' ↔ record ∈ all := fun record => by
    rw [mem', mem, or_iff_left List.not_mem_nil, recordsOf, recordsOf, (same.filterMap _).mem_iff]
  have acyclic' := (describes'.renumbers describes alike).acyclic describes'.tables.inStep acyclic
  have checked := (Network.checkAcyclic_eq_ok_iff describes'.tables.inStep.even).2 acyclic'
  refine ⟨c', ?_⟩
  simp only [ofRecordLines, Outcome.bind_eq_ok]
  exact ⟨c', taken', (), checked, rfl⟩

/-- The world in which the inputs with certain names are true. -/
def worldOfNames (c : Circuit α) (truth : String → Bool) : World := fun gate => (c.name? gate).any truth

/-- The order of the lines does not matter: lines in another order are accepted when the lines are, and then the
circuits are the same but for the numbers of their gates.  So a named gate has the same value in each world that
says by name which inputs are true, when it has one. -/
theorem ofRecordLines_perm {lines lines' : List (List UInt8)} (same : lines.Perm lines') :
    ((∃ c : Circuit α, ofRecordLines lines = .ok c) ↔ ∃ c : Circuit α, ofRecordLines lines' = .ok c) ∧
    ∀ c c' : Circuit α, ofRecordLines lines = .ok c → ofRecordLines lines' = .ok c' →
      ∃ number, c.Renumbers c' number ∧
        ∀ name gate, c.find? name = some gate → c'.find? name = some (number gate) ∧
          ∀ truth result, c.evaluate gate (c.worldOfNames truth) = .ok result ↔
            c'.evaluate (number gate) (c'.worldOfNames truth) = .ok result := by
  refine ⟨⟨fun ⟨c, read⟩ => exists_ofRecordLines_of_perm same read,
    fun ⟨c, read⟩ => exists_ofRecordLines_of_perm same.symm read⟩, fun c c' read read' => ?_⟩
  obtain ⟨wellFormed, _⟩ := conforms_of_ofRecordLines read
  obtain ⟨wellFormed', _⟩ := conforms_of_ofRecordLines read'
  obtain ⟨all, describes, mem⟩ := describes_of_ofRecordLines read
  obtain ⟨all', describes', mem'⟩ := describes_of_ofRecordLines read'
  have alike : ∀ record, record ∈ all ↔ record ∈ all' := fun record => by
    rw [mem, mem', recordsOf, recordsOf, (same.filterMap _).mem_iff]
  have renumbers := describes.renumbers describes' alike
  refine ⟨_, renumbers, fun name gate found => ?_⟩
  have small := describes.tables.named name gate found
  have called := (describes.tables.inStep.naming name gate).1 found
  refine ⟨(describes'.tables.inStep.naming name _).2 ((renumbers.name? gate small).trans called),
    fun truth result => renumbers.evaluate_iff wellFormed wellFormed' (fun input kind => ?_) small result⟩
  rw [worldOfNames, worldOfNames, renumbers.name? input (lt_of_input kind)]

/-- The records of a negation are accepted from the last to the first too. -/
theorem ofRecordLines_perm_negation : ∃ c c' : Circuit Rat, ofRecordLines recordsOfNegation = .ok c ∧
    ofRecordLines recordsOfNegation.reverse = .ok c' ∧ ∃ number, c.Renumbers c' number := by
  have same : recordsOfNegation.Perm recordsOfNegation.reverse := (List.reverse_perm _).symm
  have accepted : (ofRecordLines recordsOfNegation : Outcome (Circuit Rat)).isOk = true := by decide +kernel
  cases read : (ofRecordLines recordsOfNegation : Outcome (Circuit Rat)) with
  | error failure => simp [read, Except.isOk, Except.toBool] at accepted
  | ok c =>
    obtain ⟨accepted_iff, alike⟩ := ofRecordLines_perm (α := Rat) same
    obtain ⟨c', read'⟩ := accepted_iff.1 ⟨c, read⟩
    obtain ⟨number, renumbers, _⟩ := alike c c' read read'
    exact ⟨c, c', rfl, read', number, renumbers⟩

end Provenance.Circuit
