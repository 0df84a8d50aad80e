import Provenance.CircuitFile
import Provenance.Proofs.Circuit.Define
import Provenance.Proofs.Network.Cycle

/-!
# Circuits that are read

Both readers build a circuit gate by gate and check in the end that it has no cycle.  A circuit of records
has all that the methods expect of a circuit (`Conforms`): a record is refused when the number of its
children does not fit its kind, and no gate gets children later.  A circuit of plain text has its
probabilities and its keys (`Labelled`); its wires are taken as they come, so inputs may have children and
negations any number of them (`ofText_loneNegation`).
-/

namespace Provenance

variable {α : Type}

section Probability

variable [Scalar α]

/-- A scalar between zero and one. -/
structure IsProbability (p : α) : Prop where
  nonneg : Scalar.le Scalar.zero p = true
  small : Scalar.le p Scalar.one = true

theorem isProbability_of_require {id : String} {numeral : Numeral} {p : α}
    (required : requireProbability id numeral = .ok p) : IsProbability p := by
  unfold requireProbability at required
  cases scalar : Scalar.ofNumeral? (α := α) numeral with
  | none => simp [scalar] at required
  | some q =>
    simp only [scalar] at required
    split at required
    · rename_i between
      obtain ⟨nonneg, small⟩ := Bool.and_eq_true_iff.1 between
      cases required
      exact ⟨nonneg, small⟩
    · simp at required

end Probability

/-- The numbers of children that gates of a kind may have. -/
def Kind.Admits (count : Nat) : Kind → Prop
  | .undetermined | .input | .alternative => count = 0
  | .not => count = 1
  | .and | .or => True

namespace Circuit

variable {c : Circuit α} {gate : Nat}

/-! ## Labels -/

section Labels

variable [Scalar α] {c' : Circuit α}

/-- An input or an alternative has a probability, and an alternative has a key. -/
structure Labelled (c : Circuit α) (gate : Nat) : Prop where
  probability : c.kind gate = .input ∨ c.kind gate = .alternative → IsProbability (c.prob gate)
  key : c.kind gate = .alternative → ∃ key, c.key? gate = some key

/-- The number of children of a gate fits its kind too. -/
structure Conforms (c : Circuit α) (gate : Nat) : Prop extends c.Labelled gate where
  arity : (c.kind gate).Admits (c.children gate).length

theorem labelled_of_undetermined (kind : c.kind gate = .undetermined) : c.Labelled gate where
  probability labelled := by simp [kind] at labelled
  key labelled := by simp [kind] at labelled

theorem Labelled.of_same (labelled : c.Labelled gate) (kind : c'.kind gate = c.kind gate)
    (prob : c'.prob gate = c.prob gate) (key : c'.key? gate = c.key? gate) : c'.Labelled gate where
  probability := by
    rw [kind, prob]
    exact labelled.probability
  key := by
    rw [kind, key]
    exact labelled.key

end Labels

/-! ## Setting a label -/

/-- The circuit with a probability and a key for a gate, where they are given. -/
def setLabel (c : Circuit α) (gate : Nat) (p : Option α) (key : Option Nat) : Circuit α :=
  let c := match p with
    | some p => c.setProb gate p
    | none => c
  match key with
  | some key => c.setKey gate key
  | none => c

section SetLabel

variable (c) (gate) (p : Option α) (key : Option Nat)

@[simp] theorem size_setLabel : (c.setLabel gate p key).size = c.size := by
  cases p <;> cases key <;> rfl

@[simp] theorem kind_setLabel : (c.setLabel gate p key).kind = c.kind := by
  cases p <;> cases key <;> rfl

@[simp] theorem children_setLabel : (c.setLabel gate p key).children = c.children := by
  cases p <;> cases key <;> rfl

@[simp] theorem find?_setLabel : (c.setLabel gate p key).find? = c.find? := by
  cases p <;> cases key <;> rfl

theorem prob_setLabel [Scalar α] (other : Nat) (small : gate < c.probs.size) :
    (c.setLabel gate p key).prob other = if other = gate then p.getD (c.prob gate) else c.prob other := by
  have set : (c.setLabel gate p key).prob other = (c.setLabel gate p none).prob other := by
    cases key <;> rfl
  rw [set]
  cases p with
  | none =>
    split
    · rename_i same
      rw [same]
      rfl
    · rfl
  | some p => exact prob_setProb c gate other p small

theorem key?_setLabel (other : Nat) :
    (c.setLabel gate p key).key? other = if other = gate then key.or (c.key? gate) else c.key? other := by
  have set : (c.setLabel gate p key).key? other = (c.setLabel gate none key).key? other := by
    cases p <;> cases key <;> rfl
  rw [set]
  cases key with
  | none =>
    split
    · rename_i same
      rw [same]
      rfl
    · rfl
  | some key =>
    show (c.keys.insert gate key)[other]? = _
    rw [Std.TreeMap.getElem?_insert]
    simp only [Nat.compare_eq_eq, @eq_comm _ gate]
    rfl

variable {c}

theorem Tables.setLabel (tables : c.Tables) : (c.setLabel gate p key).Tables := by
  have set : (c.setLabel gate p none).Tables := by
    cases p with
    | none => exact tables
    | some p => exact tables.setProb gate p
  cases key with
  | none => exact set
  | some key => exact set.setKey gate key

end SetLabel

section Define

variable [Scalar α] (name : String) {kind : Kind} {p : Option α} {key : Option Nat}

/-- What gates of a kind are labelled with. -/
structure LabelFor (kind : Kind) (p : Option α) (key : Option Nat) : Prop where
  probability : kind = .input ∨ kind = .alternative → ∃ q, p = some q ∧ IsProbability q
  key : kind = .alternative → ∃ k, key = some k

/-- The gate of a definition gets its label, the other gates keep theirs. -/
theorem labelled_setLabel_define (tables : c.Tables) (labelled : ∀ gate, c.Labelled gate)
    (fits : LabelFor kind p key) (other : Nat) :
    ((c.define name kind).2.setLabel (c.define name kind).1 p key).Labelled other := by
  have small := (tables.define name kind).inStep.probs.symm ▸ fst_define_lt name kind tables
  have prob := prob_setLabel (c.define name kind).2 (c.define name kind).1 p key other small
  have keyed := key?_setLabel (c.define name kind).2 (c.define name kind).1 p key other
  have kinds := kind_define name kind tables other
  by_cases same : other = (c.define name kind).1
  · rw [if_pos same] at prob keyed kinds
    constructor
    · intro weighed
      rw [kind_setLabel, kinds] at weighed
      obtain ⟨q, rfl, probability⟩ := fits.probability weighed
      rw [prob]
      exact probability
    · intro alternative
      rw [kind_setLabel, kinds] at alternative
      obtain ⟨k, rfl⟩ := fits.key alternative
      exact ⟨k, keyed⟩
  · rw [if_neg same] at prob keyed kinds
    refine (labelled other).of_same ?_ ?_ ?_
    · rw [kind_setLabel, kinds]
    · rw [prob, prob_define]
    · rw [keyed, key?_define]

end Define

/-! ## Records -/

section Records

variable {record : Record}

/-- A record passes the checks when the gate of its name is not defined and its children fit its kind. -/
theorem check_eq_ok_iff : record.check c = .ok () ↔
    (∀ gate, c.find? record.id = some gate → c.kind gate = .undetermined) ∧
      record.kind ≠ .undetermined ∧ record.kind.Admits record.children.length := by
  cases found : c.find? record.id with
  | none => cases kind : record.kind <;> simp [Record.check, found, kind, Kind.Admits]
  | some gate => cases kind : record.kind <;> simp [Record.check, found, kind, Kind.Admits]

variable [Scalar α]

theorem labelFor_of_weight {p : Option α} {key : Option Nat} (weighed : record.weight = .ok (p, key)) :
    LabelFor record.kind p key := by
  cases kind : record.kind with
  | input =>
    simp only [Record.weight, kind, Outcome.bind_eq_ok, Except.ok.injEq, Prod.mk.injEq] at weighed
    obtain ⟨q, required, rfl, _⟩ := weighed
    exact ⟨fun _ => ⟨q, rfl, isProbability_of_require required⟩, by simp⟩
  | alternative =>
    simp only [Record.weight, kind, Outcome.bind_eq_ok, Except.ok.injEq, Prod.mk.injEq] at weighed
    obtain ⟨_, _, key, _, q, required, rfl, rfl⟩ := weighed
    exact ⟨fun _ => ⟨q, rfl, isProbability_of_require required⟩, fun _ => ⟨key, rfl⟩⟩
  | undetermined => exact ⟨by simp, by simp⟩
  | and => exact ⟨by simp, by simp⟩
  | or => exact ⟨by simp, by simp⟩
  | not => exact ⟨by simp, by simp⟩

/-- What the circuit becomes when a record is taken. -/
theorem ingest_eq_ok (taken : (c.ingest record).1 = .ok gate) :
    record.check c = .ok () ∧ gate = (c.define record.id record.kind).1 ∧
      ∃ p key, record.weight = .ok (p, key) ∧
        (c.ingest record).2 = ((c.define record.id record.kind).2.setLabel gate p key).addNamedWires gate
          record.children := by
  unfold ingest at taken ⊢
  cases passed : record.check c with
  | error failure => simp [passed] at taken
  | ok done =>
    cases weighed : record.weight (α := α) with
    | error failure => simp [passed, weighed] at taken
    | ok label =>
      obtain ⟨p, key⟩ := label
      simp only [passed, weighed, Except.ok.injEq] at taken
      subst taken
      exact ⟨rfl, rfl, p, key, rfl, rfl⟩

/-- What is known of a circuit when it has taken a record for a gate: names get gates, and no other gate
changes. -/
structure Ingested (c : Circuit α) (record : Record) (gate : Nat) (c' : Circuit α) : Prop where
  tables : c'.Tables
  kept : ∀ name other, c.find? name = some other → c'.find? name = some other
  names : ∀ name, (c'.find? name).isSome ↔
    name ∈ record.children ∨ name = record.id ∨ (c.find? name).isSome
  named : (∀ other < c.size, ∃ name, c.find? name = some other) →
    ∀ other < c'.size, ∃ name, c'.find? name = some other
  found : c'.find? record.id = some gate
  free : c.kind gate = .undetermined
  determined : record.kind ≠ .undetermined
  arity : record.kind.Admits record.children.length
  kind : ∀ other, c'.kind other = if other = gate then record.kind else c.kind other
  children : ∃ targets : List Nat, record.children.map c'.find? = targets.map some ∧
    ∀ other, c'.children other = if other = gate then c.children gate ++ targets else c.children other
  label : ∃ p key, record.weight = .ok (p, key) ∧
    (∀ other, c'.prob other = if other = gate then p.getD (c.prob gate) else c.prob other) ∧
    ∀ other, c'.key? other = if other = gate then key.or (c.key? gate) else c.key? other

theorem ingested_of_ingest (tables : c.Tables) (taken : (c.ingest record).1 = .ok gate) :
    c.Ingested record gate (c.ingest record).2 := by
  obtain ⟨passed, rfl, p, key, weighed, result⟩ := ingest_eq_ok taken
  obtain ⟨free, determined, arity⟩ := check_eq_ok_iff.1 passed
  have small := fst_define_lt record.id record.kind tables
  have prob := fun other => prob_setLabel (c.define record.id record.kind).2 _ p key other
    ((tables.define record.id record.kind).inStep.probs.symm ▸ small)
  have tables' := (tables.define record.id record.kind).setLabel (c.define record.id record.kind).1 p key
  rw [← size_setLabel _ (c.define record.id record.kind).1 p key] at small
  obtain ⟨kept, names⟩ := find?_addNamedWires record.children tables' small
  obtain ⟨targets, listed, children⟩ := children_addNamedWires record.children tables' small
  have defined := find?_define record.id record.kind tables
  simp only [find?_setLabel, defined, children_setLabel, children_define] at kept names children
  rw [result]
  exact
    { tables := tables'.addNamedWires record.children small
      kept := fun name other found => kept name other (by
        split
        · rename_i same
          rw [fst_define_of_found record.id record.kind (same ▸ found)]
        · exact found)
      names := fun name => (names name).trans (or_congr_right (by
        split
        · rename_i same
          simp [same]
        · rename_i different
          simp [different]))
      named := fun named => named_addNamedWires record.children tables' small fun other small => by
        rw [find?_setLabel]
        exact named_intern record.id tables named other (by
          rwa [size_setLabel, Circuit.define, size_setKind] at small)
      found := kept record.id _ (if_pos rfl)
      free := kind_fst_define record.id record.kind free
      determined := determined
      arity := arity
      kind := fun other => by
        rw [kind_addNamedWires, kind_setLabel, kind_define record.id record.kind tables]
      children := ⟨targets, listed, children⟩
      label := ⟨p, key, weighed, fun other => by rw [prob_addNamedWires, prob other, prob_define],
        fun other => by rw [key?_addNamedWires, key?_setLabel, key?_define]⟩ }

/-- A circuit of records, whose wires may still form a cycle. -/
structure Drafted (c : Circuit α) : Prop where
  tables : c.Tables
  conforms : ∀ gate, c.Conforms gate

theorem drafted_empty : (empty : Circuit α).Drafted where
  tables := tables_empty
  conforms gate :=
    have kind : (empty : Circuit α).kind gate = .undetermined := kind_of_le (Nat.zero_le gate)
    { labelled_of_undetermined kind with arity := kind.symm ▸ rfl }

/-- A gate that is described had no children, since it was at most mentioned. -/
theorem Drafted.ingest (drafted : c.Drafted) (taken : (c.ingest record).1 = .ok gate) :
    (c.ingest record).2.Drafted := by
  have ingested := ingested_of_ingest drafted.tables taken
  obtain ⟨targets, named, children⟩ := ingested.children
  obtain ⟨p, key, weighed, prob, keyed⟩ := ingested.label
  have fits := labelFor_of_weight weighed
  refine ⟨ingested.tables, fun other => ?_⟩
  have kind := ingested.kind other
  have children := children other
  have prob := prob other
  have keyed := keyed other
  by_cases same : other = gate
  · have childless : c.children gate = [] := by
      have arity := (drafted.conforms gate).arity
      rw [ingested.free] at arity
      exact List.length_eq_zero_iff.1 arity
    rw [if_pos same] at kind children prob keyed
    refine ⟨⟨fun weighted => ?_, fun alternative => ?_⟩, ?_⟩
    · obtain ⟨q, rfl, probability⟩ := fits.probability (kind ▸ weighted)
      rw [prob]
      exact probability
    · obtain ⟨k, rfl⟩ := fits.key (kind ▸ alternative)
      exact ⟨k, keyed⟩
    · have count : targets.length = record.children.length := by
        simpa using (congrArg List.length named).symm
      rw [kind, children, childless, List.nil_append, count]
      exact ingested.arity
  · rw [if_neg same] at kind children prob keyed
    refine ⟨(drafted.conforms other).toLabelled.of_same kind prob keyed, ?_⟩
    rw [kind, children]
    exact (drafted.conforms other).arity

theorem Drafted.ingestLine {c' : Circuit α} {numbered : List UInt8 × Nat} (drafted : c.Drafted)
    (taken : c.ingestLine numbered = .ok c') : c'.Drafted := by
  obtain ⟨bytes, number⟩ := numbered
  simp only [Circuit.ingestLine, Outcome.within, Outcome.bind_eq_ok, Outcome.mapError_eq_ok] at taken
  obtain ⟨line, _, taken⟩ := taken
  split at taken
  · cases taken
    exact drafted
  · simp only [Outcome.bind_eq_ok, Outcome.mapError_eq_ok, Outcome.map_eq_ok] at taken
    obtain ⟨record, _, gate, taken, rfl⟩ := taken
    exact drafted.ingest taken

end Records

/-! ## Plain text -/

section PlainText

variable [Scalar α] {c' : Circuit α}

/-- What the circuit becomes when the line of a gate is taken. -/
theorem addGateLine_eq_ok {index number : Nat} {line : List Char}
    (taken : c.addGateLine index line number = .ok c') :
    ∃ kind p key, LabelFor kind p key ∧
      c' = (c.define (toString index) kind).2.setLabel (c.define (toString index) kind).1 p key := by
  simp only [addGateLine, Outcome.bind_eq_ok] at taken
  obtain ⟨⟨kind, numeral, word⟩, _, taken⟩ := taken
  simp only at taken
  split at taken
  · simp only [Outcome.bind_eq_ok, Except.ok.injEq] at taken
    obtain ⟨p, required, rfl⟩ := taken
    have probability := isProbability_of_require required
    exact ⟨.input, some p, none, ⟨fun _ => ⟨p, rfl, probability⟩, by simp⟩, rfl⟩
  · simp only [Outcome.bind_eq_ok, Except.ok.injEq] at taken
    obtain ⟨_, _, p, required, rfl⟩ := taken
    have probability := isProbability_of_require required
    exact ⟨.alternative, some p, some _, ⟨fun _ => ⟨p, rfl, probability⟩, fun _ => ⟨_, rfl⟩⟩, rfl⟩
  · cases taken
    exact ⟨.and, none, none, ⟨by simp, by simp⟩, rfl⟩
  · cases taken
    exact ⟨.or, none, none, ⟨by simp, by simp⟩, rfl⟩
  · cases taken
    exact ⟨.not, none, none, ⟨by simp, by simp⟩, rfl⟩
  · simp at taken

/-- A circuit of `count` gates that are labelled and whose names are their numbers. -/
structure Numbered (c : Circuit α) (count : Nat) : Prop where
  tables : c.Tables
  size : c.size = count
  names : ∀ name gate, c.find? name = some gate → name = toString gate
  labelled : ∀ gate, c.Labelled gate

theorem numbered_empty : (empty : Circuit α).Numbered 0 where
  tables := tables_empty
  size := rfl
  names name gate found := absurd (tables_empty.named name gate found) (Nat.not_lt_zero gate)
  labelled gate := labelled_of_undetermined (kind_of_le (Nat.zero_le gate))

theorem Numbered.find?_toString {count : Nat} (numbered : c.Numbered count) :
    c.find? (toString count) = none := by
  cases found : c.find? (toString count) with
  | none => rfl
  | some gate =>
    have digits := congrArg (fun name => Nat.ofDigitChars 10 name.toList 0) (numbered.names _ gate found)
    have same : count = gate := by
      simpa only [Nat.toString_eq_repr, Nat.toList_repr, Nat.ofDigitChars_ten_toDigits] using digits
    have small := numbered.tables.named _ gate found
    rw [numbered.size, ← same] at small
    exact absurd small (Nat.lt_irrefl count)

/-- The line of a gate adds the gate of the next number. -/
theorem Numbered.addGateLine {index number : Nat} {line : List Char} (numbered : c.Numbered index)
    (taken : c.addGateLine index line number = .ok c') : c'.Numbered (index + 1) := by
  obtain ⟨kind, p, key, fits, rfl⟩ := addGateLine_eq_ok taken
  have tables := numbered.tables
  obtain ⟨last, size⟩ := define_of_new (toString index) kind numbered.find?_toString
  refine ⟨(tables.define _ kind).setLabel _ p key, ?_, fun name gate found => ?_,
    labelled_setLabel_define _ tables numbered.labelled fits⟩
  · rw [size_setLabel, size, numbered.size]
  · rw [find?_setLabel, find?_define _ kind tables] at found
    split at found
    · rename_i same
      rw [same, ← Option.some.inj found, last, numbered.size]
    · exact numbered.names name gate found

theorem Numbered.addGateLines {count remaining index : Nat} {lines rest : List (List Char × Nat)}
    (numbered : c.Numbered index)
    (taken : addGateLines count remaining index lines c = .ok (c', rest)) :
    c'.Numbered (index + remaining) := by
  induction remaining generalizing c index lines with
  | zero =>
    cases taken
    exact numbered
  | succ remaining ih =>
    cases lines with
    | nil => simp [Circuit.addGateLines] at taken
    | cons line lines =>
      rw [Circuit.addGateLines, Outcome.bind_eq_ok] at taken
      obtain ⟨next, first, taken⟩ := taken
      rw [Nat.add_comm remaining, ← Nat.add_assoc]
      exact ih (numbered.addGateLine first) taken

/-- The wires of a text lead from gate to gate. -/
theorem Numbered.addWireLine {count : Nat} {line : List Char × Nat} (numbered : c.Numbered count)
    (taken : addWireLine count c line = .ok c') : c'.Numbered count := by
  simp only [Circuit.addWireLine, Outcome.bind_eq_ok, Outcome.require_eq_ok, Bool.and_eq_true,
    decide_eq_true_eq, Except.ok.injEq] at taken
  obtain ⟨⟨source, target⟩, _, _, ⟨small, small'⟩, rfl⟩ := taken
  rw [← numbered.size] at small small'
  exact
    { tables := numbered.tables.addWire small small'
      size := numbered.size
      names := numbered.names
      labelled := fun gate => (numbered.labelled gate).of_same rfl rfl rfl }

end PlainText

/-! ## What the readers accept -/

section Accepted

theorem Tables.wellFormed (tables : c.Tables) (checked : c.checkAcyclic = .ok ()) : c.WellFormed where
  inStep := tables.inStep
  acyclic := (Network.checkAcyclic_eq_ok_iff tables.inStep.even).1 checked
  within := tables.within

variable [Scalar α]

/-- A circuit of records conforms to the model of data. -/
theorem conforms_of_ofRecordLines {lines : List (List UInt8)} (read : ofRecordLines lines = .ok c) :
    c.WellFormed ∧ ∀ gate, c.Conforms gate := by
  simp only [ofRecordLines, Outcome.bind_eq_ok, Except.ok.injEq] at read
  obtain ⟨_, taken, _, checked, rfl⟩ := read
  have drafted := Outcome.foldlM_invariant (motive := Drafted)
    (fun _ _ _ drafted taken => drafted.ingestLine taken) drafted_empty taken
  exact ⟨drafted.tables.wellFormed checked, drafted.conforms⟩

/-- A circuit of plain text is well formed and labelled. -/
theorem labelled_of_ofText {text : String} (read : ofText text = .ok c) :
    c.WellFormed ∧ ∀ gate, c.Labelled gate := by
  unfold ofText at read
  cases content : contentLines text with
  | nil => simp [content] at read
  | cons first lines =>
    simp only [content, Outcome.bind_eq_ok, Except.ok.injEq] at read
    obtain ⟨count, _, ⟨_, rest⟩, gates, _, wires, _, checked, rfl⟩ := read
    have numbered := Outcome.foldlM_invariant (motive := fun c => c.Numbered (0 + count))
      (fun _ _ _ numbered taken => numbered.addWireLine ((Nat.zero_add count).symm ▸ taken))
      (numbered_empty.addGateLines gates) wires
    exact ⟨numbered.tables.wellFormed checked, numbered.labelled⟩

variable (α)

/-- What both readers give: a circuit without cycles whose inputs and alternatives are labelled, and from
records also the numbers of children that the kinds ask for. -/
theorem readers_accept :
    (∀ (lines : List (List UInt8)) (c : Circuit α), ofRecordLines lines = .ok c →
      c.WellFormed ∧ ∀ gate, c.Conforms gate) ∧
    ∀ (text : String) (c : Circuit α), ofText text = .ok c → c.WellFormed ∧ ∀ gate, c.Labelled gate :=
  ⟨fun _ _ => conforms_of_ofRecordLines, fun _ _ => labelled_of_ofText⟩

end Accepted

/-- A negation whose child is described after it. -/
def recordsOfNegation : List (List UInt8) :=
  ["[\"r\",\"NOT\",[\"a\"]]", "[\"a\",\"IN\",[],0.5]"].map fun line => line.toUTF8.toList

theorem readers_accept_negation :
    (∃ c : Circuit Rat, ofRecordLines recordsOfNegation = .ok c ∧ c.WellFormed ∧ c.Conforms 0) ∧
    ∃ c : Circuit Rat, ofText "2\nNOT\nIN 0.5\n0 1\n" = .ok c ∧ c.WellFormed ∧ c.Labelled 1 := by
  have records : (ofRecordLines recordsOfNegation : Outcome (Circuit Rat)).isOk = true := by decide +kernel
  have text : (ofText "2\nNOT\nIN 0.5\n0 1\n" : Outcome (Circuit Rat)).isOk = true := by decide +kernel
  constructor
  · cases read : (ofRecordLines recordsOfNegation : Outcome (Circuit Rat)) with
    | error failure => simp [read, Except.isOk, Except.toBool] at records
    | ok c =>
      obtain ⟨wellFormed, conforms⟩ := (readers_accept Rat).1 _ c read
      exact ⟨c, rfl, wellFormed, conforms 0⟩
  · cases read : (ofText "2\nNOT\nIN 0.5\n0 1\n" : Outcome (Circuit Rat)) with
    | error failure => simp [read, Except.isOk, Except.toBool] at text
    | ok c =>
      obtain ⟨wellFormed, labelled⟩ := (readers_accept Rat).2 _ c read
      exact ⟨c, rfl, wellFormed, labelled 1⟩

/-- Plain text may hold a negation without child. -/
theorem ofText_loneNegation : ∃ c : Circuit Rat, ofText "1\nNOT\n" = .ok c ∧
    c.kind 0 = .not ∧ c.children 0 = [] ∧ ¬ c.Conforms 0 := by
  have computed : ((ofText "1\nNOT\n" : Outcome (Circuit Rat)).toOption.map fun c =>
      (c.kind 0, c.children 0)) = some (.not, []) := by decide +kernel
  cases read : (ofText "1\nNOT\n" : Outcome (Circuit Rat)) with
  | error failure => simp [read, Except.toOption] at computed
  | ok c =>
    simp only [read, Except.toOption, Option.map_some, Option.some.injEq, Prod.mk.injEq] at computed
    obtain ⟨kind, childless⟩ := computed
    refine ⟨c, rfl, kind, childless, fun conforms => ?_⟩
    have arity := conforms.arity
    rw [kind, childless] at arity
    exact absurd arity Nat.zero_ne_one

end Circuit

end Provenance
