import Provenance.Proofs.Circuit.Renumbering
import Provenance.Proofs.Readers

/-!
# Circuits of records

A circuit describes records when its gates are those that the records name: the gate of a record is as the
record says, and the gates that are mentioned only are bare (`Describes`).  Nothing of this speaks of the
numbers of the gates or of the order of the records.  A record can be taken when it is sound by itself and its
name is not that of an earlier one (`Describes.exists_ingest_iff`), so circuits of the same records are the
same but for the numbers of their gates (`Describes.renumbers`).
-/

namespace Provenance.Circuit

variable {α : Type} [Scalar α] {c c' : Circuit α} {gate : Nat} {record : Record}

/-- A record that can be taken when its name is new. -/
structure Takable (α : Type) [Scalar α] (record : Record) : Prop where
  determined : record.kind ≠ .undetermined
  arity : record.kind.Admits record.children.length
  weight : ∃ label, record.weight (α := α) = .ok label

/-- A gate is as a record says. -/
structure Follows (c : Circuit α) (gate : Nat) (record : Record) : Prop where
  kind : c.kind gate = record.kind
  determined : record.kind ≠ .undetermined
  children : record.children.map c.find? = (c.children gate).map some
  label : ∃ p key, record.weight = .ok (p, key) ∧ c.prob gate = p.getD Scalar.one ∧ c.key? gate = key

/-- The label that a record gives is the same in each circuit. -/
theorem Follows.label_eq {gate' : Nat} (follows : c.Follows gate record) (follows' : c'.Follows gate' record) :
    c'.prob gate' = c.prob gate ∧ c'.key? gate' = c.key? gate := by
  obtain ⟨p, key, weighed, prob, keyed⟩ := follows.label
  obtain ⟨p', key', weighed', prob', keyed'⟩ := follows'.label
  obtain ⟨rfl, rfl⟩ := Prod.mk.inj (Except.ok.inj (weighed.symm.trans weighed'))
  exact ⟨prob'.trans prob.symm, keyed'.trans keyed.symm⟩

/-- A gate of which nothing is known. -/
structure Bare (c : Circuit α) (gate : Nat) : Prop where
  kind : c.kind gate = .undetermined
  children : c.children gate = []
  prob : c.prob gate = Scalar.one
  key? : c.key? gate = none

/-- The gates of a circuit are those that some records name, and each is as its record says. -/
structure Describes (c : Circuit α) (records : List Record) : Prop where
  tables : c.Tables
  named : ∀ gate < c.size, ∃ name, c.find? name = some gate
  names : ∀ name, (c.find? name).isSome ↔ ∃ record ∈ records, name = record.id ∨ name ∈ record.children
  follows : ∀ record ∈ records, ∀ gate, c.find? record.id = some gate → c.Follows gate record
  bare : ∀ gate, (∀ record ∈ records, c.find? record.id ≠ some gate) → c.Bare gate

theorem describes_empty : (empty : Circuit α).Describes [] where
  tables := tables_empty
  named gate small := absurd small (Nat.not_lt_zero gate)
  names name := by
    have none_ : (empty : Circuit α).find? name = none := by
      show (∅ : Std.TreeMap String Nat)[name]? = none
      simp
    simp [none_]
  follows _ none := absurd none List.not_mem_nil
  bare gate _ :=
    { kind := kind_of_le (Nat.zero_le gate)
      children := Network.children_eq_nil_of_le (Nat.zero_le gate)
      prob := by
        show (#[] : Array α).getD gate Scalar.one = Scalar.one
        simp
      key? := by
        show (∅ : Std.TreeMap Nat Nat)[gate]? = none
        simp }

/-! ## Taking a record -/

theorem exists_ingest_iff : (∃ gate, (c.ingest record).1 = .ok gate) ↔
    (∀ gate, c.find? record.id = some gate → c.kind gate = .undetermined) ∧ Takable α record := by
  constructor
  · rintro ⟨gate, taken⟩
    obtain ⟨passed, _, p, key, weighed, _⟩ := ingest_eq_ok taken
    obtain ⟨free, determined, arity⟩ := check_eq_ok_iff.1 passed
    exact ⟨free, determined, arity, (p, key), weighed⟩
  · rintro ⟨free, determined, arity, ⟨p, key⟩, weighed⟩
    have passed := check_eq_ok_iff.2 ⟨free, determined, arity⟩
    unfold ingest
    rw [passed, weighed]
    exact ⟨_, rfl⟩

omit [Scalar α] in
/-- The children that a record names have their gates still when more names get gates. -/
theorem map_find?_of_kept (kept : ∀ name target, c.find? name = some target → c'.find? name = some target)
    {names : List String} {targets : List Nat} (listed : names.map c.find? = targets.map some) :
    names.map c'.find? = targets.map some := by
  rw [← listed]
  refine List.map_congr_left fun name member => ?_
  have found : c.find? name ∈ targets.map some := listed ▸ List.mem_map_of_mem member
  obtain ⟨target, _, same⟩ := List.mem_map.1 found
  rw [← same, kept name target same.symm]

/-- Other gates than that of the record are as they were. -/
theorem Ingested.unchanged {other : Nat} (ingested : c.Ingested record gate c') (different : other ≠ gate) :
    c'.kind other = c.kind other ∧ c'.children other = c.children other ∧
      c'.prob other = c.prob other ∧ c'.key? other = c.key? other := by
  obtain ⟨targets, _, children⟩ := ingested.children
  obtain ⟨_, _, _, prob, key⟩ := ingested.label
  rw [ingested.kind, children, prob, key, if_neg different, if_neg different, if_neg different, if_neg different]
  exact ⟨rfl, rfl, rfl, rfl⟩

theorem Ingested.follows {other : Nat} {earlier : Record} (ingested : c.Ingested record gate c')
    (different : other ≠ gate) (follows : c.Follows other earlier) : c'.Follows other earlier := by
  obtain ⟨kind, children, prob, key⟩ := ingested.unchanged different
  refine ⟨kind.trans follows.kind, follows.determined, ?_, ?_⟩
  · rw [children]
    exact map_find?_of_kept ingested.kept follows.children
  · rw [prob, key]
    exact follows.label

theorem Ingested.bare {other : Nat} (ingested : c.Ingested record gate c') (different : other ≠ gate)
    (bare : c.Bare other) : c'.Bare other := by
  obtain ⟨kind, children, prob, key⟩ := ingested.unchanged different
  exact ⟨kind.trans bare.kind, children.trans bare.children, prob.trans bare.prob, key.trans bare.key?⟩

/-- The gate of the record is as it says when nothing was known of it. -/
theorem Ingested.follows_new (ingested : c.Ingested record gate c') (bare : c.Bare gate) :
    c'.Follows gate record := by
  obtain ⟨targets, listed, children⟩ := ingested.children
  obtain ⟨p, key, weighed, prob, keyed⟩ := ingested.label
  refine ⟨?_, ingested.determined, ?_, p, key, weighed, ?_, ?_⟩
  · rw [ingested.kind, if_pos rfl]
  · rw [children, if_pos rfl, bare.children, List.nil_append, listed]
  · rw [prob, if_pos rfl, bare.prob]
  · rw [keyed, if_pos rfl, bare.key?, Option.or_none]

namespace Describes

variable {records : List Record}

/-- The name of a record is new when no earlier record has it. -/
theorem free_iff (describes : c.Describes records) (name : String) :
    (∀ gate, c.find? name = some gate → c.kind gate = .undetermined) ↔ ∀ record ∈ records, record.id ≠ name := by
  constructor
  · intro free record member same
    have there : (c.find? record.id).isSome := (describes.names _).2 ⟨record, member, Or.inl rfl⟩
    obtain ⟨gate, found⟩ := Option.isSome_iff_exists.1 there
    have follows := describes.follows record member gate found
    exact follows.determined (follows.kind ▸ free gate (same ▸ found))
  · intro new gate found
    exact (describes.bare gate fun record member found' =>
      new record member (describes.tables.eq_of_find? found' found)).kind

/-- The record is taken when it is sound by itself and none has its name. -/
theorem exists_ingest_iff (describes : c.Describes records) : (∃ gate, (c.ingest record).1 = .ok gate) ↔
    (∀ other ∈ records, other.id ≠ record.id) ∧ Takable α record := by
  rw [Circuit.exists_ingest_iff, describes.free_iff]

theorem ingest (describes : c.Describes records) (taken : (c.ingest record).1 = .ok gate) :
    (c.ingest record).2.Describes (record :: records) := by
  have ingested := ingested_of_ingest describes.tables taken
  generalize (c.ingest record).2 = c' at ingested
  have there : ∀ other ∈ records, ∃ target, c.find? other.id = some target := fun other member =>
    Option.isSome_iff_exists.1 ((describes.names _).2 ⟨other, member, Or.inl rfl⟩)
  -- an earlier record has another gate, for that of the new one was not determined
  have apart : ∀ other ∈ records, ∀ target, c.find? other.id = some target → target ≠ gate := by
    rintro other member _ found rfl
    have follows := describes.follows other member _ found
    exact follows.determined (follows.kind ▸ ingested.free)
  refine ⟨ingested.tables, ingested.named describes.named, fun name => ?_, fun other member target found => ?_,
    fun target unnamed => ?_⟩
  · rw [ingested.names, describes.names, List.exists_mem_cons_iff, ← or_assoc, or_comm (a := name ∈ _)]
  · rcases List.mem_cons.1 member with rfl | member
    · obtain rfl := Option.some.inj (found.symm.trans ingested.found)
      exact ingested.follows_new (describes.bare target fun other member found =>
        apart other member target found rfl)
    · obtain ⟨target', found'⟩ := there other member
      obtain rfl := Option.some.inj (found.symm.trans (ingested.kept _ _ found'))
      exact ingested.follows (apart other member target found') (describes.follows other member target found')
  · have different : target ≠ gate := by
      rintro rfl
      exact unnamed record List.mem_cons_self ingested.found
    refine ingested.bare different (describes.bare target fun other member found => ?_)
    exact unnamed other (List.mem_cons_of_mem record member) (ingested.kept _ _ found)

/-! ## Two circuits of the same records -/

variable {records' : List Record}

/-- The gate of the other circuit with the name of a gate. -/
def counterpart (c c' : Circuit α) (gate : Nat) : Nat := ((c.name? gate).bind c'.find?).getD 0

/-- The name of a gate has a gate in the other circuit, which is the counterpart. -/
theorem exists_counterpart (describes : c.Describes records) (describes' : c'.Describes records')
    (same : ∀ record, record ∈ records ↔ record ∈ records') (small : gate < c.size) :
    ∃ name, c.find? name = some gate ∧ c'.find? name = some (counterpart c c' gate) := by
  obtain ⟨name, found⟩ := describes.named gate small
  have known : (c'.find? name).isSome := by
    rw [describes'.names]
    obtain ⟨record, member, named⟩ := (describes.names name).1 (found ▸ rfl)
    exact ⟨record, (same record).1 member, named⟩
  obtain ⟨target, found'⟩ := Option.isSome_iff_exists.1 known
  refine ⟨name, found, ?_⟩
  have called : c.name? gate = some name := (describes.tables.inStep.naming name gate).1 found
  rw [counterpart, called, Option.bind_some, found', Option.getD_some]

theorem counterpart_of_find? (describes : c.Describes records) {name : String} {gate' : Nat}
    (found : c.find? name = some gate) (found' : c'.find? name = some gate') : counterpart c c' gate = gate' := by
  have called : c.name? gate = some name := (describes.tables.inStep.naming name gate).1 found
  rw [counterpart, called, Option.bind_some, found', Option.getD_some]

theorem map_counterpart (describes : c.Describes records) {names : List String} {targets targets' : List Nat}
    (listed : names.map c.find? = targets.map some) (listed' : names.map c'.find? = targets'.map some) :
    targets' = targets.map (counterpart c c') := by
  induction names generalizing targets targets' with
  | nil =>
    rw [List.map_nil, eq_comm, List.map_eq_nil_iff] at listed listed'
    rw [listed, listed', List.map_nil]
  | cons name names ih =>
    rw [List.map_cons, eq_comm, List.map_eq_cons_iff] at listed listed'
    obtain ⟨target, targets, rfl, found, listed⟩ := listed
    obtain ⟨target', targets', rfl, found', listed'⟩ := listed'
    rw [List.map_cons, counterpart_of_find? describes found.symm found'.symm, ih listed.symm listed'.symm]

/-- A gate and its counterpart are as one record says, or both are bare. -/
theorem follows_or_bare (describes : c.Describes records) (describes' : c'.Describes records')
    (same : ∀ record, record ∈ records ↔ record ∈ records') (small : gate < c.size) :
    (∃ record, c.Follows gate record ∧ c'.Follows (counterpart c c' gate) record) ∨
      (c.Bare gate ∧ c'.Bare (counterpart c c' gate)) := by
  obtain ⟨name, found, found'⟩ := describes.exists_counterpart describes' same small
  by_cases described : ∃ record ∈ records, record.id = name
  · obtain ⟨record, member, rfl⟩ := described
    exact Or.inl ⟨record, describes.follows record member gate found,
      describes'.follows record ((same record).1 member) _ found'⟩
  · refine Or.inr ⟨describes.bare gate fun record member there => described ⟨record, member, ?_⟩,
      describes'.bare _ fun record member there => described ⟨record, (same record).2 member, ?_⟩⟩
    · exact describes.tables.eq_of_find? there found
    · exact describes'.tables.eq_of_find? there found'

/-- Different gates have different counterparts, and each gate of the other circuit is one. -/
theorem bijOn_counterpart (describes : c.Describes records) (describes' : c'.Describes records')
    (same : ∀ record, record ∈ records ↔ record ∈ records') :
    Set.BijOn (counterpart c c') {gate | gate < c.size} {gate | gate < c'.size} := by
  refine ⟨fun gate small => ?_, fun gate small other small' equal => ?_, fun gate' small => ?_⟩
  · obtain ⟨name, _, found'⟩ := describes.exists_counterpart describes' same small
    exact describes'.tables.named name _ found'
  · obtain ⟨name, found, found'⟩ := describes.exists_counterpart describes' same small
    obtain ⟨name', other_found, other_found'⟩ := describes.exists_counterpart describes' same small'
    obtain rfl := describes'.tables.eq_of_find? found' (equal ▸ other_found')
    exact Option.some.inj (found.symm.trans other_found)
  · obtain ⟨name, found', found⟩ := describes'.exists_counterpart describes (fun record => (same record).symm) small
    exact ⟨_, describes.tables.named name _ found, counterpart_of_find? describes found found'⟩

/-- Circuits of the same records are the same but for the numbers of their gates. -/
theorem renumbers (describes : c.Describes records) (describes' : c'.Describes records')
    (same : ∀ record, record ∈ records ↔ record ∈ records') : c.Renumbers c' (counterpart c c') where
  bijOn := describes.bijOn_counterpart describes' same
  name? gate small := by
    obtain ⟨name, found, found'⟩ := describes.exists_counterpart describes' same small
    exact ((describes'.tables.inStep.naming name _).1 found').trans
      ((describes.tables.inStep.naming name gate).1 found).symm
  kind gate small := by
    rcases describes.follows_or_bare describes' same small with ⟨record, follows, follows'⟩ | ⟨bare, bare'⟩
    · rw [follows.kind, follows'.kind]
    · rw [bare.kind, bare'.kind]
  children gate small := by
    rcases describes.follows_or_bare describes' same small with ⟨record, follows, follows'⟩ | ⟨bare, bare'⟩
    · exact map_counterpart describes follows.children follows'.children
    · rw [bare.children, bare'.children, List.map_nil]
  prob gate small := by
    rcases describes.follows_or_bare describes' same small with ⟨record, follows, follows'⟩ | ⟨bare, bare'⟩
    · exact (follows.label_eq follows').1
    · rw [bare.prob, bare'.prob]
  key? gate small := by
    rcases describes.follows_or_bare describes' same small with ⟨record, follows, follows'⟩ | ⟨bare, bare'⟩
    · exact (follows.label_eq follows').2
    · rw [bare.key?, bare'.key?]

end Describes

end Provenance.Circuit
