import Provenance.Circuit.ReadOnce
import Provenance.Proofs.Circuit.Likelihood
import Provenance.Proofs.Outcome

/-!
# Soundness of the closed form

A step of the closed form that succeeds computes the likelihood of an event about inputs and keys that are
read during the step only, and none of them before (`Accounts`).  Steps made one after the other are about
independent events, so their results multiply (`Accounts.and`).

The alternatives under a disjunction wait until the end and are read key by key.  Their weights add up as
long as none of them is there twice: then the closed form is the likelihood of the root whenever it succeeds
(`independentEvaluation_eq_likelihood`).  The evaluation does not look for alternatives that are there twice
(`independentEvaluation_doubleWire`).
-/

namespace Provenance.Circuit

open Provenance.Network

variable {c : Circuit Rat} {gate : Nat} {seen seen' seen'' : Seen} {e f : World → Bool} {p q : Rat}
  {V W K L : Finset Nat}

/-! ## What is read -/

/-- The variables for which inputs and keys stand: the inputs, and the alternatives of the keys. -/
def variablesOf (c : Circuit Rat) (V K : Finset Nat) : Set Nat :=
  {gate | gate ∈ V ∨ ∃ key ∈ K, gate ∈ c.alternativesOf key}

/-- Some inputs and keys, not read before, are read between two states. -/
structure Notes (c : Circuit Rat) (V K : Finset Nat) (seen seen' : Seen) : Prop where
  inputs : V ⊆ c.inputs.toFinset
  newInput : ∀ input ∈ V, input ∉ seen.inputs
  newKey : ∀ key ∈ K, key ∉ seen.keys
  readInput : ∀ input, input ∈ seen'.inputs ↔ input ∈ seen.inputs ∨ input ∈ V
  readKey : ∀ key, key ∈ seen'.keys ↔ key ∈ seen.keys ∨ key ∈ K

/-- What is computed between two states: the likelihood `p` of an event about inputs and keys that were not
read before and are read now. -/
def Accounts (c : Circuit Rat) (event : World → Bool) (p : Rat) (seen seen' : Seen) : Prop :=
  ∃ V K : Finset Nat, c.Notes V K seen seen' ∧ DependsOn event (c.variablesOf V K) ∧
    p = Provenance.likelihood c.prob c.inputs.toFinset c.alternativesOf c.keySet event

theorem variablesOf_mono (inputs : V ⊆ W) (keys : K ⊆ L) : c.variablesOf V K ⊆ c.variablesOf W L := by
  rintro variable_ (member | ⟨key, listed, member⟩)
  · exact Or.inl (inputs member)
  · exact Or.inr ⟨key, keys listed, member⟩

/-- Alternatives of other keys are not among the variables. -/
theorem notMem_variablesOf (inStep : c.InStep) (inputs : V ⊆ c.inputs.toFinset) {key : Nat}
    (absent : key ∉ K) (member : gate ∈ c.alternativesOf key) : gate ∉ c.variablesOf V K := by
  rintro (listed | ⟨other, listed, there⟩)
  · exact notMem_inputs_of_mem_alternativesOf inStep member (inputs listed)
  · have different : key ≠ other := fun same => absent (same ▸ listed)
    exact Finset.disjoint_left.1 (apart_alternativesOf c different) member there

namespace Notes

theorem nothing (c : Circuit Rat) (seen : Seen) : c.Notes ∅ ∅ seen seen where
  inputs := Finset.empty_subset _
  newInput _ none := absurd none (Finset.notMem_empty _)
  newKey _ none := absurd none (Finset.notMem_empty _)
  readInput input := (or_iff_left (Finset.notMem_empty input)).symm
  readKey key := (or_iff_left (Finset.notMem_empty key)).symm

theorem input (inStep : c.InStep) (kind : c.kind gate = .input)
    (read : seen.readInput gate = .ok seen') : c.Notes {gate} ∅ seen seen' := by
  unfold Seen.readInput at read
  split at read
  · simp at read
  · rename_i new
    obtain rfl := Except.ok.inj read
    refine
      { inputs := Finset.singleton_subset_iff.2 ((mem_inputs_toFinset inStep).2 kind)
        newInput := fun input listed => ?_
        newKey := fun _ none => absurd none (Finset.notMem_empty _)
        readInput := fun input => ?_
        readKey := fun key => (or_iff_left (Finset.notMem_empty key)).symm }
    · obtain rfl := Finset.mem_singleton.1 listed
      simpa using new
    · simp [or_comm]

theorem key {key : Nat} (read : seen.readKey key gate = .ok seen') : c.Notes ∅ {key} seen seen' := by
  unfold Seen.readKey at read
  split at read
  · simp at read
  · rename_i new
    obtain rfl := Except.ok.inj read
    refine
      { inputs := Finset.empty_subset _
        newInput := fun _ none => absurd none (Finset.notMem_empty _)
        newKey := fun other listed => ?_
        readInput := fun input => (or_iff_left (Finset.notMem_empty input)).symm
        readKey := fun other => ?_ }
    · obtain rfl := Finset.mem_singleton.1 listed
      simpa using new
    · simp [or_comm]

variable (first : c.Notes V K seen seen') (second : c.Notes W L seen' seen'')

include first second

theorem trans : c.Notes (V ∪ W) (K ∪ L) seen seen'' where
  inputs := Finset.union_subset first.inputs second.inputs
  newInput input member := by
    rcases Finset.mem_union.1 member with left | right
    · exact first.newInput input left
    · exact fun before => second.newInput input right ((first.readInput input).2 (Or.inl before))
  newKey key member := by
    rcases Finset.mem_union.1 member with left | right
    · exact first.newKey key left
    · exact fun before => second.newKey key right ((first.readKey key).2 (Or.inl before))
  readInput input := by rw [second.readInput, first.readInput, Finset.mem_union, or_assoc]
  readKey key := by rw [second.readKey, first.readKey, Finset.mem_union, or_assoc]

/-- Keys that the first step reads are not read by the second one. -/
theorem key_notMem {key : Nat} (member : key ∈ K) : key ∉ L := fun there =>
  second.newKey key there ((first.readKey key).2 (Or.inr member))

/-- The two steps read different variables. -/
theorem disjoint (inStep : c.InStep) : ∀ variable_ ∈ c.variablesOf V K, variable_ ∉ c.variablesOf W L := by
  rintro variable_ (member | ⟨key, listed, member⟩)
  · rintro (there | ⟨key, listed, there⟩)
    · exact second.newInput variable_ there ((first.readInput variable_).2 (Or.inr member))
    · exact notMem_inputs_of_mem_alternativesOf inStep there (first.inputs member)
  · exact notMem_variablesOf inStep second.inputs (first.key_notMem second listed) member

end Notes

namespace Accounts

theorem true_ : c.Accounts (fun _ => true) 1 seen seen :=
  ⟨∅, ∅, Notes.nothing c seen, fun _ _ _ => rfl, (likelihood_true (apart_alternativesOf c)).symm⟩

theorem input (inStep : c.InStep) (kind : c.kind gate = .input)
    (read : seen.readInput gate = .ok seen') :
    c.Accounts (fun world => world gate) (c.prob gate) seen seen' := by
  have depends : DependsOn (fun world : World => world gate) {gate} := fun _ _ same => same gate rfl
  refine ⟨{gate}, ∅, Notes.input inStep kind read, depends.mono fun variable_ same => ?_, ?_⟩
  · exact Or.inl (Finset.mem_singleton.2 same)
  · rw [likelihood_of_dependsOn (apart_alternativesOf c) depends fun key _ member there same => ?_]
    · exact (chance_input ((mem_inputs_toFinset inStep).2 kind)).symm
    · have is_input := (mem_inputs_toFinset inStep).2 kind
      rw [← Set.mem_singleton_iff.1 same] at is_input
      exact notMem_inputs_of_mem_alternativesOf inStep there is_input

/-- The alternatives of a key that are listed once each: whether one of them is true. -/
theorem any (inStep : c.InStep) {key : Nat} (present : key ∈ c.keySet) {members : List Nat}
    (nodup : members.Nodup) (inside : ∀ member ∈ members, member ∈ c.alternativesOf key)
    (read : seen.readKey key gate = .ok seen') :
    c.Accounts (fun world => members.any world) (members.map c.prob).sum seen seen' := by
  refine ⟨∅, {key}, Notes.key read, fun world world' same => ?_, ?_⟩
  · show members.any world = members.any world'
    rw [Bool.eq_iff_iff, List.any_eq_true, List.any_eq_true]
    refine exists_congr fun member => and_congr_right fun listed => ?_
    rw [same member (Or.inr ⟨key, Finset.mem_singleton_self key, inside member listed⟩)]
  · exact (likelihood_any (apart_alternativesOf c) present nodup inside fun member there =>
      notMem_inputs_of_mem_alternativesOf inStep there).symm

theorem not (first : c.Accounts e p seen seen') :
    c.Accounts (fun world => !e world) (1 - p) seen seen' := by
  obtain ⟨V, K, notes, depends, rfl⟩ := first
  exact ⟨V, K, notes, fun _ _ same => congrArg _ (depends same),
    (likelihood_not (apart_alternativesOf c)).symm⟩

/-- What the second step reads is new to it, so the events are independent. -/
theorem and (inStep : c.InStep) (first : c.Accounts e p seen seen')
    (second : c.Accounts f q seen' seen'') :
    c.Accounts (fun world => e world && f world) (p * q) seen seen'' := by
  obtain ⟨V, K, notes, depends, rfl⟩ := first
  obtain ⟨W, L, notes', depends', rfl⟩ := second
  refine ⟨V ∪ W, K ∪ L, notes.trans notes', fun world world' same => ?_, ?_⟩
  · have left : e world = e world' := depends fun variable_ member => same variable_
      (variablesOf_mono Finset.subset_union_left Finset.subset_union_left member)
    have right : f world = f world' := depends' fun variable_ member => same variable_
      (variablesOf_mono Finset.subset_union_right Finset.subset_union_right member)
    exact congrArg₂ (· && ·) left right
  · refine (likelihood_and (apart_alternativesOf c)
      (Set.disjoint_left.2 (notes.disjoint notes' inStep)) depends depends' fun key _ => ?_).symm
    by_cases listed : key ∈ K
    · exact Or.inr fun member =>
        notMem_variablesOf inStep notes'.inputs (notes.key_notMem notes' listed)
    · exact Or.inl fun member => notMem_variablesOf inStep notes.inputs listed

theorem congr (accounts : c.Accounts e p seen seen') (same : ∀ world, f world = e world)
    (equal : q = p) : c.Accounts f q seen seen' := by
  obtain rfl : f = e := funext same
  exact equal ▸ accounts

end Accounts

/-! ## The children of a gate -/

/-- What is computed for a gate: its likelihood, and that it is true or false in every world. -/
def Determines (c : Circuit Rat) (gate : Nat) (p : Rat) (seen seen' : Seen) : Prop :=
  (∀ world, c.Takes world gate (c.truth world gate)) ∧
    c.Accounts (fun world => c.truth world gate) p seen seen'

theorem Determines.of_takes {value : World → Bool} (takes : ∀ world, c.Takes world gate (value world))
    (accounts : c.Accounts value p seen seen') : c.Determines gate p seen seen' := by
  have same : ∀ world, c.truth world gate = value world := fun world => (takes world).truth_eq
  exact ⟨fun world => same world ▸ takes world, accounts.congr same rfl⟩

section Children

variable {depth : Nat} (inStep : c.InStep)

include inStep

/-- Children of a conjunction are all true, children of a disjunction that do not wait are all false, with
the product of the probabilities that were accumulated. -/
theorem readOnceAll_accounts {kind : Kind} (connective : kind = .and ∨ kind = .or) {children : List Nat}
    (below : ∀ child ∈ children, ∀ seen p seen', c.readOnce child depth seen = .ok (p, seen') →
      c.Determines child p seen seen') {accumulated result : Rat}
    (found : c.readOnceAll kind children depth seen accumulated = .ok (result, seen')) :
    (∀ child ∈ children, c.isDeferred kind child = false →
      ∀ world, c.Takes world child (c.truth world child)) ∧
    ∃ p, result = accumulated * p ∧ c.Accounts (fun world => children.all fun child =>
      c.isDeferred kind child || c.truth world child == decide (kind = .and)) p seen seen' := by
  induction children generalizing seen accumulated with
  | nil =>
    rw [readOnceAll] at found
    obtain ⟨rfl, rfl⟩ := Prod.mk.inj (Except.ok.inj found)
    exact ⟨fun _ none => absurd none List.not_mem_nil, 1, (mul_one _).symm, Accounts.true_⟩
  | cons child rest ih =>
    have below_rest := fun other listed => below other (List.mem_cons_of_mem child listed)
    rw [readOnceAll] at found
    split at found
    · rename_i deferred
      obtain ⟨takes, q, equal, accounts⟩ := ih below_rest found
      refine ⟨fun other listed waiting => ?_, q, equal, accounts.congr (fun world => ?_) rfl⟩
      · rcases List.mem_cons.1 listed with rfl | listed
        · rw [deferred] at waiting
          cases waiting
        · exact takes other listed waiting
      · simp [deferred]
    · rename_i present
      have present := Bool.eq_false_iff.2 present
      simp only [Outcome.bind_eq_ok] at found
      obtain ⟨⟨p, middle⟩, first, rest_found⟩ := found
      obtain ⟨decided, head⟩ := below child List.mem_cons_self seen p middle first
      obtain ⟨takes, q, equal, tail⟩ := ih below_rest rest_found
      refine ⟨fun other listed waiting => ?_, ?_⟩
      · rcases List.mem_cons.1 listed with rfl | listed
        · exact decided
        · exact takes other listed waiting
      · cases connective with
        | inl is_and =>
          subst is_and
          refine ⟨p * q, by rw [equal, ← mul_assoc]; rfl, ?_⟩
          refine (head.and inStep tail).congr (fun world => ?_) rfl
          simp [present]
        | inr is_or =>
          subst is_or
          refine ⟨(1 - p) * q, by rw [equal, ← mul_assoc]; rfl, ?_⟩
          refine (head.not.and inStep tail).congr (fun world => ?_) rfl
          simp [present]

omit inStep in
/-- The weights that have a key are added up. -/
theorem keyWeight_eq (key : Nat) (children : List Nat) : c.keyWeight key children =
    ((children.filter (c.key? · = some key)).map c.prob).sum := by
  have added : ∀ total, children.foldl
      (fun total child => if c.key? child = some key then total + c.prob child else total) total =
        total + ((children.filter (c.key? · = some key)).map c.prob).sum := by
    induction children with
    | nil => simp
    | cons child rest ih =>
      intro total
      rw [List.foldl_cons, ih]
      by_cases keyed : c.key? child = some key
      · simp [keyed, add_assoc]
      · simp [keyed]
  exact (added _).trans (zero_add _)

/-- No alternative that has one of the keys is true, with the product of the probabilities that were
accumulated. -/
theorem multiplyKeys_accounts {children : List Nat} (nodup : children.Nodup)
    (alternatives : ∀ child ∈ children, c.kind child = .alternative) {keys : List Nat}
    (present : ∀ key ∈ keys, key ∈ c.keySet) {accumulated result : Rat}
    (found : c.multiplyKeys gate children keys seen accumulated = .ok (result, seen')) :
    ∃ p, result = accumulated * p ∧ c.Accounts (fun world => keys.all fun key =>
      !(children.filter (c.key? · = some key)).any world) p seen seen' := by
  induction keys generalizing seen accumulated with
  | nil =>
    rw [multiplyKeys] at found
    obtain ⟨rfl, rfl⟩ := Prod.mk.inj (Except.ok.inj found)
    exact ⟨1, (mul_one _).symm, Accounts.true_⟩
  | cons key rest ih =>
    rw [multiplyKeys, Outcome.bind_eq_ok] at found
    obtain ⟨middle, read, rest_found⟩ := found
    have inside : ∀ member ∈ children.filter (c.key? · = some key), member ∈ c.alternativesOf key := by
      intro member listed
      obtain ⟨listed, keyed⟩ := List.mem_filter.1 listed
      exact (mem_alternativesOf inStep).2 ⟨alternatives member listed, of_decide_eq_true keyed⟩
    have head := Accounts.any inStep (present key List.mem_cons_self) (nodup.filter _) inside read
    obtain ⟨q, equal, tail⟩ := ih (fun other listed => present other (List.mem_cons_of_mem key listed))
      rest_found
    refine ⟨(1 - c.keyWeight key children) * q, by rw [equal, ← mul_assoc]; rfl, ?_⟩
    rw [keyWeight_eq]
    exact (head.not.and inStep tail).congr (fun world => by rw [List.all_cons]) rfl

/-- None of the alternatives among the children of a gate is true. -/
theorem noAlternative_accounts
    (nodup : ((c.children gate).filter (c.kind · == .alternative)).Nodup) {result : Rat}
    (found : c.noAlternative gate seen = .ok (result, seen')) :
    c.Accounts (fun world => ((c.children gate).filter (c.kind · == .alternative)).all
      fun child => !world child) result seen seen' := by
  have alternatives : ∀ child ∈ (c.children gate).filter (c.kind · == .alternative),
      c.kind child = .alternative := fun child listed => by simpa using (List.mem_filter.1 listed).2
  simp only [noAlternative, Outcome.bind_eq_ok] at found
  obtain ⟨keys, required, found⟩ := found
  obtain ⟨complete, sound⟩ := Outcome.mem_of_mapM required
  have keyed : ∀ child key, c.requireKey child = .ok key ↔ c.key? child = some key := fun child key =>
    Outcome.ofOption_eq_ok
  simp only [keyed] at complete sound
  have mem_keys : ∀ key, key ∈ (GateSet.ofList keys).toList ↔ key ∈ keys := fun key => by
    rw [← GateSet.mem_def, GateSet.mem_ofList]
  obtain ⟨q, equal, accounts⟩ := multiplyKeys_accounts inStep nodup alternatives (fun key listed => by
    obtain ⟨child, there, keyed⟩ := sound key ((mem_keys key).1 listed)
    exact (mem_keySet inStep).2 ⟨child, (mem_alternativesOf inStep).2 ⟨alternatives child there, keyed⟩⟩)
    found
  refine accounts.congr (fun world => ?_) (equal.trans (one_mul q))
  rw [Bool.eq_iff_iff, List.all_eq_true, List.all_eq_true]
  simp only [Bool.not_eq_true', List.any_eq_false, List.mem_filter, decide_eq_true_eq]
  constructor
  · intro none_true key _ child there
    rw [none_true child there.1]
    exact Bool.false_ne_true
  · intro none_true child there
    obtain ⟨key, listed, keyed⟩ := complete child (List.mem_filter.2 there)
    have false_ := none_true key ((mem_keys key).2 listed) child ⟨there, keyed⟩
    simpa using false_

end Children

/-! ## Gates -/

/-- No alternative stands twice under a disjunction that is reached. -/
def AlternativesOnce (c : Circuit Rat) (root : Nat) : Prop :=
  ∀ gate, c.Reaches root gate → c.kind gate = .or →
    ((c.children gate).filter (c.kind · == .alternative)).Nodup

theorem AlternativesOnce.child {root child : Nat} (once : c.AlternativesOnce root)
    (wire : child ∈ c.children root) : c.AlternativesOnce child :=
  fun gate path => once gate (Reaches.of_child wire path)

/-- A disjunction is true unless all children that do not wait and all alternatives are false. -/
theorem any_truth_eq (world : World) : (c.children gate).any (c.truth world) =
    !(((c.children gate).all fun child =>
        c.isDeferred .or child || c.truth world child == decide (Kind.or = .and)) &&
      ((c.children gate).filter (c.kind · == .alternative)).all fun child => !world child) := by
  have leaf : ∀ child, c.kind child = .alternative → c.truth world child = world child :=
    fun child kind => (Takes.alternative kind).truth_eq
  have none_true : (c.children gate).all (fun child => !c.truth world child) =
      (((c.children gate).all fun child =>
        c.isDeferred .or child || c.truth world child == decide (Kind.or = .and)) &&
      ((c.children gate).filter (c.kind · == .alternative)).all fun child => !world child) := by
    rw [Bool.eq_iff_iff, Bool.and_eq_true, List.all_eq_true, List.all_eq_true, List.all_eq_true]
    constructor
    · intro false_
      refine ⟨fun child wire => ?_, fun child listed => ?_⟩
      · have here := false_ child wire
        simp only [Bool.not_eq_true'] at here
        simp [here]
      · obtain ⟨wire, is_alternative⟩ := List.mem_filter.1 listed
        rw [← leaf child (by simpa using is_alternative)]
        exact false_ child wire
    · rintro ⟨others, alternatives⟩ child wire
      cases deferred : c.isDeferred .or child with
      | false => simpa [deferred] using others child wire
      | true =>
        have is_alternative : c.kind child = .alternative := by simpa [isDeferred] using deferred
        rw [leaf child is_alternative]
        exact alternatives child (List.mem_filter.2 ⟨wire, by simp [is_alternative]⟩)
  rw [← none_true, List.any_eq_not_all_not]

theorem readOnce_determines (inStep : c.InStep) {depth : Nat} (once : c.AlternativesOnce gate)
    (found : c.readOnce gate depth seen = .ok (p, seen')) : c.Determines gate p seen seen' := by
  induction depth generalizing gate seen p seen' with
  | zero => simp [readOnce] at found
  | succ depth ih =>
    have below : ∀ child ∈ c.children gate, ∀ seen p seen',
        c.readOnce child depth seen = .ok (p, seen') → c.Determines child p seen seen' :=
      fun child wire _ _ _ => ih (once.child wire)
    rw [readOnce] at found
    cases kind : c.kind gate with
    | input =>
      simp only [kind, Outcome.bind_eq_ok, Except.ok.injEq, Prod.mk.injEq] at found
      obtain ⟨_, read, rfl, rfl⟩ := found
      exact .of_takes (fun _ => .input kind) (Accounts.input inStep kind read)
    | alternative =>
      simp only [kind, Outcome.bind_eq_ok, Except.ok.injEq, Prod.mk.injEq] at found
      obtain ⟨key, keyed, _, read, rfl, rfl⟩ := found
      have member : gate ∈ c.alternativesOf key :=
        (mem_alternativesOf inStep).2 ⟨kind, Outcome.ofOption_eq_ok.1 keyed⟩
      have accounts := Accounts.any inStep ((mem_keySet inStep).2 ⟨gate, member⟩)
        (List.nodup_singleton gate) (fun other listed => List.mem_singleton.1 listed ▸ member) read
      exact .of_takes (fun _ => .alternative kind) (accounts.congr (fun world => by simp) (by simp))
    | and =>
      simp only [kind] at found
      obtain ⟨takes, q, equal, accounts⟩ := readOnceAll_accounts inStep (Or.inl rfl) below found
      have present : ∀ child, c.isDeferred .and child = false := fun _ => rfl
      refine .of_takes (fun world => .and kind fun child wire => takes child wire (present child) world)
        (accounts.congr (fun world => ?_) (equal.trans (one_mul q)))
      simp [present]
    | or =>
      simp only [kind, Outcome.bind_eq_ok] at found
      obtain ⟨⟨noChild, _⟩, first, ⟨noAlternative, _⟩, second, third⟩ := found
      obtain ⟨rfl, rfl⟩ := Prod.mk.inj (Except.ok.inj third)
      obtain ⟨takes, q, rfl, accounts⟩ := readOnceAll_accounts inStep (Or.inr rfl) below first
      have alternatives := noAlternative_accounts inStep (once gate (.refl gate) kind) second
      refine .of_takes (fun world => .or kind fun child wire => ?_)
        ((accounts.and inStep alternatives).not.congr any_truth_eq ?_)
      · cases deferred : c.isDeferred .or child with
        | false => exact takes child wire deferred world
        | true =>
          have is_alternative : c.kind child = .alternative := by simpa [isDeferred] using deferred
          have leaf : c.Takes world child (world child) := .alternative is_alternative
          rwa [leaf.truth_eq]
      · rw [Scalar.one_rat, one_mul]
        rfl
    | not =>
      simp only [kind, Outcome.bind_eq_ok] at found
      obtain ⟨child, only, ⟨q, _⟩, read, last⟩ := found
      have only := onlyChild_eq_ok.1 only
      obtain ⟨rfl, rfl⟩ := Prod.mk.inj (Except.ok.inj last)
      rw [readOnceAll, if_neg (by simp [isDeferred]), Outcome.bind_eq_ok] at read
      obtain ⟨⟨_, _⟩, first, rest⟩ := read
      simp only [readOnceAll, Except.ok.injEq, Prod.mk.injEq] at rest
      obtain ⟨rfl, rfl⟩ := rest
      obtain ⟨takes, accounts⟩ := below child (by simp [only]) _ _ _ first
      exact .of_takes (fun world => .not kind only (takes world)) accounts.not
    | undetermined => simp [kind] at found

/-! ## Disjunctions of alternatives -/

/-- Children that wait change nothing. -/
theorem readOnceAll_of_isDeferred {kind : Kind} {children : List Nat} {depth : Nat} {accumulated : Rat}
    (deferred : ∀ child ∈ children, c.isDeferred kind child = true) :
    c.readOnceAll kind children depth seen accumulated = .ok (accumulated, seen) := by
  induction children with
  | nil => rw [readOnceAll]
  | cons child rest ih =>
    rw [readOnceAll, if_pos (deferred child List.mem_cons_self)]
    exact ih fun other listed => deferred other (List.mem_cons_of_mem child listed)

/-- A disjunction of alternatives only is false when none of them is true. -/
theorem independentEvaluation_of_alternatives (kind : c.kind gate = .or)
    (alternatives : ∀ child ∈ c.children gate, c.kind child = .alternative) :
    c.independentEvaluation gate = (c.noAlternative gate .nothing).map fun none_ => 1 - none_.1 := by
  have deferred : ∀ child ∈ c.children gate, c.isDeferred .or child = true := fun child wire => by
    simp [isDeferred, alternatives child wire]
  rw [independentEvaluation, readOnce, kind]
  simp only [readOnceAll_of_isDeferred deferred]
  show Except.map _ (c.noAlternative gate .nothing >>= fun none_ =>
    .ok (Scalar.complement (Scalar.one * none_.1), none_.2)) = _
  cases c.noAlternative gate .nothing with
  | error failure => rfl
  | ok none_ =>
    show Except.ok (1 - 1 * none_.1) = Except.ok (1 - none_.1)
    rw [one_mul]

/-! ## The evaluation of a root -/

theorem independentEvaluation_determines (inStep : c.InStep) {root : Nat} (once : c.AlternativesOnce root)
    (found : c.independentEvaluation root = .ok p) : ∃ seen, c.Determines root p .nothing seen := by
  rw [independentEvaluation, Outcome.map_eq_ok] at found
  obtain ⟨⟨q, seen⟩, read, rfl⟩ := found
  exact ⟨seen, readOnce_determines inStep once read⟩

/-- The closed form never gives a wrong likelihood when no alternative stands twice under a disjunction. -/
theorem independentEvaluation_eq_likelihood (inStep : c.InStep) {root : Nat} (once : c.AlternativesOnce root)
    (found : c.independentEvaluation root = .ok p) :
    (∀ world, c.Takes world root (c.truth world root)) ∧ p = c.likelihood root := by
  obtain ⟨_, takes, _, _, _, _, equal⟩ := independentEvaluation_determines inStep once found
  exact ⟨takes, equal⟩

theorem alternativesOnce_choicePair : choicePair.AlternativesOnce 2 := by
  have once : ∀ gate < 3, ((choicePair.children gate).filter (choicePair.kind · == .alternative)).Nodup := by
    decide
  exact fun gate _ kind => once gate (lt_of_kind (by rw [kind]; decide))

/-- The weights of two alternatives of one key add up. -/
theorem independentEvaluation_choicePair :
    choicePair.InStep ∧ choicePair.AlternativesOnce 2 ∧ choicePair.independentEvaluation 2 = .ok (2 / 5) ∧
      (∀ world, choicePair.Takes world 2 (choicePair.truth world 2)) ∧ 2 / 5 = choicePair.likelihood 2 :=
  have found : choicePair.independentEvaluation 2 = .ok (2 / 5) := by
    rw [independentEvaluation_of_alternatives rfl (by decide)]
    decide +kernel
  ⟨wellFormed_choicePair.inStep, alternativesOnce_choicePair, found,
    independentEvaluation_eq_likelihood wellFormed_choicePair.inStep alternativesOnce_choicePair found⟩

/-- A disjunction that has an alternative as its child twice. -/
def doubleWire : Circuit Rat :=
  ((((empty.addGate .alternative).2.addNode .or [0, 0]).2.setProb 0 (1 / 2)).setKey 0 7)

theorem wellFormed_doubleWire : doubleWire.WellFormed := by
  have gates := (inStep_empty (α := Rat)).addGate .alternative
  have inStep : doubleWire.InStep := ((InStep.addNode _ _ _ gates).setProb _).setKey _
  exact inStep.wellFormed (by decide)

/-- An alternative that stands twice under a disjunction is counted twice, and the evaluation does not
fail. -/
theorem independentEvaluation_doubleWire :
    doubleWire.WellFormed ∧ doubleWire.independentEvaluation 1 = .ok 1 ∧ doubleWire.likelihood 1 = 1 / 2 := by
  have inStep := wellFormed_doubleWire.inStep
  have member : 0 ∈ doubleWire.alternativesOf 7 := by decide
  have alternatives : ∀ child ∈ doubleWire.children 1, doubleWire.kind child = .alternative := by decide
  have same : (fun world => doubleWire.truth world 1) = fun world => [0].any world := by
    funext world
    have takes : doubleWire.Takes world 1 ((doubleWire.children 1).any world) :=
      .or rfl fun child wire => .alternative (alternatives child wire)
    have children : doubleWire.children 1 = [0, 0] := rfl
    rw [takes.truth_eq, children]
    simp
  have found : doubleWire.independentEvaluation 1 = .ok 1 := by
    rw [independentEvaluation_of_alternatives rfl alternatives]
    decide +kernel
  refine ⟨wellFormed_doubleWire, found, ?_⟩
  rw [likelihood, same, likelihood_any (apart_alternativesOf doubleWire)
    ((mem_keySet inStep).2 ⟨0, member⟩) (List.nodup_singleton 0)
    (fun other listed => List.mem_singleton.1 listed ▸ member)
    fun other there => notMem_inputs_of_mem_alternativesOf inStep there]
  have prob : doubleWire.prob 0 = 1 / 2 := rfl
  simp [prob]

/-- Without alternatives the closed form never gives a wrong chance. -/
theorem independentEvaluation_eq_chance (inStep : c.InStep)
    (boolean : ∀ gate, c.kind gate ≠ .alternative) {root : Nat} (formula : c.IsFormula root)
    (found : c.independentEvaluation root = .ok p) : p = c.chance root := by
  have once : c.AlternativesOnce root := fun gate _ _ => by
    have none : (c.children gate).filter (c.kind · == .alternative) = [] := by simp [boolean]
    rw [none]
    exact List.nodup_nil
  rw [← likelihood_eq_chance inStep boolean formula]
  obtain ⟨_, _, _, _, _, _, equal⟩ := independentEvaluation_determines inStep once found
  exact equal

end Provenance.Circuit
