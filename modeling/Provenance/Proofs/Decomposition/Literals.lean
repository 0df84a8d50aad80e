import Provenance.Proofs.Circuit.Variable
import Provenance.Proofs.Decomposition.Spread
import Provenance.Proofs.Decomposition.Target

/-!
# Literals

Before the entries are found each input of the circuit gets a leaf and its literals.  In the table of
leaves an input is alone in its leaf, and every input with such a leaf is there
(`responsibleLeaves_spec`).  The literals are an input with the same name and the same probability and
the negation behind it (`Literal`).  The result has no other inputs and no other names (`Spelled`), so
names stay with their owners when one more input is spelled (`Spelled.step`).
-/

namespace Provenance.Compilation

open Provenance.Circuit Provenance.Decomposition

variable {α : Type}

/-! ## Responsible leaves -/

/-- The table of leaves has each input that is alone in a leaf, and such a leaf for it. -/
theorem responsibleLeaves_spec (c : Circuit α) (tree : Decomposition) :
    (∀ (input leaf : Nat), (responsibleLeaves c tree)[input]? = some leaf →
      c.kind input = .input ∧ leaf < tree.size ∧ tree.children leaf = [] ∧
        tree.bag leaf = .singleton input) ∧
    ∀ leaf < tree.size, tree.children leaf = [] → ∀ input, tree.bag leaf = .singleton input →
      c.kind input = .input → ∃ leaf', (responsibleLeaves c tree)[input]? = some leaf' := by
  unfold responsibleLeaves
  refine foldl_range_induction (fun count table =>
    (∀ (input leaf : Nat), table[input]? = some leaf → c.kind input = .input ∧ leaf < tree.size ∧
      tree.children leaf = [] ∧ tree.bag leaf = .singleton input) ∧
    ∀ leaf < count, tree.children leaf = [] → ∀ input, tree.bag leaf = .singleton input →
      c.kind input = .input → ∃ leaf', table[input]? = some leaf') ?_ ?_
  · refine ⟨fun input leaf found => ?_, fun leaf before => absurd before (Nat.not_lt_zero leaf)⟩
    simp at found
  · rintro b inside table ⟨sound, complete⟩
    -- a bag that is no leaf of an input leaves the table as it is
    have kept : ¬ (tree.children b = [] ∧ ∃ gate, (tree.bag b).toList = [gate] ∧
          c.kind gate = .input) →
        ∀ leaf < b + 1, tree.children leaf = [] → ∀ input, tree.bag leaf = .singleton input →
          c.kind input = .input → ∃ leaf', table[input]? = some leaf' := by
      intro other leaf before childless input bag kind
      rcases Nat.lt_succ_iff_lt_or_eq.1 before with before | rfl
      · exact complete leaf before childless input bag kind
      · exact absurd ⟨childless, input, by rw [bag]; rfl, kind⟩ other
    split
    · rename_i gate childless only
      split
      · rename_i is_input
        refine ⟨fun input leaf found => ?_, fun leaf before childless' input bag kind => ?_⟩
        · rw [Std.TreeMap.getElem?_insert] at found
          split at found
          · rename_i same
            obtain rfl := Nat.compare_eq_eq.1 same
            obtain rfl := Option.some.inj found
            exact ⟨is_input, inside, childless, GateSet.eq_singleton_of_toList only⟩
          · exact sound input leaf found
        · rw [Std.TreeMap.getElem?_insert]
          split
          · exact ⟨b, rfl⟩
          · rename_i different
            rcases Nat.lt_succ_iff_lt_or_eq.1 before with before | rfl
            · exact complete leaf before childless' input bag kind
            · rw [bag] at only
              obtain rfl : input = gate := List.singleton_inj.1 only
              exact absurd (Nat.compare_eq_eq.2 rfl) different
      · rename_i no_input
        refine ⟨sound, kept ?_⟩
        rintro ⟨_, other, only', kind⟩
        rw [only, List.singleton_inj] at only'
        exact no_input (only' ▸ kind)
    · rename_i other
      exact ⟨sound, kept fun ⟨childless, gate, only, _⟩ => other gate childless only⟩

variable [Scalar α]

section AddLiterals

variable (c target : Circuit α) (input : Nat)

/-- The literals of an input are a new input and its negation. -/
theorem addLiterals_cons {responsible : Std.TreeMap Nat Nat} (contained : responsible.contains input)
    (rest : List Nat) (literals : Std.TreeMap Nat (Nat × Nat)) :
    addLiterals c responsible (input :: rest) literals target =
      addLiterals c responsible rest
        (literals.insert input (target.size, (addVariable c target input).size))
        ((addVariable c target input).addNode .not [target.size]).2 := by
  rw [addLiterals, Outcome.require, if_pos contained]
  rfl

end AddLiterals

/-! ## Literals of inputs -/

/-- The two gates of an input: an input with its name and its probability, and the negation. -/
structure Literal (c target : Circuit α) (input positive negative : Nat) : Prop where
  negative_lt : negative < target.size
  earlier : positive < negative
  kind_positive : target.kind positive = .input
  children_positive : target.children positive = []
  kind_negative : target.kind negative = .not
  children_negative : target.children negative = [positive]
  name? : target.name? positive = c.name? input
  prob : target.prob positive = c.prob input

theorem Literal.of_extends {c target target' : Circuit α} {input positive negative : Nat}
    (literal : Literal c target input positive negative) (extends_ : target.Extends target') :
    Literal c target' input positive negative := by
  have negative_lt := literal.negative_lt
  have positive_lt := literal.earlier.trans negative_lt
  exact
    { negative_lt := negative_lt.trans_le extends_.size_le
      earlier := literal.earlier
      kind_positive := (extends_.kind _ positive_lt).trans literal.kind_positive
      children_positive := (extends_.children _ positive_lt).trans literal.children_positive
      kind_negative := (extends_.kind _ negative_lt).trans literal.kind_negative
      children_negative := (extends_.children _ negative_lt).trans literal.children_negative
      name? := (extends_.name? _ positive_lt).trans literal.name?
      prob := (extends_.prob _ positive_lt).trans literal.prob }

/-- The inputs that were done have their literals, and the result has no other inputs and no other
names. -/
structure Spelled (c : Circuit α) (done : List Nat) (literals : Std.TreeMap Nat (Nat × Nat))
    (target : Circuit α) : Prop where
  sound : target.Sound
  found : ∀ (input : Nat), input ∈ done ↔ ∃ pair, literals[input]? = some pair
  literal : ∀ (input positive negative : Nat), literals[input]? = some (positive, negative) →
    Literal c target input positive negative
  injective : ∀ (a b positive x y : Nat), literals[a]? = some (positive, x) →
    literals[b]? = some (positive, y) → a = b
  origin : ∀ gate, target.kind gate = .input →
    ∃ input negative : Nat, literals[input]? = some (gate, negative)
  named : ∀ gate name, target.name? gate = some name →
    ∃ input negative : Nat, literals[input]? = some (gate, negative)

theorem spelled_nil (c : Circuit α) : Spelled c [] ∅ Circuit.empty where
  sound := sound_empty
  found input := by simp
  literal input positive negative found := by simp at found
  injective a b positive x y found := by simp at found
  origin gate kind := by
    rw [kind_of_le (Nat.zero_le gate)] at kind
    exact absurd kind (by decide)
  named gate name named := by
    simp [Network.name?, Naming.name?, Circuit.empty, Network.empty, Naming.empty] at named

section Step

variable {c target : Circuit α} {done : List Nat} {literals : Std.TreeMap Nat (Nat × Nat)}

theorem Spelled.name?_of_le (spelled : Spelled c done literals target) {gate : Nat}
    (beyond : target.size ≤ gate) : target.name? gate = none := by
  refine Option.eq_none_iff_forall_ne_some.2 fun name named => ?_
  obtain ⟨input, negative, found⟩ := spelled.named gate name named
  have literal := spelled.literal input gate negative found
  have := literal.earlier
  have := literal.negative_lt
  omega

/-- The new input takes its name from no other gate, because two inputs of the circuit have different
names. -/
theorem Spelled.free (spelled : Spelled c done literals target) (paired : c.naming.Paired)
    {input other : Nat} (new : input ∉ done) {name : String}
    (named : target.name? other = some name) : c.name? input ≠ some name := by
  intro taken
  obtain ⟨owner, negative, found⟩ := spelled.named other name named
  have kept := (spelled.literal owner other negative found).name?
  have same := paired.eq_of_name? taken (kept.symm.trans named)
  exact new (same ▸ (spelled.found owner).2 ⟨_, found⟩)

section New

variable (spelled : Spelled c done literals target) (paired : c.naming.Paired) {input : Nat}
  (new : input ∉ done)

include spelled paired new

theorem Spelled.name?_addVariable (other : Nat) : (addVariable c target input).name? other =
    if other = target.size then c.name? input else target.name? other :=
  Circuit.name?_addVariable input spelled.sound.inStep other
    (fun _ named => spelled.free paired new named) (spelled.name?_of_le (Nat.le_refl _))

theorem Spelled.extends_addVariable : target.Extends (addVariable c target input) :=
  Circuit.extends_addVariable input spelled.sound.inStep (fun _ _ named => spelled.free paired new named)
    (spelled.name?_of_le (Nat.le_refl _))

/-- The input and the negation that are added are its literals. -/
theorem Spelled.literal_new :
    Literal c ((addVariable c target input).addNode .not [target.size]).2 input target.size
      (addVariable c target input).size := by
  have inStep := spelled.sound.inStep
  have wires := children_addNode (addVariable c target input) .not [target.size]
    (sound_addVariable input spelled.sound).inStep
  have small : target.size < (addVariable c target input).size := by
    rw [size_addVariable]
    exact Nat.lt_succ_self _
  exact
    { negative_lt := by
        rw [size_addNode]
        exact Nat.lt_succ_self _
      earlier := small
      kind_positive := by
        rw [kind_addNode, if_neg (Nat.ne_of_lt small), kind_addVariable, if_pos rfl]
      children_positive := by
        rw [wires, if_neg (Nat.ne_of_lt small), children_addVariable]
        exact Network.children_eq_nil_of_le (Nat.le_of_eq inStep.wires)
      kind_negative := by rw [kind_addNode, if_pos rfl]
      children_negative := by rw [wires, if_pos rfl]
      name? := by rw [name?_addNode, spelled.name?_addVariable paired new, if_pos rfl]
      prob := by rw [prob_addNode, prob_addVariable input inStep, if_pos rfl] }

end New

/-- One more input is spelled. -/
theorem Spelled.step (spelled : Spelled c done literals target) (paired : c.naming.Paired)
    {input : Nat} (new : input ∉ done) :
    Spelled c (done ++ [input])
      (literals.insert input (target.size, (addVariable c target input).size))
      ((addVariable c target input).addNode .not [target.size]).2 := by
  have middle := sound_addVariable (c := c) input spelled.sound
  have extends_ := (spelled.extends_addVariable paired new).trans
    (Extends.addNode middle.inStep .not [target.size])
  have at_new : (literals.insert input (target.size, (addVariable c target input).size))[input]? =
      some (target.size, (addVariable c target input).size) := by
    rw [Std.TreeMap.getElem?_insert, if_pos (Nat.compare_eq_eq.2 rfl)]
  have at_old : ∀ other : Nat, other ≠ input →
      (literals.insert input (target.size, (addVariable c target input).size))[other]? =
        literals[other]? := fun other different => by
    rw [Std.TreeMap.getElem?_insert, if_neg (mt Nat.compare_eq_eq.1 different.symm)]
  have before : ∀ {other positive negative : Nat}, literals[other]? = some (positive, negative) →
      positive < target.size ∧ other ≠ input := fun found =>
    ⟨(spelled.literal _ _ _ found).earlier.trans (spelled.literal _ _ _ found).negative_lt,
      fun same => new (same ▸ (spelled.found _).2 ⟨_, found⟩)⟩
  have added : ∀ gate, gate = target.size ∨
        (∃ other negative : Nat, literals[other]? = some (gate, negative)) →
      ∃ other negative : Nat, (literals.insert input
        (target.size, (addVariable c target input).size))[other]? = some (gate, negative) := by
    rintro gate (rfl | ⟨other, negative, found⟩)
    · exact ⟨input, _, at_new⟩
    · exact ⟨other, negative, by rw [at_old other (before found).2, found]⟩
  refine
    { sound := middle.addNode .not (fun child listed => ?_) ⟨_, rfl⟩
        (fun is_and => absurd is_and (by decide)) (fun is_or => absurd is_or (by decide))
      found := fun other => ?_
      literal := fun other positive negative found => ?_
      injective := fun a b positive x y found found' => ?_
      origin := fun gate kind => added gate ?_
      named := fun gate name named => added gate ?_ }
  · rw [List.mem_singleton.1 listed, size_addVariable]
    exact Nat.lt_succ_self _
  · rw [List.mem_append, List.mem_singleton]
    by_cases same : other = input
    · subst same
      simp
    · rw [at_old other same, spelled.found other, or_iff_left same]
  · by_cases same : other = input
    · subst same
      rw [at_new] at found
      cases found
      exact spelled.literal_new paired new
    · rw [at_old other same] at found
      exact (spelled.literal other positive negative found).of_extends extends_
  · by_cases left : a = input <;> by_cases right : b = input
    · rw [left, right]
    · rw [left, at_new] at found
      rw [at_old b right] at found'
      cases found
      exact absurd (before found').1 (Nat.lt_irrefl _)
    · rw [at_old a left] at found
      rw [right, at_new] at found'
      cases found'
      exact absurd (before found).1 (Nat.lt_irrefl _)
    · rw [at_old a left] at found
      rw [at_old b right] at found'
      exact spelled.injective a b positive x y found found'
  · rw [kind_addNode] at kind
    split at kind
    · exact absurd kind (by decide)
    · rw [kind_addVariable] at kind
      by_cases same : gate = target.size
      · exact Or.inl same
      · rw [if_neg same] at kind
        exact Or.inr (spelled.origin gate kind)
  · rw [name?_addNode, spelled.name?_addVariable paired new] at named
    by_cases same : gate = target.size
    · exact Or.inl same
    · rw [if_neg same] at named
      exact Or.inr (spelled.named gate name named)

/-- All inputs are spelled when each has a leaf. -/
theorem Spelled.addLiterals (spelled : Spelled c done literals target) (rest : List Nat)
    (responsible : Std.TreeMap Nat Nat) (paired : c.naming.Paired)
    (nodup : (done ++ rest).Nodup) (contained : ∀ input ∈ rest, responsible.contains input = true) :
    ∃ literals' target',
      Compilation.addLiterals c responsible rest literals target = .ok (literals', target') ∧
        Spelled c (done ++ rest) literals' target' := by
  induction rest generalizing done literals target with
  | nil => exact ⟨literals, target, rfl, by rwa [List.append_nil]⟩
  | cons input rest ih =>
    obtain ⟨has_leaf, contained⟩ := List.forall_mem_cons.1 contained
    have new : input ∉ done := fun member =>
      (List.nodup_append.1 nodup).2.2 input member input (List.mem_cons_self ..) rfl
    rw [addLiterals_cons c target input has_leaf]
    rw [List.append_cons] at nodup ⊢
    exact ih (spelled.step paired new) nodup contained

end Step

end Provenance.Compilation
