import Provenance.Proofs.Circuit.Constants
import Provenance.Proofs.Circuit.Plain
import Provenance.Proofs.DDnnf.Acyclic

/-!
# Constants are folded

Simplifying a gate changes this gate only, in one of a few ways that depend on the constants among the stand-ins
of its children (`Simplifies`, `simplified_foldGate`).  Along an order with the children first each gate is
simplified when its children are, and what was simplified is not touched again, so in the end all gates are
simplified by the constants that there are in the end (`Folded`, `folded_foldl_foldGate`).  By induction along the
wires the stand-in of each gate has the value of the gate (`Folded.stands`), and below it no child is a constant
and no conjunction or disjunction has one child (`Folded.normal`).  In a circuit that is like this already nothing
is folded (`foldl_foldGate_of_normal`).
-/

namespace Provenance

open Provenance.Circuit Provenance.Network Provenance.Order

namespace DDnnf

variable {α : Type} {c : Circuit α}

/-! ## One gate -/

/-- What becomes of a gate of some kind over simplified children: a kind, children and the gate that stands for
it. -/
inductive Simplifies (constant? : Nat → Option Bool) (gate : Nat) (kind : Kind) (children : List Nat)
    (kind' : Kind) (children' : List Nat) (stand : Nat) : Prop where
  /-- One child makes the gate constant. -/
  | absorbed (neutral : Bool) (child : Nat) (connective : kind = .junction neutral) (member : child ∈ children)
      (found : constant? child = some !neutral) (made : kind' = .junction !neutral) (childless : children' = [])
      (own : stand = gate)
  /-- The children that are not neutral are kept. -/
  | kept (neutral : Bool) (connective : kind = .junction neutral)
      (varied : ∀ child ∈ children, constant? child ≠ some !neutral) (same : kind' = .junction neutral)
      (left : children' = children.filter (constant? · != some neutral)) (several : children'.length ≠ 1)
      (own : stand = gate)
  /-- If this is one child, it stands for the gate. -/
  | spliced (neutral : Bool) (connective : kind = .junction neutral)
      (varied : ∀ child ∈ children, constant? child ≠ some !neutral) (same : kind' = .junction neutral)
      (left : children' = children.filter (constant? · != some neutral)) (only : children' = [stand])
  /-- The negation of a constant is a constant. -/
  | folded (child : Nat) (value : Bool) (negation : kind = .not) (only : children = [child])
      (found : constant? child = some value) (made : kind' = .junction !value) (childless : children' = [])
      (own : stand = gate)
  /-- Any other negation is kept. -/
  | negation (child : Nat) (negation : kind = .not) (only : children = [child]) (varied : constant? child = none)
      (same : kind' = .not) (left : children' = [child]) (own : stand = gate)
  | input (input : kind = .input) (same : kind' = .input) (childless : children' = []) (own : stand = gate)

namespace Simplifies

variable {constant? constant?' : Nat → Option Bool} {gate stand : Nat} {kind kind' : Kind}
  {children children' : List Nat}
  (simplifies : Simplifies constant? gate kind children kind' children' stand)

include simplifies

/-- A gate stands for itself or has a child stand for it. -/
theorem stand_eq_or_mem : stand = gate ∨ stand ∈ children := by
  cases simplifies with
  | absorbed _ _ _ _ _ _ _ own => exact Or.inl own
  | kept _ _ _ _ _ _ own => exact Or.inl own
  | spliced neutral _ _ _ left only =>
    have member : stand ∈ children.filter (constant? · != some neutral) := by simp [← left, only]
    exact Or.inr (List.mem_filter.1 member).1
  | folded _ _ _ _ _ _ _ own => exact Or.inl own
  | negation _ _ _ _ _ _ own => exact Or.inl own
  | input _ _ _ own => exact Or.inl own

/-- Only the constants among the children count. -/
theorem congr (same : ∀ child ∈ children, constant?' child = constant? child) :
    Simplifies constant?' gate kind children kind' children' stand := by
  have filtered : ∀ neutral, children.filter (constant?' · != some neutral) =
      children.filter (constant? · != some neutral) := fun neutral =>
    List.filter_congr fun child member => by rw [same child member]
  cases simplifies with
  | absorbed neutral child connective member found made childless own =>
    exact .absorbed neutral child connective member ((same child member).trans found) made childless own
  | kept neutral connective varied made left several own =>
    exact .kept neutral connective (fun child member => same child member ▸ varied child member) made
      (left.trans (filtered neutral).symm) several own
  | spliced neutral connective varied made left only =>
    exact .spliced neutral connective (fun child member => same child member ▸ varied child member) made
      (left.trans (filtered neutral).symm) only
  | folded child value negation only found made childless own =>
    exact .folded child value negation only ((same child (by simp [only])).trans found) made childless own
  | negation child negation only varied made left own =>
    exact .negation child negation only ((same child (by simp [only])).trans varied) made left own
  | input input made childless own => exact .input input made childless own

end Simplifies

namespace Folding

variable {f f' : Folding α} {gate other : Nat} {children : List Nat} {neutral value : Bool}

/-- A gate is as it was. -/
structure Keeps (f f' : Folding α) (gate : Nat) : Prop where
  kind : f'.circuit.kind gate = f.circuit.kind gate
  children : f'.circuit.children gate = f.circuit.children gate
  standIn : f'.standIn gate = f.standIn gate

theorem Keeps.constant? (keeps : f.Keeps f' gate) : f'.circuit.constant? gate = f.circuit.constant? gate := by
  unfold Circuit.constant?
  rw [keeps.kind, keeps.children]

/-- A gate becomes simplified over the given children and nothing else changes. -/
structure Simplified (f f' : Folding α) (gate : Nat) (children : List Nat) : Prop where
  stands : f'.stands.size = f.stands.size
  others : ∀ other ≠ gate, f.Keeps f' other
  simplifies : Simplifies f.circuit.constant? gate (f.circuit.kind gate) children (f'.circuit.kind gate)
    (f'.circuit.children gate) (f'.standIn gate)

theorem standIn_set (wide : gate < f.stands.size) (stand : Nat) (c : Circuit α) (other : Nat) :
    Folding.standIn ⟨c, f.stands.setIfInBounds gate stand⟩ other =
      if other = gate then stand else f.standIn other :=
  Table.getD_set wide stand other other

section

variable (inStep : f.circuit.InStep) (inside : gate < f.circuit.size)

include inside

theorem kind_setConstant (other : Nat) : (f.setConstant gate value).circuit.kind other =
    if other = gate then .junction value else f.circuit.kind other :=
  Circuit.kind_setKind f.circuit gate _ other inside

theorem kind_setConstant_self : (f.setConstant gate value).circuit.kind gate = .junction value :=
  (kind_setConstant inside gate).trans (if_pos rfl)

include inStep

theorem children_set (children : List Nat) (other : Nat) : (f.circuit.setChildren gate children).children other =
    if other = gate then children else f.circuit.children other :=
  Circuit.children_setChildren _ gate children other (inStep.wires ▸ inside)

theorem children_set_self (children : List Nat) :
    (f.circuit.setChildren gate children).children gate = children :=
  (children_set inStep inside children gate).trans (if_pos rfl)

/-- Other children for a gate leave the other gates as they are. -/
theorem keeps_set (children : List Nat) (different : other ≠ gate) :
    f.Keeps ⟨f.circuit.setChildren gate children, f.stands⟩ other :=
  ⟨rfl, (children_set inStep inside children other).trans (if_neg different), rfl⟩

theorem children_setConstant (other : Nat) : (f.setConstant gate value).circuit.children other =
    if other = gate then [] else f.circuit.children other :=
  Circuit.children_setChildren _ gate [] other (inStep.wires ▸ inside)

theorem children_setConstant_self : (f.setConstant gate value).circuit.children gate = [] :=
  (children_setConstant inStep inside gate).trans (if_pos rfl)

theorem keeps_setConstant (different : other ≠ gate) : f.Keeps (f.setConstant gate value) other :=
  ⟨(kind_setConstant inside other).trans (if_neg different),
    (children_setConstant inStep inside other).trans (if_neg different), rfl⟩

theorem simplified_foldChildren (wide : f.stands.size = f.circuit.size) (own : f.standIn gate = gate)
    (connective : f.circuit.kind gate = .junction neutral) (children : List Nat) :
    f.Simplified (f.foldChildren gate neutral children) gate children := by
  unfold foldChildren
  split
  · rename_i absorbs
    obtain ⟨child, member, found⟩ := List.any_eq_true.1 absorbs
    exact ⟨rfl, fun other => keeps_setConstant inStep inside, .absorbed neutral child connective member
      (beq_iff_eq.1 found) (kind_setConstant_self inside) (children_setConstant_self inStep inside) own⟩
  · rename_i absorbs
    have varied : ∀ child ∈ children, f.circuit.constant? child ≠ some !neutral := fun child member found =>
      absorbs (List.any_eq_true.2 ⟨child, member, beq_iff_eq.2 found⟩)
    -- the gate stands for itself unless one child is left
    have several : ∀ kept, children.filter (f.circuit.constant? · != some neutral) = kept → kept.length ≠ 1 →
        f.Simplified ⟨f.circuit.setChildren gate kept, f.stands⟩ gate children := by
      intro kept left many
      have here := children_set_self inStep inside kept
      exact ⟨rfl, fun other => keeps_set inStep inside kept, .kept neutral connective varied connective
        (here.trans left.symm) (here.symm ▸ many) own⟩
    generalize left : children.filter (f.circuit.constant? · != some neutral) = kept
    cases kept with
    | nil => exact several [] left (by simp)
    | cons stand rest =>
      cases rest with
      | cons second rest => exact several (stand :: second :: rest) left (by simp)
      | nil =>
        have stands := standIn_set (wide ▸ inside) stand (f.circuit.setChildren gate [stand])
        have here := children_set_self inStep inside [stand]
        refine ⟨Array.size_setIfInBounds, fun other different => ?_, ?_⟩
        · have keeps := keeps_set inStep inside [stand] different
          exact ⟨keeps.kind, keeps.children, (stands other).trans (if_neg different)⟩
        · refine .spliced neutral connective varied connective (here.trans left.symm) (here.trans ?_)
          rw [stands gate, if_pos rfl]

/-- What a gate becomes. -/
theorem simplified_foldGate (wide : f.stands.size = f.circuit.size) (own : f.standIn gate = gate)
    (evaluable : f.circuit.Evaluable gate)
    (childless : f.circuit.kind gate = .input → f.circuit.children gate = []) :
    f.Simplified (f.foldGate gate) gate ((f.circuit.children gate).map f.standIn) := by
  unfold foldGate
  cases kind : f.circuit.kind gate with
  | and =>
    have connective : f.circuit.kind gate = .junction true := kind
    exact simplified_foldChildren inStep inside wide own connective _
  | or =>
    have connective : f.circuit.kind gate = .junction false := kind
    exact simplified_foldChildren inStep inside wide own connective _
  | not =>
    obtain ⟨child, only⟩ := evaluable.onlyChild kind
    simp only [only, List.map_singleton, List.head?_cons, Option.bind_some]
    cases constant : f.circuit.constant? (f.standIn child) with
    | some value =>
      exact ⟨rfl, fun other => keeps_setConstant inStep inside, .folded _ value kind rfl constant
        (kind_setConstant_self inside) (children_setConstant_self inStep inside) own⟩
    | none =>
      exact ⟨rfl, fun other => keeps_set inStep inside _, .negation _ kind rfl constant kind
        (children_set_self inStep inside _) own⟩
  | input =>
    exact ⟨rfl, fun _ _ => ⟨rfl, rfl, rfl⟩, .input kind kind (childless kind) own⟩
  | alternative | undetermined => simp [Evaluable, kind] at evaluable

end

/-! ## All gates of an order -/

/-- What holds while gates are simplified in turn: those of before are simplified by the constants that there
are now, and the others are as they were. -/
structure Folded (c : Circuit α) (f : Folding α) (done : List Nat) : Prop extends Ranked c f where
  wide : f.stands.size = c.size
  within : ∀ gate ∈ done, f.standIn gate ∈ done
  simplifies : ∀ gate ∈ done, Simplifies f.circuit.constant? gate (c.kind gate) ((c.children gate).map f.standIn)
    (f.circuit.kind gate) (f.circuit.children gate) (f.standIn gate)
  waiting : ∀ gate ∉ done,
    f.circuit.kind gate = c.kind gate ∧ f.circuit.children gate = c.children gate ∧ f.standIn gate = gate

variable {done : List Nat}

/-- One more gate is simplified behind its children. -/
theorem Folded.foldGate (folded : Folded c f done) (plain : c.Plain) (inside : gate < c.size) (new : gate ∉ done)
    (behind : ∀ other ∈ done ++ [gate], ∀ child ∈ c.children other, child ∈ done) :
    Folded c (f.foldGate gate) (done ++ [gate]) := by
  have first := behind gate (List.mem_append_right done (List.mem_singleton.2 rfl))
  obtain ⟨kind, children, own⟩ := folded.waiting gate new
  have small : gate < f.circuit.size := folded.size_eq ▸ inside
  have evaluable : f.circuit.Evaluable gate := by
    have evaluable := plain.evaluable gate inside
    unfold Evaluable at evaluable ⊢
    rwa [kind, children]
  obtain ⟨stands, others, simplifies⟩ := simplified_foldGate folded.descending.inStep small
    (folded.wide.trans folded.size_eq.symm) own evaluable fun is_input => by
      rw [children]
      exact plain.childless gate (kind ▸ is_input)
  rw [kind, children] at simplifies
  have keeps : ∀ other ∈ done, f.Keeps (f.foldGate gate) other := fun other member =>
    others other (ne_of_mem_of_not_mem member new)
  have standIn : ∀ other, (∀ child ∈ c.children other, child ∈ done) →
      (c.children other).map (f.foldGate gate).standIn = (c.children other).map f.standIn := fun other before =>
    List.map_congr_left fun child wire => (keeps child (before child wire)).standIn
  -- the constants among the stand-ins of gates of before are those of before
  have constants : ∀ other, (∀ child ∈ c.children other, child ∈ done) →
      ∀ stand ∈ (c.children other).map f.standIn,
        (f.foldGate gate).circuit.constant? stand = f.circuit.constant? stand := by
    intro other before stand member
    obtain ⟨child, wire, rfl⟩ := List.mem_map.1 member
    exact (keeps _ (folded.within child (before child wire))).constant?
  refine
    { toRanked := folded.toRanked.foldGate gate
      wide := stands.trans folded.wide
      within := fun other member => ?within
      simplifies := fun other member => ?simplifies
      waiting := fun other out => ?waiting }
  case within =>
    rw [List.mem_append, List.mem_singleton] at member ⊢
    rcases member with member | rfl
    · rw [(keeps other member).standIn]
      exact Or.inl (folded.within other member)
    · rcases simplifies.stand_eq_or_mem with own | member
      · exact Or.inr own
      · obtain ⟨child, wire, same⟩ := List.mem_map.1 member
        exact Or.inl (same ▸ folded.within child (first child wire))
  case simplifies =>
    rcases List.mem_append.1 member with member | last
    · have before := behind other (List.mem_append_left [gate] member)
      have here := keeps other member
      rw [standIn other before, here.kind, here.children, here.standIn]
      exact (folded.simplifies other member).congr (constants other before)
    · obtain rfl := List.mem_singleton.1 last
      rw [standIn other first]
      exact simplifies.congr (constants other first)
  case waiting =>
    rw [List.mem_append, List.mem_singleton, not_or] at out
    have keeps := others other out.2
    rw [keeps.kind, keeps.children, keeps.standIn]
    exact folded.waiting other out.1

/-- Names and probabilities are not touched. -/
theorem labels_foldGate (f : Folding α) (gate : Nat) :
    (f.foldGate gate).circuit.naming = f.circuit.naming ∧ (f.foldGate gate).circuit.probs = f.circuit.probs := by
  unfold foldGate foldChildren setConstant
  cases f.circuit.kind gate with
  | and | or | not =>
    dsimp only
    split <;> exact ⟨rfl, rfl⟩
  | input | alternative | undetermined => exact ⟨rfl, rfl⟩

theorem labels_foldl_foldGate (f : Folding α) (order : List Nat) :
    (order.foldl foldGate f).circuit.naming = f.circuit.naming ∧
      (order.foldl foldGate f).circuit.probs = f.circuit.probs := by
  induction order generalizing f with
  | nil => exact ⟨rfl, rfl⟩
  | cons gate order ih =>
    obtain ⟨naming, probs⟩ := labels_foldGate f gate
    exact ⟨(ih (f.foldGate gate)).1.trans naming, (ih (f.foldGate gate)).2.trans probs⟩

/-- Before the first gate. -/
theorem folded_start (wellFormed : c.WellFormed) : Folded c ⟨c, (List.range c.size).toArray⟩ [] where
  toRanked := ranked_start wellFormed
  wide := by simp
  within gate none := absurd none List.not_mem_nil
  simplifies gate none := absurd none List.not_mem_nil
  waiting gate _ := ⟨rfl, rfl, standIn_start c gate⟩

/-- In the end all gates are simplified. -/
theorem folded_foldl_foldGate {order : List Nat} (plain : c.Plain) (inside : ∀ gate ∈ order, gate < c.size)
    (once : order.Nodup) (first : ChildrenFirst c.children order) :
    Folded c (order.foldl foldGate ⟨c, (List.range c.size).toArray⟩) order :=
  first.foldl (motive := Folded c) once (fun _ _ gate _ split new behind folded =>
    folded.foldGate plain (inside gate (by simp [split])) new behind) (folded_start plain.wellFormed)

/-! ## Stand-ins in the end -/

section

variable {order : List Nat} (folded : Folded c f order)
  (closed : ∀ gate ∈ order, ∀ child ∈ c.children gate, child ∈ order)

include folded closed

/-- The stand-in of a gate has its values and is in its classes. -/
theorem Folded.stands (plain : c.Plain) (inside : ∀ gate ∈ order, gate < c.size) {gate : Nat}
    (member : gate ∈ order) : Stands c f.circuit gate (f.standIn gate) := by
  have even' : f.circuit.Even := folded.descending.inStep.even
  have acyclic' : f.circuit.Acyclic := folded.descending.wellFormed.acyclic
  induction gate using plain.acyclic.induction with
  | step gate ih =>
    have formula := plain.isFormula (inside gate member)
    have below : ∀ child ∈ c.children gate, Stands c f.circuit child (f.standIn child) := fun child wire =>
      ih child wire (closed gate member child wire)
    cases folded.simplifies gate member with
    | absorbed neutral stand connective listed found made childless own =>
      obtain ⟨child, wire, rfl⟩ := List.mem_map.1 listed
      refine own.symm ▸ .of_constant even' acyclic' (constant?_eq_some.2 ⟨made, childless⟩) fun world => ?_
      refine (formula.value_eq_not_iff connective world).2 ⟨child, wire, ?_⟩
      rw [← (below child wire).value world, (below child wire).formula.value_of_constant found]
    | kept neutral connective varied made left several own =>
      exact own.symm ▸ .of_kept even' acyclic' below formula connective made left
    | spliced neutral connective varied made left only =>
      exact (Stands.of_kept even' acyclic' below formula connective made left).only made only
    | folded stand value negation single found made childless own =>
      obtain ⟨child, only, rfl⟩ := List.map_eq_singleton_iff.1 single
      have wire : child ∈ c.children gate := by simp [only]
      refine own.symm ▸ .of_constant even' acyclic' (constant?_eq_some.2 ⟨made, childless⟩) fun world => ?_
      rw [formula.value_not world negation only, ← (below child wire).value world,
        (below child wire).formula.value_of_constant found]
    | negation stand negation single varied made left own =>
      obtain ⟨child, only, rfl⟩ := List.map_eq_singleton_iff.1 single
      exact own.symm ▸ .of_negation even' acyclic' below formula negation only made left
    | input input made childless own =>
      have formula' : f.circuit.IsFormula gate := by
        refine (isFormula_iff even' acyclic').2 ⟨?_, by simp [childless]⟩
        unfold Evaluable
        rw [made]
        trivial
      exact own.symm ▸ .of_input formula formula' input made childless

/-- Below a stand-in there is no constant any more, and no junction of one child. -/
theorem Folded.normal (acyclic : c.Acyclic) {gate : Nat} (member : gate ∈ order) :
    f.circuit.Normal (f.standIn gate) := by
  induction gate using acyclic.induction with
  | step gate ih =>
    have below : ∀ stand ∈ (c.children gate).map f.standIn, f.circuit.Normal stand := by
      intro stand listed
      obtain ⟨child, wire, rfl⟩ := List.mem_map.1 listed
      exact ih child wire (closed gate member child wire)
    have alone : f.circuit.children gate = [] → f.circuit.Normal gate := fun childless =>
      normal_iff.2 ⟨⟨by simp [childless], fun _ => by simp [childless]⟩, by simp [childless]⟩
    cases folded.simplifies gate member with
    | absorbed neutral stand connective listed found made childless own => exact own.symm ▸ alone childless
    | kept neutral connective varied made left several own =>
      rw [own]
      have kept : ∀ stand ∈ f.circuit.children gate,
          stand ∈ (c.children gate).map f.standIn ∧ f.circuit.constant? stand ≠ some neutral := by
        rw [left]
        simp [List.mem_filter]
      refine normal_iff.2 ⟨⟨fun stand wire => ?_, fun _ => several⟩, fun stand wire =>
        below stand (kept stand wire).1⟩
      have other := (kept stand wire).2
      have varied := varied stand (kept stand wire).1
      cases constant : f.circuit.constant? stand with
      | none => rfl
      | some value => cases value <;> cases neutral <;> simp_all
    | spliced neutral connective varied made left only =>
      have listed : f.standIn gate ∈ f.circuit.children gate := by simp [only]
      rw [left] at listed
      exact below _ (List.mem_filter.1 listed).1
    | folded stand value negation single found made childless own => exact own.symm ▸ alone childless
    | negation stand negation single varied made left own =>
      rw [own]
      refine normal_iff.2 ⟨⟨by simpa [left] using varied, fun junction => ?_⟩, ?_⟩
      · rw [made] at junction
        cases junction <;> contradiction
      · simpa [left] using below stand (by simp [single])
    | input input made childless own => exact own.symm ▸ alone childless

end

/-! ## Nothing to fold -/

/-- A junction without constants among its children, of which there is not just one, stays as it is. -/
theorem foldChildren_of_varied (varied : ∀ child ∈ f.circuit.children gate, f.circuit.constant? child = none)
    (several : (f.circuit.children gate).length ≠ 1) :
    f.foldChildren gate neutral (f.circuit.children gate) = f := by
  have absorbs : ¬ (f.circuit.children gate).any (f.circuit.constant? · == some !neutral) = true := by
    rw [List.any_eq_true]
    rintro ⟨child, wire, found⟩
    rw [varied child wire] at found
    cases found
  have left : (f.circuit.children gate).filter (f.circuit.constant? · != some neutral) =
      f.circuit.children gate :=
    List.filter_eq_self.2 fun child wire => by rw [varied child wire]; rfl
  have same : (⟨f.circuit.setChildren gate (f.circuit.children gate), f.stands⟩ : Folding α) = f := by
    rw [setChildren_self]
  unfold foldChildren
  rw [if_neg absorbs, left]
  generalize f.circuit.children gate = children at several same
  cases children with
  | nil => exact same
  | cons first rest =>
    cases rest with
    | nil => exact absurd rfl several
    | cons second rest => exact same

theorem foldGate_of_normal (own : ∀ gate, f.standIn gate = gate) {root : Nat} (normal : f.circuit.Normal root)
    (path : f.circuit.Reaches root gate) : f.foldGate gate = f := by
  obtain ⟨varied, several⟩ := normal gate path
  have stands : (f.circuit.children gate).map f.standIn = f.circuit.children gate :=
    (List.map_congr_left fun child _ => own child).trans (List.map_id _)
  unfold foldGate
  rw [stands]
  cases kind : f.circuit.kind gate with
  | and => exact foldChildren_of_varied varied (several (Or.inl kind))
  | or => exact foldChildren_of_varied varied (several (Or.inr kind))
  | not =>
    have open_ : (f.circuit.children gate).head?.bind f.circuit.constant? = none :=
      Option.bind_eq_none_iff.2 fun child first => varied child (List.mem_of_head? first)
    simp only [open_, setChildren_self]
  | input | alternative | undetermined => rfl

/-- A normal circuit stays as it is. -/
theorem foldl_foldGate_of_normal (own : ∀ gate, f.standIn gate = gate) {root : Nat}
    (normal : f.circuit.Normal root) {order : List Nat} (reached : ∀ gate ∈ order, f.circuit.Reaches root gate) :
    order.foldl foldGate f = f := by
  induction order with
  | nil => rfl
  | cons gate order ih =>
    obtain ⟨path, others⟩ := List.forall_mem_cons.1 reached
    rw [List.foldl_cons, foldGate_of_normal own normal path, ih others]

end Folding

end DDnnf

end Provenance
