import Mathlib.Algebra.BigOperators.Group.List.Basic
import Mathlib.Algebra.BigOperators.Ring.List
import Mathlib.Algebra.Order.Field.Rat
import Mathlib.Data.List.Nodup
import Mathlib.Logic.Relation
import Provenance.Nnf.Basic

/-!
# The terms of a formula

A node of a formula may be read in any structure with conjunctions and disjunctions (`Nnf.reading`): as a
truth value, as a sum of products, or as the list of its terms, each a conjunction of literals.  A term
takes one child at each disjunction and all children at each conjunction.  A node is true when all literals
of some term are (`any_terms`), and its sum of products is the sum over the terms of the products over
their literals (`sum_terms`).

In a decomposable formula no term mentions a variable twice (`nodup_of_mem_terms`), and in a deterministic
one no two terms are true together (`pairwise_terms`).
-/

namespace Provenance

/-- The positions that a node refers to. -/
def NnfNode.children : NnfNode → List Nat
  | .literal _ => []
  | .and children | .or _ children => children

namespace Nnf

/-! ## Readings of the nodes -/

/-- What literals, conjunctions and disjunctions are read as. -/
structure Algebra (β : Type) where
  literal : Literal → β
  and : List β → β
  or : List β → β
  /-- What a node out of range counts as. -/
  absent : β

/-- A node from what its children are read as. -/
def Algebra.node {β : Type} (algebra : Algebra β) (child : Nat → β) : NnfNode → β
  | .literal l => algebra.literal l
  | .and children => algebra.and (children.map child)
  | .or _ children => algebra.or (children.map child)

/-- Reads nodes one after the other, `before` being what the nodes in front are read as. -/
def readFrom {β : Type} (algebra : Algebra β) : List NnfNode → (before : List β) → List β
  | [], before => before
  | node :: rest, before =>
    readFrom algebra rest (before ++ [algebra.node (before.getD · algebra.absent) node])

/-- What the node at a position is read as. -/
def reading {β : Type} (algebra : Algebra β) (nodes : List NnfNode) (position : Nat) : β :=
  (readFrom algebra nodes []).getD position algebra.absent

/-- Each node comes behind those that it refers to. -/
def Ordered (nodes : List NnfNode) : Prop :=
  ∀ (position : Nat) (node : NnfNode), nodes[position]? = some node →
    ∀ child ∈ node.children, child < position

theorem Ordered.of_append {nodes rest : List NnfNode} (ordered : Ordered (nodes ++ rest)) :
    Ordered nodes := by
  intro position node found
  have inside := (List.getElem?_eq_some_iff.1 found).1
  exact ordered position node (by rw [List.getElem?_append_left inside, found])

section Reading

variable {β : Type} (algebra : Algebra β)

theorem Algebra.node_congr {f g : Nat → β} {node : NnfNode}
    (same : ∀ child ∈ node.children, f child = g child) : algebra.node f node = algebra.node g node := by
  cases node with
  | literal => rfl
  | and children => exact congrArg algebra.and (List.map_congr_left same)
  | or _ children => exact congrArg algebra.or (List.map_congr_left same)

/-- Reading more nodes keeps what was read before. -/
theorem getElem?_readFrom (nodes : List NnfNode) {before : List β} {position : Nat}
    (inside : position < before.length) : (readFrom algebra nodes before)[position]? = before[position]? := by
  induction nodes generalizing before with
  | nil => rfl
  | cons node rest ih =>
    rw [readFrom, ih (by rw [List.length_append]; exact Nat.lt_add_right _ inside),
      List.getElem?_append_left inside]

theorem length_readFrom (nodes : List NnfNode) (before : List β) :
    (readFrom algebra nodes before).length = before.length + nodes.length := by
  induction nodes generalizing before with
  | nil => rfl
  | cons node rest ih =>
    rw [readFrom, ih, List.length_append, List.length_singleton, List.length_cons]
    omega

theorem readFrom_append (front rest : List NnfNode) (before : List β) :
    readFrom algebra (front ++ rest) before = readFrom algebra rest (readFrom algebra front before) := by
  induction front generalizing before with
  | nil => rfl
  | cons node front ih => exact ih _

/-- More nodes behind the others leave these as they are read. -/
theorem reading_append (nodes rest : List NnfNode) {position : Nat} (inside : position < nodes.length) :
    reading algebra (nodes ++ rest) position = reading algebra nodes position := by
  have there : position < (readFrom algebra nodes []).length := by
    rwa [length_readFrom, List.length_nil, Nat.zero_add]
  rw [reading, reading, readFrom_append, List.getD_eq_getElem?_getD, getElem?_readFrom algebra rest there,
    List.getD_eq_getElem?_getD]

/-- A node is read by way of the nodes that it refers to. -/
theorem reading_eq {nodes : List NnfNode} (ordered : Ordered nodes) {position : Nat} {node : NnfNode}
    (found : nodes[position]? = some node) :
    reading algebra nodes position = algebra.node (reading algebra nodes) node := by
  obtain ⟨inside, equal⟩ := List.getElem?_eq_some_iff.1 found
  obtain ⟨front, same⟩ : ∃ front, front = readFrom algebra (nodes.take position) [] := ⟨_, rfl⟩
  have length : front.length = position := by
    rw [same, length_readFrom, List.length_nil, List.length_take_of_le (Nat.le_of_lt inside),
      Nat.zero_add]
  have total : readFrom algebra nodes [] = readFrom algebra (nodes.drop (position + 1))
      (front ++ [algebra.node (front.getD · algebra.absent) node]) := by
    rw [← List.take_append_drop position nodes, readFrom_append, ← same,
      List.take_append_drop, List.drop_eq_getElem_cons inside, equal, readFrom]
  have old : ∀ child < position, reading algebra nodes child = front.getD child algebra.absent := by
    intro child below
    have below : child < front.length := length ▸ below
    rw [reading, total, List.getD_eq_getElem?_getD, getElem?_readFrom algebra _ (by
      rw [List.length_append]; exact Nat.lt_add_right _ below), List.getElem?_append_left below,
      List.getD_eq_getElem?_getD]
  have here : reading algebra nodes position = algebra.node (front.getD · algebra.absent) node := by
    rw [reading, total, List.getD_eq_getElem?_getD, getElem?_readFrom algebra _ (by simp [length]),
      ← length, List.getElem?_concat_length, Option.getD_some]
  rw [here]
  exact algebra.node_congr fun child listed => (old child (ordered position node found child listed)).symm

/-- What holds of a node when it holds of those that it refers to holds of all nodes. -/
theorem Ordered.induction {nodes : List NnfNode} (ordered : Ordered nodes) {motive : Nat → Prop}
    (step : ∀ (position : Nat) (node : NnfNode), nodes[position]? = some node →
      (∀ child ∈ node.children, motive child) → motive position)
    {position : Nat} (inside : position < nodes.length) : motive position := by
  induction position using Nat.strong_induction_on with
  | _ position ih =>
    have found := List.getElem?_eq_getElem inside
    refine step position _ found fun child listed => ?_
    have below := ordered position _ found child listed
    exact ih child below (below.trans inside)

end Reading

/-! ## Truth values, sums of products and terms -/

/-- Nodes as truth values, given those of the literals. -/
def truth (holds : Literal → Bool) : Algebra Bool := ⟨holds, (·.all id), (·.any id), false⟩

/-- Nodes as sums of products, given the weights of the literals. -/
def sums (weight : Literal → Rat) : Algebra Rat := ⟨weight, List.prod, List.sum, 0⟩

/-- All ways to put one term of each list together. -/
def conjoin : List (List (List Literal)) → List (List Literal)
  | [] => [[]]
  | first :: rest => first.flatMap fun left => (conjoin rest).map (left ++ ·)

/-- Nodes as lists of terms. -/
def termLists : Algebra (List (List Literal)) := ⟨fun l => [[l]], conjoin, List.flatten, []⟩

/-- The terms of a node. -/
def terms (nodes : List NnfNode) (position : Nat) : List (List Literal) :=
  reading termLists nodes position

/-- The value of the node at a position. -/
def value (assignment : Nat → Bool) (nodes : List NnfNode) (position : Nat) : Bool :=
  reading (truth (·.holds assignment)) nodes position

theorem valuesFrom_eq_readFrom (assignment : Nat → Bool) (nodes : List NnfNode) (before : List Bool) :
    valuesFrom assignment nodes before = readFrom (truth (·.holds assignment)) nodes before := by
  induction nodes generalizing before with
  | nil => rfl
  | cons node rest ih =>
    have step : valuesFrom assignment (node :: rest) before = valuesFrom assignment rest
        (before ++ [(truth (·.holds assignment)).node (before.getD · false) node]) := by
      cases node with
      | literal l => rfl
      | and children => simp [valuesFrom, truth, Algebra.node, List.all_map]
      | or opposing children => simp [valuesFrom, truth, Algebra.node, List.any_map]
    rw [step, ih]
    rfl

/-- The value of the last node, if there is one. -/
theorem getLast?_valuesFrom (assignment : Nat → Bool) {nodes : List NnfNode} (some_node : nodes ≠ []) :
    (valuesFrom assignment nodes []).getLast? = some (value assignment nodes (nodes.length - 1)) := by
  have positive : 0 < nodes.length := List.length_pos_iff.2 some_node
  have length : (valuesFrom assignment nodes []).length = nodes.length := by
    rw [valuesFrom_eq_readFrom, length_readFrom, List.length_nil, Nat.zero_add]
  rw [List.getLast?_eq_getElem?, length, value, reading, ← valuesFrom_eq_readFrom,
    List.getD_eq_getElem?_getD, List.getElem?_eq_getElem (by omega), Option.getD_some]

section Terms

variable {nodes : List NnfNode} (ordered : Ordered nodes) {position : Nat}

theorem any_conjoin (holds : Literal → Bool) (lists : List (List (List Literal))) :
    (conjoin lists).any (·.all holds) = lists.all (·.any (·.all holds)) := by
  induction lists with
  | nil => rfl
  | cons first rest ih =>
    rw [conjoin, List.all_cons, ← ih, Bool.eq_iff_iff, Bool.and_eq_true, List.any_eq_true,
      List.any_eq_true, List.any_eq_true]
    simp only [List.mem_flatMap, List.mem_map]
    constructor
    · rintro ⟨_, ⟨left, listed, right, listed', rfl⟩, true_⟩
      rw [List.all_append, Bool.and_eq_true] at true_
      exact ⟨⟨left, listed, true_.1⟩, ⟨right, listed', true_.2⟩⟩
    · rintro ⟨⟨left, listed, left_true⟩, ⟨right, listed', right_true⟩⟩
      refine ⟨left ++ right, ⟨left, listed, right, listed', rfl⟩, ?_⟩
      rw [List.all_append, left_true, right_true, Bool.and_true]

/-- The product over the literals of a term. -/
def termWeight (weight : Literal → Rat) (term : List Literal) : Rat := (term.map weight).prod

theorem sum_conjoin (weight : Literal → Rat) (lists : List (List (List Literal))) :
    ((conjoin lists).map (termWeight weight)).sum =
      (lists.map fun list => (list.map (termWeight weight)).sum).prod := by
  induction lists with
  | nil => simp [conjoin, termWeight, -List.sum_cons, List.sum_singleton]
  | cons first rest ih =>
    rw [conjoin, List.map_cons, List.prod_cons, ← ih]
    induction first with
    | nil => simp
    | cons left others ih' =>
      have split : ∀ right, termWeight weight (left ++ right) =
          termWeight weight left * termWeight weight right := by
        intro right
        rw [termWeight, List.map_append, List.prod_append]
        rfl
      rw [List.flatMap_cons, List.map_append, List.sum_append, ih', List.map_cons, List.sum_cons,
        add_mul, List.map_map]
      simp only [Function.comp_def, split, List.sum_map_mul_left]

include ordered

/-- A node is true when all literals of some term are. -/
theorem any_terms (holds : Literal → Bool) (inside : position < nodes.length) :
    (terms nodes position).any (·.all holds) = reading (truth holds) nodes position := by
  refine ordered.induction (motive := fun position =>
    (terms nodes position).any (·.all holds) = reading (truth holds) nodes position)
    (fun position node found below => ?_) inside
  rw [terms, reading_eq _ ordered found, reading_eq _ ordered found]
  cases node with
  | literal l => simp [Algebra.node, termLists, truth]
  | and children =>
    show (conjoin (children.map (terms nodes))).any (·.all holds) =
      (children.map (reading (truth holds) nodes)).all id
    rw [any_conjoin, List.all_map, List.all_map, Bool.eq_iff_iff, List.all_eq_true, List.all_eq_true]
    exact forall₂_congr fun child listed => by
      show (terms nodes child).any (·.all holds) = true ↔ reading (truth holds) nodes child = true
      rw [below child listed]
  | or opposing children =>
    show (children.map (terms nodes)).flatten.any (·.all holds) =
      (children.map (reading (truth holds) nodes)).any id
    rw [List.any_flatten, List.any_map, List.any_map, Bool.eq_iff_iff, List.any_eq_true,
      List.any_eq_true]
    exact exists_congr fun child => and_congr_right fun listed => by
      show (terms nodes child).any (·.all holds) = true ↔ reading (truth holds) nodes child = true
      rw [below child listed]

/-- The sum of products of a node is the sum over its terms. -/
theorem sum_terms (weight : Literal → Rat) (inside : position < nodes.length) :
    ((terms nodes position).map (termWeight weight)).sum = reading (sums weight) nodes position := by
  refine ordered.induction (motive := fun position =>
    ((terms nodes position).map (termWeight weight)).sum = reading (sums weight) nodes position)
    (fun position node found below => ?_) inside
  rw [terms, reading_eq _ ordered found, reading_eq _ ordered found]
  cases node with
  | literal l => simp [Algebra.node, termLists, sums, termWeight]
  | and children =>
    show ((conjoin (children.map (terms nodes))).map (termWeight weight)).sum =
      (children.map (reading (sums weight) nodes)).prod
    rw [sum_conjoin, List.map_map]
    exact congrArg List.prod (List.map_congr_left below)
  | or opposing children =>
    show ((children.map (terms nodes)).flatten.map (termWeight weight)).sum =
      (children.map (reading (sums weight) nodes)).sum
    rw [List.map_flatten, List.sum_flatten, List.map_map, List.map_map]
    exact congrArg List.sum (List.map_congr_left below)

end Terms

/-! ## Nodes below a node -/

/-- A node refers to another one. -/
def Refers (nodes : List NnfNode) (position child : Nat) : Prop :=
  ∃ node, nodes[position]? = some node ∧ child ∈ node.children

/-- A node is the root or below it. -/
def Below (nodes : List NnfNode) (root position : Nat) : Prop :=
  Relation.ReflTransGen (Refers nodes) root position

/-- A literal of a variable is below a node. -/
def Mentions (nodes : List NnfNode) (position variable_ : Nat) : Prop :=
  ∃ other l, Below nodes position other ∧ nodes[other]? = some (.literal l) ∧ l.index = variable_

/-- The children of conjunctions mention different variables. -/
def Decomposable (nodes : List NnfNode) (root : Nat) : Prop :=
  ∀ position children, Below nodes root position → nodes[position]? = some (.and children) →
    children.Pairwise fun left right =>
      ∀ variable_, ¬ (Mentions nodes left variable_ ∧ Mentions nodes right variable_)

/-- At most one child of a disjunction is true. -/
def Deterministic (nodes : List NnfNode) (root : Nat) : Prop :=
  ∀ position opposing children, Below nodes root position →
    nodes[position]? = some (.or opposing children) → ∀ assignment, children.Pairwise fun left right =>
      ¬ (value assignment nodes left = true ∧ value assignment nodes right = true)

/-- A literal mentions its variable only. -/
theorem mentions_literal_iff {nodes : List NnfNode} {position variable_ : Nat} {l : Literal}
    (found : nodes[position]? = some (.literal l)) :
    Mentions nodes position variable_ ↔ l.index = variable_ := by
  constructor
  · rintro ⟨other, l', below, found', rfl⟩
    rcases Relation.ReflTransGen.cases_head below with rfl | ⟨child, ⟨node, same, wire⟩, _⟩
    · rw [found] at found'
      rw [NnfNode.literal.inj (Option.some.inj found')]
    · rw [found] at same
      obtain rfl := Option.some.inj same
      exact absurd wire List.not_mem_nil
  · rintro rfl
    exact ⟨position, l, .refl, found, rfl⟩

section Below

variable {nodes : List NnfNode} {position next : Nat} {node : NnfNode}
  (found : nodes[position]? = some node) (listed : next ∈ node.children)

include found listed

theorem Below.of_child {other : Nat} (below : Below nodes next other) : Below nodes position other :=
  Relation.ReflTransGen.head ⟨node, found, listed⟩ below

theorem Decomposable.child (decomposable : Decomposable nodes position) : Decomposable nodes next :=
  fun other children below => decomposable other children (below.of_child found listed)

theorem Deterministic.child (deterministic : Deterministic nodes position) :
    Deterministic nodes next :=
  fun other opposing children below =>
    deterministic other opposing children (below.of_child found listed)

end Below

/-! ## The literals of a term -/

section Literals

variable {nodes : List NnfNode} (ordered : Ordered nodes) {position : Nat}

/-- The literals of a conjoined term come from its parts. -/
theorem mem_of_mem_conjoin {lists : List (List (List Literal))} {term : List Literal}
    (listed : term ∈ conjoin lists) {l : Literal} (member : l ∈ term) :
    ∃ list ∈ lists, ∃ part ∈ list, l ∈ part := by
  induction lists generalizing term with
  | nil =>
    obtain rfl := List.mem_singleton.1 listed
    exact absurd member List.not_mem_nil
  | cons first rest ih =>
    obtain ⟨left, in_first, made⟩ := List.mem_flatMap.1 listed
    obtain ⟨right, in_rest, rfl⟩ := List.mem_map.1 made
    rcases List.mem_append.1 member with member | member
    · exact ⟨first, List.mem_cons_self, left, in_first, member⟩
    · obtain ⟨list, listed, part, there, member⟩ := ih in_rest member
      exact ⟨list, List.mem_cons_of_mem first listed, part, there, member⟩

/-- Terms that mention no variable twice are conjoined to such terms when they share no variable. -/
theorem nodup_of_mem_conjoin {lists : List (List (List Literal))}
    (each : ∀ list ∈ lists, ∀ part ∈ list, (part.map Literal.index).Nodup)
    (apart : lists.Pairwise fun left right => ∀ s ∈ left, ∀ t ∈ right, ∀ l ∈ s, ∀ l' ∈ t,
      l.index ≠ l'.index) {term : List Literal} (listed : term ∈ conjoin lists) :
    (term.map Literal.index).Nodup := by
  induction lists generalizing term with
  | nil =>
    obtain rfl := List.mem_singleton.1 listed
    exact List.nodup_nil
  | cons first rest ih =>
    obtain ⟨left, in_first, made⟩ := List.mem_flatMap.1 listed
    obtain ⟨right, in_rest, rfl⟩ := List.mem_map.1 made
    obtain ⟨others, apart⟩ := List.pairwise_cons.1 apart
    rw [List.map_append, List.nodup_append]
    refine ⟨each first List.mem_cons_self left in_first, ?_, ?_⟩
    · exact ih (fun list there => each list (List.mem_cons_of_mem first there)) apart in_rest
    · intro index in_left index' in_right
      obtain ⟨l, member, rfl⟩ := List.mem_map.1 in_left
      obtain ⟨l', member', rfl⟩ := List.mem_map.1 in_right
      obtain ⟨list, there, part, in_part, member'⟩ := mem_of_mem_conjoin in_rest member'
      exact others list there left in_first part in_part l member l' member'

/-- Two terms are not true together. -/
def Contradict (assignment : Nat → Bool) (left right : List Literal) : Prop :=
  ¬ (left.all (·.holds assignment) = true ∧ right.all (·.holds assignment) = true)

/-- Conjoined terms differ in one of their parts. -/
theorem pairwise_conjoin {assignment : Nat → Bool} {lists : List (List (List Literal))}
    (each : ∀ list ∈ lists, list.Pairwise (Contradict assignment)) :
    (conjoin lists).Pairwise (Contradict assignment) := by
  induction lists with
  | nil => exact List.pairwise_singleton _ _
  | cons first rest ih =>
    have others := ih fun list there => each list (List.mem_cons_of_mem first there)
    rw [conjoin, List.pairwise_flatMap]
    refine ⟨fun left _ => ?_, (each first List.mem_cons_self).imp fun apart => ?_⟩
    · rw [List.pairwise_map]
      refine others.imp fun apart both => apart ?_
      simp only [List.all_append, Bool.and_eq_true] at both
      exact ⟨both.1.2, both.2.2⟩
    · intro _ made _ made' both
      obtain ⟨right, _, rfl⟩ := List.mem_map.1 made
      obtain ⟨right', _, rfl⟩ := List.mem_map.1 made'
      simp only [List.all_append, Bool.and_eq_true] at both
      exact apart ⟨both.1.1, both.2.1⟩

include ordered

theorem Ordered.child_lt {node : NnfNode} (found : nodes[position]? = some node) :
    ∀ child ∈ node.children, child < nodes.length := fun child wire =>
  (ordered position node found child wire).trans (List.getElem?_eq_some_iff.1 found).1

/-- The literals of a term are below the node. -/
theorem literal_of_mem_terms (inside : position < nodes.length) {l : Literal} :
    ∀ term ∈ terms nodes position, l ∈ term →
      ∃ other, Below nodes position other ∧ nodes[other]? = some (.literal l) := by
  refine ordered.induction (motive := fun position => ∀ term ∈ terms nodes position, l ∈ term →
    ∃ other, Below nodes position other ∧ nodes[other]? = some (.literal l))
    (fun position node found below term listed member => ?_) inside
  rw [terms, reading_eq _ ordered found] at listed
  cases node with
  | literal l' =>
    obtain rfl := List.mem_singleton.1 listed
    obtain rfl := List.mem_singleton.1 member
    exact ⟨position, .refl, found⟩
  | and children =>
    obtain ⟨_, there, part, in_part, member⟩ := mem_of_mem_conjoin listed member
    obtain ⟨child, wire, rfl⟩ := List.mem_map.1 there
    obtain ⟨other, lower, literal⟩ := below child wire part in_part member
    exact ⟨other, lower.of_child found wire, literal⟩
  | or opposing children =>
    obtain ⟨_, there, in_child⟩ := List.mem_flatten.1 listed
    obtain ⟨child, wire, rfl⟩ := List.mem_map.1 there
    obtain ⟨other, lower, literal⟩ := below child wire term in_child member
    exact ⟨other, lower.of_child found wire, literal⟩

theorem mentions_of_mem_terms (inside : position < nodes.length) {term : List Literal}
    (listed : term ∈ terms nodes position) {l : Literal} (member : l ∈ term) :
    Mentions nodes position l.index := by
  obtain ⟨other, below, literal⟩ := literal_of_mem_terms ordered inside term listed member
  exact ⟨other, l, below, literal, rfl⟩

/-- No term of a decomposable formula mentions a variable twice. -/
theorem nodup_of_mem_terms (inside : position < nodes.length) (decomposable : Decomposable nodes position) :
    ∀ term ∈ terms nodes position, (term.map Literal.index).Nodup := by
  refine ordered.induction (motive := fun position => Decomposable nodes position →
    ∀ term ∈ terms nodes position, (term.map Literal.index).Nodup)
    (fun position node found below decomposable term listed => ?_) inside decomposable
  have small := ordered.child_lt found
  have below := fun child wire =>
    below child wire (Decomposable.child found wire decomposable)
  rw [terms, reading_eq _ ordered found] at listed
  cases node with
  | literal l =>
    obtain rfl := List.mem_singleton.1 listed
    exact List.nodup_singleton _
  | and children =>
    refine nodup_of_mem_conjoin (fun list there => ?_) ?_ listed
    · obtain ⟨child, wire, rfl⟩ := List.mem_map.1 there
      exact below child wire
    · rw [List.pairwise_map]
      refine (decomposable position children .refl found).imp_of_mem ?_
      intro left right wire wire' apart s in_left t in_right l member l' member' same
      refine apart l.index ⟨mentions_of_mem_terms ordered (small left wire) in_left member, ?_⟩
      rw [same]
      exact mentions_of_mem_terms ordered (small right wire') in_right member'
  | or opposing children =>
    obtain ⟨_, there, in_child⟩ := List.mem_flatten.1 listed
    obtain ⟨child, wire, rfl⟩ := List.mem_map.1 there
    exact below child wire term in_child

/-- No two terms of a deterministic formula are true together. -/
theorem pairwise_terms (inside : position < nodes.length) (deterministic : Deterministic nodes position)
    (assignment : Nat → Bool) : (terms nodes position).Pairwise (Contradict assignment) := by
  refine ordered.induction (motive := fun position => Deterministic nodes position →
    (terms nodes position).Pairwise (Contradict assignment))
    (fun position node found below deterministic => ?_) inside deterministic
  have small := ordered.child_lt found
  have below := fun child wire =>
    below child wire (Deterministic.child found wire deterministic)
  have true_of : ∀ {child term}, child ∈ node.children → term ∈ terms nodes child →
      term.all (·.holds assignment) = true → value assignment nodes child = true := by
    intro child term wire listed holds
    rw [value, ← any_terms ordered _ (small child wire)]
    exact List.any_eq_true.2 ⟨term, listed, holds⟩
  rw [terms, reading_eq _ ordered found]
  cases node with
  | literal l => exact List.pairwise_singleton _ _
  | and children =>
    refine pairwise_conjoin fun list there => ?_
    obtain ⟨child, wire, rfl⟩ := List.mem_map.1 there
    exact below child wire
  | or opposing children =>
    refine List.pairwise_flatten.2 ⟨fun list there => ?_, ?_⟩
    · obtain ⟨child, wire, rfl⟩ := List.mem_map.1 there
      exact below child wire
    · rw [List.pairwise_map]
      refine (deterministic position opposing children .refl found assignment).imp_of_mem ?_
      intro left right wire wire' apart s in_left t in_right both
      exact apart ⟨true_of wire in_left both.1, true_of wire' in_right both.2⟩

end Literals

end Nnf

end Provenance
