import Mathlib.Algebra.BigOperators.Group.Finset.Basic
import Mathlib.Algebra.GroupWithZero.Nat
import Mathlib.Algebra.Order.BigOperators.Group.Finset
import Mathlib.Data.Finset.Sort
import Mathlib.Logic.Function.Iterate
import Provenance.Network.Cycle
import Provenance.Proofs.Network.Paths

/-!
# The post-order of a network

The depth-first walk keeps its vertices on one line: the finished ones in the order of finishing,
then the open ones, innermost first.  A step finishes a vertex, which leaves the line as it is, or
puts a new vertex between the two parts.  The root stays last, no vertex comes twice, and the
targets of a finished vertex are on the line (`Walking`).  Each step uses up an entry of the stack or
an edge (`Advances`), which bounds the steps.  A walk may also keep for each open vertex how many targets it
has looked at, and go on step by step for as long as a vertex is open (`Tour`); it stops with the same order
(`walking_postOrder`).

Main statement: `postOrder` lists what a gate reaches, each gate once, the root last, and without
cycles each gate behind its children (`mem_postOrder`, `nodup_postOrder`, `getLast?_postOrder`,
`childrenFirst_postOrder`).
-/

namespace Provenance.Order

/-- Every vertex of a list comes behind its targets. -/
def ChildrenFirst (targets : Nat → List Nat) (order : List Nat) : Prop :=
  ∀ before vertex after, order = before ++ vertex :: after →
    ∀ target ∈ targets vertex, target ∈ before

/-- There is an edge from `vertex` to `target`. -/
def Edge (targets : Nat → List Nat) (vertex target : Nat) : Prop := target ∈ targets vertex

theorem childrenFirst_nil (targets : Nat → List Nat) : ChildrenFirst targets [] := by
  intro before vertex after split
  simp at split

/-- A vertex may come next when its targets are there. -/
theorem ChildrenFirst.concat {targets : Nat → List Nat} {order : List Nat} {vertex : Nat}
    (first : ChildrenFirst targets order) (there : ∀ target ∈ targets vertex, target ∈ order) :
    ChildrenFirst targets (order ++ [vertex]) := by
  intro before other after split
  rcases List.eq_nil_or_concat after with rfl | ⟨inner, last, rfl⟩
  · obtain ⟨rfl, same⟩ := List.append_inj' split rfl
    obtain rfl : vertex = other := by simpa using same
    exact there
  · rw [List.concat_eq_append, ← List.cons_append, ← List.append_assoc] at split
    exact first before other inner (List.append_inj' split rfl).1

/-- What passes from the targets of a vertex to the vertex holds of all vertices of the order. -/
theorem ChildrenFirst.induction {targets : Nat → List Nat} {order : List Nat}
    (first : ChildrenFirst targets order) {motive : Nat → Prop}
    (step : ∀ vertex ∈ order, (∀ target ∈ targets vertex, motive target) → motive vertex) :
    ∀ vertex ∈ order, motive vertex := by
  suffices ∀ before after, order = before ++ after → ∀ vertex ∈ before, motive vertex from
    this order [] (List.append_nil order).symm
  intro before
  induction before using List.reverseRecOn with
  | nil => simp
  | append_singleton before last ih =>
    intro after split vertex member
    have split : order = before ++ last :: after := by simp [split]
    have earlier := ih (last :: after) split
    rcases List.mem_append.1 member with member | member
    · exact earlier vertex member
    · obtain rfl := List.mem_singleton.1 member
      exact step vertex (by simp [split]) fun target edge =>
        earlier target (first before vertex after split target edge)

/-- What a step for a vertex behind its targets keeps holds when all vertices of the order had their turn. -/
theorem ChildrenFirst.foldl {targets : Nat → List Nat} {order : List Nat} (first : ChildrenFirst targets order)
    (once : order.Nodup) {σ : Type} {step : σ → Nat → σ} {motive : σ → List Nat → Prop}
    (next : ∀ state before vertex after, order = before ++ vertex :: after → vertex ∉ before →
      (∀ other ∈ before ++ [vertex], ∀ target ∈ targets other, target ∈ before) →
      motive state before → motive (step state vertex) (before ++ [vertex]))
    {state : σ} (start : motive state []) : motive (order.foldl step state) order := by
  suffices ∀ after before state, order = before ++ after → motive state before →
      motive (after.foldl step state) order from this order [] state rfl start
  intro after
  induction after with
  | nil =>
    intro before state split holds
    rw [List.append_nil] at split
    exact split ▸ holds
  | cons vertex after ih =>
    intro before state split holds
    have new : vertex ∉ before := fun member =>
      List.disjoint_of_nodup_append (split ▸ once) member List.mem_cons_self
    have behind : ∀ other ∈ before ++ [vertex], ∀ target ∈ targets other, target ∈ before := by
      intro other member target edge
      rcases List.mem_append.1 member with member | last
      · obtain ⟨earlier, later, same⟩ := List.append_of_mem member
        have there := first earlier other (later ++ vertex :: after) (by simp [split, same]) target edge
        simp [same, there]
      · obtain rfl := List.mem_singleton.1 last
        exact first before other after split target edge
    refine ih (before ++ [vertex]) (step state vertex) (by simp [split]) ?_
    exact next state before vertex after split new behind holds

/-- Marking one more vertex. -/
theorem mem_insert_marks {marks : Marks} {vertex other : Nat} :
    other ∈ marks.insert vertex ↔ other = vertex ∨ other ∈ marks := by
  rw [Std.TreeSet.mem_insert, Nat.compare_eq_eq, eq_comm]

/-! ## The invariant of the walk -/

section Walk

variable {targets : Nat → List Nat} {root : Nat}

/-- The vertices met so far: the finished ones in order, then the open ones. -/
def line (stack : List (Nat × List Nat)) (finished : List Nat) : List Nat :=
  finished.reverse ++ stack.map Prod.fst

/-- What holds between two steps of a walk from `root`. -/
structure Walking (targets : Nat → List Nat) (root : Nat) (stack : List (Nat × List Nat))
    (visited : Marks) (finished : List Nat) : Prop where
  nodup : (line stack finished).Nodup
  mem_visited : ∀ vertex, vertex ∈ visited ↔ vertex ∈ line stack finished
  last : (line stack finished).getLast? = some root
  reached : ∀ vertex ∈ line stack finished, Relation.ReflTransGen (Edge targets) root vertex
  /-- The targets of a finished vertex have been met. -/
  closed : ∀ vertex ∈ finished, ∀ target ∈ targets vertex, target ∈ line stack finished
  /-- An open vertex has only its own targets to look at. -/
  own : ∀ entry ∈ stack, ∀ target ∈ entry.2, target ∈ targets entry.1
  /-- The other targets of an open vertex have been met. -/
  looked : ∀ entry ∈ stack, ∀ target ∈ targets entry.1,
    target ∈ entry.2 ∨ target ∈ line stack finished
  /-- Each open vertex is a target of the one below it. -/
  chain : (stack.map Prod.fst).IsChain fun upper lower => upper ∈ targets lower
  ordered : (∀ vertex, ¬ Relation.TransGen (Edge targets) vertex vertex) →
    ChildrenFirst targets finished.reverse

/-- A vertex can be reached from those below it on the stack. -/
theorem transGen_of_isChain {top : Nat} {below : List Nat}
    (chain : (top :: below).IsChain fun upper lower => upper ∈ targets lower) :
    ∀ lower ∈ below, Relation.TransGen (Edge targets) lower top := by
  induction below generalizing top with
  | nil => simp
  | cons second below ih =>
    obtain ⟨edge, chain⟩ := List.isChain_cons_cons.1 chain
    intro lower member
    rcases List.mem_cons.1 member with rfl | member
    · exact Relation.TransGen.single edge
    · exact (ih chain lower member).tail edge

theorem Walking.start : Walking targets root [(root, targets root)] ((∅ : Marks).insert root) [] where
  nodup := by simp [line]
  mem_visited vertex := by rw [mem_insert_marks]; simp [line]
  last := by simp [line]
  reached vertex member := by
    obtain rfl : vertex = root := by simpa [line] using member
    exact Relation.ReflTransGen.refl
  closed := by simp
  own := by simp
  looked := by
    intro entry member target edge
    obtain rfl := List.mem_singleton.1 member
    exact Or.inl edge
  chain := by simp
  ordered _ := childrenFirst_nil targets

/-- Finishing the innermost vertex leaves the line as it is. -/
theorem Walking.pop {vertex : Nat} {stack : List (Nat × List Nat)} {visited : Marks}
    {finished : List Nat} (walking : Walking targets root ((vertex, []) :: stack) visited finished) :
    Walking targets root stack visited (vertex :: finished) := by
  have same : line stack (vertex :: finished) = line ((vertex, []) :: stack) finished := by
    simp [line]
  have met : ∀ target ∈ targets vertex, target ∈ line ((vertex, []) :: stack) finished := by
    intro target edge
    rcases walking.looked (vertex, []) (by simp) target edge with pending | met
    · simp at pending
    · exact met
  refine
    { nodup := same ▸ walking.nodup
      mem_visited := same ▸ walking.mem_visited
      last := same ▸ walking.last
      reached := same ▸ walking.reached
      closed := ?_
      own := fun entry member => walking.own entry (List.mem_cons_of_mem _ member)
      looked := fun entry member => same ▸ walking.looked entry (List.mem_cons_of_mem _ member)
      chain := (walking.chain.tail :)
      ordered := ?_ }
  · intro other member target edge
    rw [same]
    rcases List.mem_cons.1 member with rfl | member
    · exact met target edge
    · exact walking.closed other member target edge
  · intro acyclic
    rw [List.reverse_cons]
    refine (walking.ordered acyclic).concat fun target edge => ?_
    -- a target that is still open would close a cycle
    have reach := transGen_of_isChain (by simpa using walking.chain)
    have met := met target edge
    simp only [line, List.map_cons, List.mem_append, List.mem_cons] at met
    rcases met with finished | rfl | open_
    · exact finished
    · exact absurd (Relation.TransGen.single edge) (acyclic _)
    · exact absurd ((reach target open_).tail edge) (acyclic _)

/-- Passing over a target that has been met. -/
theorem Walking.skip {vertex target : Nat} {rest : List Nat} {stack : List (Nat × List Nat)}
    {visited : Marks} {finished : List Nat}
    (walking : Walking targets root ((vertex, target :: rest) :: stack) visited finished)
    (met : target ∈ visited) : Walking targets root ((vertex, rest) :: stack) visited finished where
  nodup := walking.nodup
  mem_visited := walking.mem_visited
  last := walking.last
  reached := walking.reached
  closed := walking.closed
  own := by
    intro entry member other pending
    rcases List.mem_cons.1 member with rfl | member
    · exact walking.own (vertex, target :: rest) (by simp) other (List.mem_cons_of_mem _ pending)
    · exact walking.own entry (List.mem_cons_of_mem _ member) other pending
  looked := by
    intro entry member other edge
    rcases List.mem_cons.1 member with rfl | member
    · rcases walking.looked (vertex, target :: rest) (by simp) other edge with pending | other_met
      · rcases List.mem_cons.1 pending with rfl | pending
        · exact Or.inr ((walking.mem_visited other).1 met)
        · exact Or.inl pending
      · exact Or.inr other_met
    · exact walking.looked entry (List.mem_cons_of_mem _ member) other edge
  chain := walking.chain
  ordered := walking.ordered

/-- Opening a target that is new. -/
theorem Walking.push {vertex target : Nat} {rest : List Nat} {stack : List (Nat × List Nat)}
    {visited : Marks} {finished : List Nat}
    (walking : Walking targets root ((vertex, target :: rest) :: stack) visited finished)
    (new : target ∉ visited) :
    Walking targets root ((target, targets target) :: (vertex, rest) :: stack)
      (visited.insert target) finished := by
  have grows : ∀ other, other ∈ line ((target, targets target) :: (vertex, rest) :: stack) finished ↔
      other = target ∨ other ∈ line ((vertex, target :: rest) :: stack) finished := by
    intro other
    simp only [line, List.map_cons, List.mem_append, List.mem_cons]
    exact or_left_comm
  have edge : target ∈ targets vertex := walking.own (vertex, target :: rest) (by simp) target (by simp)
  refine
    { nodup := ?_
      mem_visited := ?_
      last := ?_
      reached := ?_
      closed := ?_
      own := ?_
      looked := ?_
      chain := ?_
      ordered := walking.ordered }
  · have new := mt (walking.mem_visited target).2 new
    refine (List.perm_middle.nodup_iff).2 (List.nodup_cons.2 ⟨?_, walking.nodup⟩)
    simpa [line] using new
  · intro other
    rw [grows, mem_insert_marks, walking.mem_visited]
  · simpa [line, List.getLast?_append] using walking.last
  · intro other member
    rcases (grows other).1 member with rfl | member
    · exact (walking.reached vertex (by simp [line])).tail edge
    · exact walking.reached other member
  · intro other member next out
    exact (grows next).2 (Or.inr (walking.closed other member next out))
  · intro entry member other pending
    rcases List.mem_cons.1 member with rfl | member
    · exact pending
    · rcases List.mem_cons.1 member with rfl | member
      · exact walking.own (vertex, target :: rest) (by simp) other (List.mem_cons_of_mem _ pending)
      · exact walking.own entry (List.mem_cons_of_mem _ member) other pending
  · intro entry member other out
    rw [grows]
    rcases List.mem_cons.1 member with rfl | member
    · exact Or.inl out
    · rcases List.mem_cons.1 member with rfl | member
      · rcases walking.looked (vertex, target :: rest) (by simp) other out with pending | met
        · rcases List.mem_cons.1 pending with rfl | pending
          · exact Or.inr (Or.inl rfl)
          · exact Or.inl pending
        · exact Or.inr (Or.inr met)
      · rcases walking.looked entry (List.mem_cons_of_mem _ member) other out with pending | met
        · exact Or.inl pending
        · exact Or.inr (Or.inr met)
  · exact List.isChain_cons_cons.2 ⟨edge, walking.chain⟩

/-! ## The walk as a whole -/

/-- The steps that a walk still makes at most: one for each vertex and each edge that waits. -/
def steps (targets : Nat → List Nat) (all : Finset Nat) (stack : List (Nat × List Nat))
    (visited : Marks) : Nat :=
  (stack.map fun entry => entry.2.length + 1).sum +
    ∑ vertex ∈ all with vertex ∉ visited, ((targets vertex).length + 1)

/-- Opening a vertex moves its steps from the vertices not met to the stack. -/
theorem sum_unvisited_insert {all : Finset Nat} (visited : Marks) {target : Nat}
    (member : target ∈ all) (new : target ∉ visited) (cost : Nat → Nat) :
    (∑ vertex ∈ all with vertex ∉ visited.insert target, cost vertex) + cost target =
      ∑ vertex ∈ all with vertex ∉ visited, cost vertex := by
  have split : (all.filter fun vertex => vertex ∉ visited) =
      insert target (all.filter fun vertex => vertex ∉ visited.insert target) := by
    ext vertex
    simp only [Finset.mem_filter, Finset.mem_insert, mem_insert_marks]
    by_cases same : vertex = target
    · subst same; simp [member, new]
    · simp [same]
  rw [split, Finset.sum_insert, Nat.add_comm]
  simp

/-- What a step makes of the stack, the marks and the finished vertices. -/
inductive Advances (targets : Nat → List Nat) : List (Nat × List Nat) → Marks → List Nat →
    List (Nat × List Nat) → Marks → List Nat → Prop where
  | pop {vertex : Nat} {stack : List (Nat × List Nat)} {visited : Marks} {finished : List Nat} :
      Advances targets ((vertex, []) :: stack) visited finished stack visited (vertex :: finished)
  | skip {vertex target : Nat} {rest : List Nat} {stack : List (Nat × List Nat)} {visited : Marks}
      {finished : List Nat} (met : target ∈ visited) :
      Advances targets ((vertex, target :: rest) :: stack) visited finished ((vertex, rest) :: stack) visited
        finished
  | push {vertex target : Nat} {rest : List Nat} {stack : List (Nat × List Nat)} {visited : Marks}
      {finished : List Nat} (new : target ∉ visited) :
      Advances targets ((vertex, target :: rest) :: stack) visited finished
        ((target, targets target) :: (vertex, rest) :: stack) (visited.insert target) finished

namespace Advances

variable {stack stack' : List (Nat × List Nat)} {visited visited' : Marks} {finished finished' : List Nat}
  (advances : Advances targets stack visited finished stack' visited' finished')

include advances

theorem walking (walking : Walking targets root stack visited finished) :
    Walking targets root stack' visited' finished' := by
  cases advances with
  | pop => exact walking.pop
  | skip met => exact walking.skip met
  | push new => exact walking.push new

/-- A step uses up one of those that are left. -/
theorem steps_lt {all : Finset Nat} (walking : Walking targets root stack visited finished)
    (inside : ∀ vertex, Relation.ReflTransGen (Edge targets) root vertex → vertex ∈ all) :
    steps targets all stack' visited' < steps targets all stack visited := by
  cases advances with
  | pop => simp [steps]
  | skip met => simp [steps]
  | @push vertex target rest stack _ _ new =>
    have edge : target ∈ targets vertex := walking.own (vertex, target :: rest) (by simp) target (by simp)
    have member : target ∈ all := inside target ((walking.reached vertex (by simp [line])).tail edge)
    have moved := sum_unvisited_insert visited member new fun vertex => (targets vertex).length + 1
    simp only [steps, List.map_cons, List.sum_cons, List.length_cons]
    omega

theorem walk_eq (fuel : Nat) :
    walk targets (fuel + 1) stack visited finished = walk targets fuel stack' visited' finished' := by
  cases advances with
  | pop => rfl
  | skip met =>
    rw [walk]
    exact if_pos met
  | push new =>
    rw [walk]
    exact if_neg new

end Advances

end Walk

/-! ## The walk step by step -/

/-- A walk under way: the open vertices, innermost first, each with the number of its targets that it has looked
at; the vertices that were met; and the finished ones in order. -/
structure Tour where
  stack : List (Nat × Nat)
  visited : Marks
  order : List Nat

namespace Tour

variable {targets : Nat → List Nat} {root : Nat}

/-- The walk that has met its root only. -/
def start (root : Nat) : Tour := ⟨[(root, 0)], (∅ : Marks).insert root, []⟩

/-- One step: the innermost open vertex looks at its next target, which is opened when it is new, or is finished
when there is none. -/
def step (targets : Nat → List Nat) : Tour → Tour
  | ⟨[], visited, order⟩ => ⟨[], visited, order⟩
  | ⟨(vertex, next) :: stack, visited, order⟩ =>
    match (targets vertex)[next]? with
    | none => ⟨stack, visited, order ++ [vertex]⟩
    | some target =>
      if visited.contains target then ⟨(vertex, next + 1) :: stack, visited, order⟩
      else ⟨(target, 0) :: (vertex, next + 1) :: stack, visited.insert target, order⟩

/-- Where no vertex is open nothing changes any more. -/
theorem step_of_nil {tour : Tour} (none_open : tour.stack = []) : tour.step targets = tour := by
  obtain ⟨_, visited, order⟩ := tour
  subst none_open
  rfl

/-- The open vertices, each with the targets that it has not looked at. -/
def waiting (targets : Nat → List Nat) (tour : Tour) : List (Nat × List Nat) :=
  tour.stack.map fun entry => (entry.1, (targets entry.1).drop entry.2)

theorem advances_step (targets : Nat → List Nat) (tour : Tour) (some_open : tour.stack ≠ []) :
    Advances targets (tour.waiting targets) tour.visited tour.order.reverse
      ((tour.step targets).waiting targets) (tour.step targets).visited (tour.step targets).order.reverse := by
  obtain ⟨_ | ⟨⟨vertex, next⟩, stack⟩, visited, order⟩ := tour
  · exact absurd rfl some_open
  · cases looked : (targets vertex)[next]? with
    | none =>
      have done : (targets vertex).drop next = [] := List.drop_eq_nil_iff.2 (List.getElem?_eq_none_iff.1 looked)
      simp only [step, waiting, looked, List.map_cons, done, List.reverse_append, List.reverse_singleton,
        List.singleton_append]
      exact .pop
    | some target =>
      obtain ⟨inside, here⟩ := List.getElem?_eq_some_iff.1 looked
      have left : (targets vertex).drop next = target :: (targets vertex).drop (next + 1) := by
        rw [← here, List.drop_eq_getElem_cons inside]
      by_cases met : visited.contains target = true
      · simp only [step, waiting, looked, List.map_cons, left, if_pos met]
        exact .skip met
      · simp only [step, waiting, looked, List.map_cons, left, if_neg met, List.drop_zero]
        exact .push met

/-- The walk finishes what its steps finish. -/
theorem walk_waiting (fuel : Nat) (tour : Tour) :
    walk targets fuel (tour.waiting targets) tour.visited tour.order.reverse =
      ((step targets)^[fuel] tour).order := by
  induction fuel generalizing tour with
  | zero => rw [walk, List.reverse_reverse, Function.iterate_zero, id]
  | succ fuel ih =>
    rw [Function.iterate_succ_apply, ← ih]
    by_cases none_open : tour.stack = []
    · obtain ⟨_, visited, order⟩ := tour
      subst none_open
      cases fuel <;> rfl
    · exact (advances_step targets tour none_open).walk_eq fuel

/-- After enough steps no vertex is open any more. -/
theorem iterate_spec {all : Finset Nat} (fuel : Nat) (tour : Tour)
    (walking : Walking targets root (tour.waiting targets) tour.visited tour.order.reverse)
    (inside : ∀ vertex, Relation.ReflTransGen (Edge targets) root vertex → vertex ∈ all)
    (enough : steps targets all (tour.waiting targets) tour.visited ≤ fuel) :
    ((step targets)^[fuel] tour).stack = [] ∧ Walking targets root [] ((step targets)^[fuel] tour).visited
      ((step targets)^[fuel] tour).order.reverse := by
  induction fuel generalizing tour with
  | zero =>
    obtain ⟨_ | ⟨entry, stack⟩, visited, order⟩ := tour
    · exact ⟨rfl, walking⟩
    · simp [steps, waiting] at enough
  | succ fuel ih =>
    rw [Function.iterate_succ_apply]
    by_cases none_open : tour.stack = []
    · rw [step_of_nil none_open, Function.iterate_fixed (step_of_nil none_open)]
      have closed : tour.waiting targets = [] := by rw [waiting, none_open, List.map_nil]
      exact ⟨none_open, closed ▸ walking⟩
    · have advances := advances_step targets tour none_open
      have fewer := advances.steps_lt walking inside
      exact ih _ (advances.walking walking) (by omega)

end Tour

end Provenance.Order

namespace Provenance.Network

open Provenance.Order

variable {κ : Type} {n : Network κ}

/-- As many kinds as lists of children. -/
def Even (n : Network κ) : Prop := n.wires.size = n.kinds.size

theorem Even.lt_of_wire {gate child : Nat} (even : n.Even) (wire : child ∈ n.children gate) :
    gate < n.size := by
  have small := Network.lt_of_wire wire
  rwa [even] at small

/-- All gates that a gate reaches are gates of the table. -/
def Inside (n : Network κ) (root : Nat) : Prop := ∀ gate, n.Reaches root gate → gate < n.size

/-- The number of entries of a table of lists is the sum of their lengths. -/
theorem foldl_length_eq_sum {β : Type} (table : Array (List β)) :
    table.foldl (fun count entries => count + entries.length) 0 =
      ∑ position ∈ Finset.range table.size, (table.getD position []).length := by
  have entry : ∀ position, table.getD position [] = table.toList.getD position [] := by
    intro position
    simp [Array.getD_eq_getD_getElem?, List.getD_eq_getElem?_getD]
  rw [← Array.foldl_toList, ← Array.length_toList]
  simp only [entry]
  generalize table.toList = lists
  suffices ∀ start, lists.foldl (fun count entries => count + entries.length) start =
      start + ∑ position ∈ Finset.range lists.length, (lists.getD position []).length by
    simpa using this 0
  induction lists with
  | nil => simp
  | cons first lists ih =>
    intro start
    rw [List.foldl_cons, ih, List.length_cons, Finset.sum_range_succ']
    simp
    omega

/-- The number of wires is the sum of the numbers of children. -/
theorem wireCount_eq_sum (even : n.Even) :
    n.wireCount = ∑ gate ∈ Finset.range n.size, (n.children gate).length := by
  rw [wireCount, foldl_length_eq_sum, even]
  rfl

/-- The walk for a post-order makes at most one step for each gate and each wire. -/
theorem steps_postOrder {root : Nat} (even : n.Even) (inside : n.Inside root) :
    steps n.children (Finset.range n.size) [(root, n.children root)] ((∅ : Marks).insert root) ≤
      n.size + n.wireCount + 1 := by
  have here : root ∈ Finset.range n.size := Finset.mem_range.2 (inside root (.refl root))
  have moved := sum_unvisited_insert ∅ here (by simp)
    fun vertex => (n.children vertex).length + 1
  have all : (∑ vertex ∈ Finset.range n.size with vertex ∉ (∅ : Marks),
      ((n.children vertex).length + 1)) = n.wireCount + n.size := by
    rw [wireCount_eq_sum even, Finset.filter_true_of_mem (by simp), Finset.sum_add_distrib]
    simp
  simp only [steps, List.map_cons, List.map_nil, List.sum_cons, List.sum_nil]
  omega

/-- The post-order is what a walk has finished after a step for each gate and each wire. -/
theorem postOrder_eq_iterate (n : Network κ) (root : Nat) :
    n.postOrder root = ((Tour.step n.children)^[n.size + n.wireCount + 1] (.start root)).order :=
  Tour.walk_waiting _ (.start root)

/-- The walk for a post-order ends. -/
theorem walking_postOrder {root : Nat} (even : n.Even) (inside : n.Inside root) :
    ∃ visited, (Tour.step n.children)^[n.size + n.wireCount + 1] (.start root) =
        ⟨[], visited, n.postOrder root⟩ ∧
      Walking n.children root [] visited (n.postOrder root).reverse := by
  obtain ⟨none_open, walking⟩ := Tour.iterate_spec (n.size + n.wireCount + 1) (.start root)
    Walking.start (fun gate path => Finset.mem_range.2 (inside gate path)) (steps_postOrder even inside)
  rw [← postOrder_eq_iterate] at walking
  refine ⟨_, ?_, walking⟩
  rw [postOrder_eq_iterate, ← none_open]

section

variable {root : Nat} (even : n.Even) (inside : n.Inside root)

include even inside

theorem nodup_postOrder : (n.postOrder root).Nodup := by
  obtain ⟨_, _, walking⟩ := walking_postOrder even inside
  simpa [line] using walking.nodup

theorem getLast?_postOrder : (n.postOrder root).getLast? = some root := by
  obtain ⟨_, _, walking⟩ := walking_postOrder even inside
  simpa [line] using walking.last

/-- The post-order lists what the root reaches. -/
theorem mem_postOrder {gate : Nat} : gate ∈ n.postOrder root ↔ n.Reaches root gate := by
  obtain ⟨_, _, walking⟩ := walking_postOrder even inside
  constructor
  · intro member
    exact walking.reached gate (by simpa [line] using member)
  · intro path
    induction path with
    | refl => exact List.mem_of_getLast? (getLast?_postOrder even inside)
    | tail path wire ih =>
      simpa [line] using walking.closed _ (by simpa using ih) _ wire

/-- Without cycles each gate comes behind its children. -/
theorem childrenFirst_postOrder (acyclic : n.Acyclic) :
    ChildrenFirst n.children (n.postOrder root) := by
  obtain ⟨_, _, walking⟩ := walking_postOrder even inside
  simpa using walking.ordered acyclic

end

end Provenance.Network
