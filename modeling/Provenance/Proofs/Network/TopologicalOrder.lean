import Provenance.Proofs.Network.PostOrder

/-!
# Topological orders

When the second pass finds nothing each vertex of the order comes behind its sources, or is one of them;
and the first pass visits no vertex that is its own target.  Each step of the first pass uses up an entry of
the stack or an edge, so with enough steps it finishes every vertex that it visits, and all vertices that it
starts from are in the order (`mem_of_topologicalOrder`).

A vertex that waits reaches all that is stacked above it (`Descending`), so each of its targets is finished
before it or leads back to it.  Hence a vertex that either pass finds is on a cycle
(`cycle_of_topologicalOrder`), and there is an order exactly when there is no cycle
(`exists_topologicalOrder_iff`).
-/

namespace Provenance.Order

variable {targets sources : Nat → List Nat}

/-- The first pass visits no vertex that is its own target, and lists visited ones only. -/
def Passed.Proper (targets : Nat → List Nat) (passed : Passed) : Prop :=
  (∀ vertex ∈ passed.visited, vertex ∉ targets vertex) ∧ ∀ vertex ∈ passed.order, vertex ∈ passed.visited

theorem Passed.Proper.explore {fuel : Nat} {stack : List Nat} {passed passed' : Passed}
    (proper : passed.Proper targets) (explored : Order.explore targets fuel stack passed = .ok passed') :
    passed'.Proper targets := by
  induction fuel generalizing stack passed with
  | zero => exact Except.ok.inj explored ▸ proper
  | succ fuel ih =>
    cases stack with
    | nil => exact Except.ok.inj explored ▸ proper
    | cons vertex stack =>
      rw [Order.explore] at explored
      split at explored
      · rename_i visited
        split at explored
        · exact ih proper explored
        · have finish : Passed.Proper targets
              ⟨passed.visited, passed.finished.insert vertex, vertex :: passed.order⟩ := by
            refine ⟨proper.1, fun other listed => ?_⟩
            rcases List.mem_cons.1 listed with rfl | listed
            · exact Std.TreeSet.mem_iff_contains.2 visited
            · exact proper.2 other listed
          exact ih finish explored
      · split at explored
        · cases explored
        · rename_i no_loop
          have meet : Passed.Proper targets
              ⟨passed.visited.insert vertex, passed.finished, passed.order⟩ := by
            refine ⟨fun other visited => ?_, fun other listed => ?_⟩
            · rcases mem_insert_marks.1 visited with rfl | visited
              · simpa using no_loop
              · exact proper.1 other visited
            · exact mem_insert_marks.2 (Or.inr (proper.2 other listed))
          exact ih meet explored

theorem Passed.Proper.exploreAll {fuel : Nat} {vertices : List Nat} {passed passed' : Passed}
    (proper : passed.Proper targets)
    (explored : Order.exploreAll targets fuel vertices passed = .ok passed') : passed'.Proper targets := by
  induction vertices generalizing passed with
  | nil => exact Except.ok.inj explored ▸ proper
  | cons vertex rest ih =>
    rw [Order.exploreAll] at explored
    split at explored
    · exact ih proper explored
    · split at explored
      · rename_i found
        exact ih (proper.explore found) explored
      · cases explored

/-- Where the second pass finds nothing each vertex comes behind its sources or is one of them. -/
theorem mem_of_backEdge? {vertices : List Nat} {passed : Marks}
    (none_found : backEdge? sources vertices passed = none) {before after : List Nat} {vertex : Nat}
    (split : vertices = before ++ vertex :: after) :
    ∀ source ∈ sources vertex, source ∈ before ∨ source = vertex ∨ source ∈ passed := by
  induction vertices generalizing before passed with
  | nil => simp at split
  | cons first rest ih =>
    rw [backEdge?] at none_found
    cases back : (sources first).reverse.find? (!(passed.insert first).contains ·) with
    | some source =>
      simp only [back] at none_found
      cases none_found
    | none =>
      simp only [back] at none_found
      cases before with
      | nil =>
        obtain ⟨rfl, _⟩ := List.cons.inj split
        intro source listed
        have there := List.find?_eq_none.1 back source (List.mem_reverse.2 listed)
        simp only [Bool.not_eq_true', Bool.not_eq_false] at there
        exact Or.inr (mem_insert_marks.1 (Std.TreeSet.mem_iff_contains.2 there))
      | cons other before =>
        rw [List.cons_append] at split
        obtain ⟨rfl, rest_split⟩ := List.cons.inj split
        intro source listed
        rcases ih none_found rest_split source listed with earlier | same | there
        · exact Or.inl (List.mem_cons_of_mem first earlier)
        · exact Or.inr (Or.inl same)
        · rcases mem_insert_marks.1 there with rfl | there
          · exact Or.inl List.mem_cons_self
          · exact Or.inr (Or.inr there)

/-- A topological order is what the first pass lists, and the second one finds nothing in it. -/
theorem topologicalOrder_eq_ok_iff {size : Nat} {vertices order : List Nat} :
    topologicalOrder targets sources size vertices = .ok order ↔
      ∃ passed, exploreAll targets (2 * size + 2) vertices ⟨∅, ∅, []⟩ = .ok passed ∧
        backEdge? sources passed.order ∅ = none ∧ passed.order = order := by
  rw [topologicalOrder]
  cases explored : exploreAll targets (2 * size + 2) vertices ⟨∅, ∅, []⟩ with
  | error vertex => simp
  | ok passed => cases back : backEdge? sources passed.order ∅ <;> simp [back]

/-- In a topological order each vertex comes behind its sources, when edges to itself are known at both
ends. -/
theorem childrenFirst_of_topologicalOrder {size : Nat} {vertices order : List Nat}
    (loops : ∀ vertex, vertex ∈ sources vertex → vertex ∈ targets vertex)
    (ordered : topologicalOrder targets sources size vertices = .ok order) :
    ChildrenFirst sources order := by
  obtain ⟨passed, explored, back, rfl⟩ := topologicalOrder_eq_ok_iff.1 ordered
  have start : Passed.Proper targets ⟨∅, ∅, []⟩ :=
    ⟨fun _ visited => absurd visited Std.TreeSet.not_mem_emptyc, fun _ listed =>
      absurd listed List.not_mem_nil⟩
  have proper := start.exploreAll explored
  intro before vertex after split source listed
  rcases mem_of_backEdge? back split source listed with earlier | rfl | there
  · exact earlier
  · have member : source ∈ passed.order := by simp [split]
    exact absurd (loops source listed) (proper.1 source (proper.2 source member))
  · exact absurd there Std.TreeSet.not_mem_emptyc

/-! ## The first pass is complete -/

/-- What the first pass costs at most: an entry of the stack each, and for each vertex that is not visited
one step and one for each edge. -/
def passSteps (targets : Nat → List Nat) (all : Finset Nat) (stack : List Nat) (visited : Marks) : Nat :=
  stack.length + ∑ vertex ∈ all with vertex ∉ visited, ((targets vertex).length + 1)

/-- Between two steps each visited vertex is finished or waits on the stack. -/
structure Passing (all : Finset Nat) (stack : List Nat) (passed : Passed) : Prop where
  inside : ∀ vertex ∈ stack, vertex ∈ all
  waiting : ∀ vertex ∈ passed.visited, vertex ∈ passed.finished ∨ vertex ∈ stack
  listed : ∀ vertex ∈ passed.finished, vertex ∈ passed.order
  within : ∀ vertex ∈ passed.order, vertex ∈ all

section Complete

variable {all : Finset Nat} (closed : ∀ vertex ∈ all, ∀ target ∈ targets vertex, target ∈ all)

namespace Passing

variable {vertex : Nat} {stack : List Nat} {passed : Passed}

/-- A finished vertex is passed over. -/
theorem skip (passing : Passing all (vertex :: stack) passed) (done : vertex ∈ passed.finished) :
    Passing all stack passed where
  inside other member := passing.inside other (List.mem_cons_of_mem vertex member)
  waiting other visited := by
    rcases passing.waiting other visited with finished | member
    · exact Or.inl finished
    · rcases List.mem_cons.1 member with rfl | member
      · exact Or.inl done
      · exact Or.inr member
  listed := passing.listed
  within := passing.within

theorem finish (passing : Passing all (vertex :: stack) passed) :
    Passing all stack ⟨passed.visited, passed.finished.insert vertex, vertex :: passed.order⟩ where
  inside other member := passing.inside other (List.mem_cons_of_mem vertex member)
  waiting other visited := by
    rw [mem_insert_marks]
    rcases passing.waiting other visited with finished | member
    · exact Or.inl (Or.inr finished)
    · rcases List.mem_cons.1 member with rfl | member
      · exact Or.inl (Or.inl rfl)
      · exact Or.inr member
  listed other finished := by
    rcases mem_insert_marks.1 finished with rfl | finished
    · exact List.mem_cons_self
    · exact List.mem_cons_of_mem vertex (passing.listed other finished)
  within other member := by
    rcases List.mem_cons.1 member with rfl | member
    · exact passing.inside other List.mem_cons_self
    · exact passing.within other member

/-- A vertex is visited and its targets are stacked above it. -/
theorem visit (passing : Passing all (vertex :: stack) passed) {pending : List Nat}
    (inside : ∀ target ∈ pending, target ∈ all) :
    Passing all (pending ++ vertex :: stack) ⟨passed.visited.insert vertex, passed.finished, passed.order⟩ where
  inside other member := by
    rcases List.mem_append.1 member with member | member
    · exact inside other member
    · exact passing.inside other member
  waiting other visited := by
    rcases mem_insert_marks.1 visited with rfl | visited
    · exact Or.inr (List.mem_append_right _ List.mem_cons_self)
    · exact (passing.waiting other visited).imp_right (List.mem_append_right _)
  listed := passing.listed
  within := passing.within

/-- Where the stack is empty all that was visited is finished, and the next vertex may be stacked. -/
theorem next (passing : Passing all [] passed) (inside : vertex ∈ all) : Passing all [vertex] passed where
  inside _ member := List.mem_singleton.1 member ▸ inside
  waiting other visited := (passing.waiting other visited).imp_right fun none => absurd none List.not_mem_nil
  listed := passing.listed
  within := passing.within

theorem start : Passing all [] ⟨∅, ∅, []⟩ where
  inside _ none := absurd none List.not_mem_nil
  waiting _ visited := absurd visited Std.TreeSet.not_mem_emptyc
  listed _ finished := absurd finished Std.TreeSet.not_mem_emptyc
  within _ none := absurd none List.not_mem_nil

end Passing

include closed

/-- With enough steps the first pass ends with an empty stack. -/
theorem passing_explore {fuel : Nat} {stack : List Nat} {passed passed' : Passed}
    (passing : Passing all stack passed) (enough : passSteps targets all stack passed.visited ≤ fuel)
    (explored : explore targets fuel stack passed = .ok passed') :
    Passing all [] passed' ∧ (∀ vertex ∈ stack, vertex ∈ passed'.visited) ∧
      ∀ vertex ∈ passed.visited, vertex ∈ passed'.visited := by
  induction fuel generalizing stack passed with
  | zero =>
    obtain rfl := Except.ok.inj explored
    have empty : stack = [] := by
      have none_left := Nat.le_zero.1 (Nat.le_of_add_right_le enough)
      exact List.length_eq_zero_iff.1 none_left
    subst empty
    exact ⟨passing, fun _ none => absurd none List.not_mem_nil, fun _ visited => visited⟩
  | succ fuel ih =>
    cases stack with
    | nil =>
      obtain rfl := Except.ok.inj explored
      exact ⟨passing, fun _ none => absurd none List.not_mem_nil, fun _ visited => visited⟩
    | cons vertex stack =>
      have fewer : passSteps targets all stack passed.visited ≤ fuel := by
        simp only [passSteps, List.length_cons] at enough ⊢
        omega
      rw [explore] at explored
      split at explored
      · rename_i visited
        have visited : vertex ∈ passed.visited := Std.TreeSet.mem_iff_contains.2 visited
        split at explored
        · rename_i finished
          obtain ⟨ended, reached, kept⟩ :=
            ih (passing.skip (Std.TreeSet.mem_iff_contains.2 finished)) fewer explored
          exact ⟨ended, List.forall_mem_cons.2 ⟨kept vertex visited, reached⟩, kept⟩
        · obtain ⟨ended, reached, kept⟩ := ih passing.finish fewer explored
          exact ⟨ended, List.forall_mem_cons.2 ⟨kept vertex visited, reached⟩, kept⟩
      · rename_i new
        have new : vertex ∉ passed.visited := fun visited => new (Std.TreeSet.mem_iff_contains.1 visited)
        split at explored
        · cases explored
        · have member := passing.inside vertex List.mem_cons_self
          have moved := sum_unvisited_insert passed.visited member new
            fun vertex => (targets vertex).length + 1
          have few : (((targets vertex).filter
              (!(passed.visited.insert vertex).contains ·)).reverse).length ≤ (targets vertex).length := by
            rw [List.length_reverse]
            exact List.length_filter_le _ _
          obtain ⟨ended, reached, kept⟩ := ih (passing.visit fun target waiting =>
              closed vertex member target (List.mem_of_mem_filter (List.mem_reverse.1 waiting)))
            (by
              simp only [passSteps, List.length_append, List.length_cons] at enough ⊢
              omega) explored
          refine ⟨ended, fun other there => reached other (List.mem_append_right _ there),
            fun other visited => kept other (mem_insert_marks.2 (Or.inr visited))⟩

/-- Steps that are enough for all vertices and edges are enough for what one vertex leads to. -/
theorem passing_explore_one {fuel vertex : Nat} {passed passed' : Passed} (passing : Passing all [] passed)
    (inside : vertex ∈ all) (enough : 1 + ∑ vertex ∈ all, ((targets vertex).length + 1) ≤ fuel)
    (explored : explore targets fuel [vertex] passed = .ok passed') :
    Passing all [] passed' ∧ vertex ∈ passed'.visited ∧ ∀ other ∈ passed.visited, other ∈ passed'.visited := by
  have part : ∑ vertex ∈ all with vertex ∉ passed.visited, ((targets vertex).length + 1) ≤
      ∑ vertex ∈ all, ((targets vertex).length + 1) :=
    Finset.sum_le_sum_of_subset (Finset.filter_subset _ _)
  obtain ⟨ended, reached, kept⟩ := passing_explore closed (passing.next inside)
    ((Nat.add_le_add_left part 1).trans enough) explored
  exact ⟨ended, reached vertex (List.mem_singleton.2 rfl), kept⟩

theorem passing_exploreAll {fuel : Nat} {vertices : List Nat} {passed passed' : Passed}
    (passing : Passing all [] passed) (inside : ∀ vertex ∈ vertices, vertex ∈ all)
    (enough : 1 + ∑ vertex ∈ all, ((targets vertex).length + 1) ≤ fuel)
    (explored : exploreAll targets fuel vertices passed = .ok passed') :
    Passing all [] passed' ∧ (∀ vertex ∈ vertices, vertex ∈ passed'.visited) ∧
      ∀ vertex ∈ passed.visited, vertex ∈ passed'.visited := by
  induction vertices generalizing passed with
  | nil =>
    obtain rfl := Except.ok.inj explored
    exact ⟨passing, fun _ none => absurd none List.not_mem_nil, fun _ visited => visited⟩
  | cons vertex rest ih =>
    have inside_rest : ∀ other ∈ rest, other ∈ all := fun other member =>
      inside other (List.mem_cons_of_mem vertex member)
    rw [exploreAll] at explored
    split at explored
    · rename_i visited
      obtain ⟨ended, reached, kept⟩ := ih passing inside_rest explored
      have visited : vertex ∈ passed.visited := Std.TreeSet.mem_iff_contains.2 visited
      exact ⟨ended, List.forall_mem_cons.2 ⟨kept vertex visited, reached⟩, kept⟩
    · split at explored
      · rename_i middle found
        obtain ⟨middle_passing, first, before⟩ :=
          passing_explore_one closed passing (inside vertex List.mem_cons_self) enough found
        obtain ⟨ended, reached, kept⟩ := ih middle_passing inside_rest explored
        exact ⟨ended, List.forall_mem_cons.2 ⟨kept vertex first, reached⟩,
          fun other visited => kept other (before other visited)⟩
      · cases explored

/-- A topological order lists all vertices that it starts from, and no other than `all`. -/
theorem mem_of_topologicalOrder {size : Nat} {vertices order : List Nat}
    (inside : ∀ vertex ∈ vertices, vertex ∈ all)
    (enough : ∑ vertex ∈ all, ((targets vertex).length + 1) ≤ 2 * size + 1)
    (ordered : topologicalOrder targets sources size vertices = .ok order) :
    (∀ vertex ∈ vertices, vertex ∈ order) ∧ ∀ vertex ∈ order, vertex ∈ all := by
  obtain ⟨passed, explored, _, rfl⟩ := topologicalOrder_eq_ok_iff.1 ordered
  obtain ⟨ended, reached, _⟩ := passing_exploreAll closed .start inside (by omega) explored
  refine ⟨fun vertex member => ended.listed vertex ?_, ended.within⟩
  exact (ended.waiting vertex (reached vertex member)).resolve_right List.not_mem_nil

end Complete

/-! ## Vertices on a cycle -/

/-- Each target of a vertex of the list comes behind it or leads back to it. -/
def Returning (targets : Nat → List Nat) (order : List Nat) : Prop :=
  ∀ before vertex after, order = before ++ vertex :: after → ∀ target ∈ targets vertex,
    target ∈ after ∨ Relation.TransGen (Edge targets) target vertex

theorem Returning.cons {order : List Nat} {vertex : Nat} (returning : Returning targets order)
    (there : ∀ target ∈ targets vertex, target ∈ order ∨ Relation.TransGen (Edge targets) target vertex) :
    Returning targets (vertex :: order) := by
  intro before other after split
  cases before with
  | nil =>
    obtain ⟨rfl, rfl⟩ := List.cons.inj split
    exact there
  | cons first before =>
    rw [List.cons_append] at split
    exact returning before other after (List.cons.inj split).2

/-- A vertex that waits on the stack reaches all that is above it, where those of its targets are that are not
visited; the finished vertices are listed once, the last one first. -/
structure Descending (targets : Nat → List Nat) (stack : List Nat) (passed : Passed) : Prop where
  above : ∀ vertex ∈ passed.visited, vertex ∉ passed.finished →
    ∀ target ∈ targets vertex, target ∈ passed.visited ∨ target ∈ stack.takeWhile (· != vertex)
  reached : ∀ vertex ∈ passed.visited, vertex ∉ passed.finished →
    ∀ other ∈ stack.takeWhile (· != vertex), Relation.TransGen (Edge targets) vertex other
  listed : ∀ vertex, vertex ∈ passed.order ↔ vertex ∈ passed.finished
  nodup : passed.order.Nodup
  returning : Returning targets passed.order

namespace Descending

variable {vertex : Nat} {stack : List Nat} {passed : Passed}

theorem skip (descending : Descending targets (vertex :: stack) passed) (visited : vertex ∈ passed.visited)
    (done : vertex ∈ passed.finished) : Descending targets stack passed where
  above other visited' unfinished target edge := by
    have different : vertex ≠ other := fun same => unfinished (same ▸ done)
    have there := descending.above other visited' unfinished target edge
    rw [List.takeWhile_cons_of_pos (by simpa using different), List.mem_cons] at there
    rcases there with met | rfl | there
    · exact Or.inl met
    · exact Or.inl visited
    · exact Or.inr there
  reached other visited' unfinished upper member := by
    have different : vertex ≠ other := fun same => unfinished (same ▸ done)
    refine descending.reached other visited' unfinished upper ?_
    rw [List.takeWhile_cons_of_pos (by simpa using different)]
    exact List.mem_cons_of_mem vertex member
  listed := descending.listed
  nodup := descending.nodup
  returning := descending.returning

/-- Nothing is above the top of the stack, so its targets are visited; one that is not finished waits below it
and reaches it. -/
theorem finish (descending : Descending targets (vertex :: stack) passed) (visited : vertex ∈ passed.visited)
    (unfinished : vertex ∉ passed.finished) :
    Descending targets stack ⟨passed.visited, passed.finished.insert vertex, vertex :: passed.order⟩ where
  above other visited' unfinished' target edge := by
    rw [mem_insert_marks, not_or] at unfinished'
    have there := descending.above other visited' unfinished'.2 target edge
    rw [List.takeWhile_cons_of_pos (by simpa using Ne.symm unfinished'.1), List.mem_cons] at there
    rcases there with met | rfl | there
    · exact Or.inl met
    · exact Or.inl visited
    · exact Or.inr there
  reached other visited' unfinished' upper member := by
    rw [mem_insert_marks, not_or] at unfinished'
    refine descending.reached other visited' unfinished'.2 upper ?_
    rw [List.takeWhile_cons_of_pos (by simpa using Ne.symm unfinished'.1)]
    exact List.mem_cons_of_mem vertex member
  listed other := by
    rw [mem_insert_marks, List.mem_cons, descending.listed]
  nodup := List.nodup_cons.2 ⟨fun member => unfinished ((descending.listed vertex).1 member), descending.nodup⟩
  returning := by
    refine descending.returning.cons fun target edge => ?_
    have met := descending.above vertex visited unfinished target edge
    rw [List.takeWhile_cons_of_neg (by simp)] at met
    have met := met.resolve_right List.not_mem_nil
    by_cases done : target ∈ passed.finished
    · exact Or.inl ((descending.listed target).2 done)
    · by_cases same : vertex = target
      · exact Or.inr (Relation.TransGen.single (same ▸ edge))
      · refine Or.inr (descending.reached target met done vertex ?_)
        rw [List.takeWhile_cons_of_pos (by simpa using same)]
        exact List.mem_cons_self

/-- A vertex that is visited reaches those of its targets that are stacked above it, and so do those that wait
below it. -/
theorem visit (descending : Descending targets (vertex :: stack) passed) (new : vertex ∉ passed.visited) :
    Descending targets
      (((targets vertex).filter (!(passed.visited.insert vertex).contains ·)).reverse ++ vertex :: stack)
      ⟨passed.visited.insert vertex, passed.finished, passed.order⟩ := by
  have mem_pending : ∀ other, other ∈ ((targets vertex).filter
      (!(passed.visited.insert vertex).contains ·)).reverse ↔
        other ∈ targets vertex ∧ other ∉ passed.visited.insert vertex := by
    intro other
    rw [List.mem_reverse, List.mem_filter, Bool.not_eq_true', ← Bool.not_eq_true,
      ← Std.TreeSet.mem_iff_contains]
  generalize ((targets vertex).filter (!(passed.visited.insert vertex).contains ·)).reverse = pending
    at mem_pending ⊢
  have stacked : ∀ other ∈ passed.visited.insert vertex,
      (pending ++ vertex :: stack).takeWhile (· != other) =
        pending ++ (vertex :: stack).takeWhile (· != other) := by
    intro other visited
    refine List.takeWhile_append_of_pos fun upper member => ?_
    have : upper ≠ other := fun same => ((mem_pending upper).1 member).2 (same ▸ visited)
    simpa using this
  have top : (vertex :: stack).takeWhile (· != vertex) = [] := List.takeWhile_cons_of_neg (by simp)
  refine ⟨fun other visited unfinished target edge => ?_, fun other visited unfinished upper member => ?_,
    descending.listed, descending.nodup, descending.returning⟩
  · by_cases met : target ∈ passed.visited.insert vertex
    · exact Or.inl met
    · rw [stacked other visited, List.mem_append]
      rcases mem_insert_marks.1 visited with rfl | visited
      · exact Or.inr (Or.inl ((mem_pending target).2 ⟨edge, met⟩))
      · refine (descending.above other visited unfinished target edge).imp (fun there => ?_) Or.inr
        exact absurd (mem_insert_marks.2 (Or.inr there)) met
  · rw [stacked other visited, List.mem_append] at member
    rcases mem_insert_marks.1 visited with rfl | visited
    · rcases member with member | member
      · exact Relation.TransGen.single ((mem_pending upper).1 member).1
      · rw [top] at member
        exact absurd member List.not_mem_nil
    · rcases member with member | member
      · have different : vertex ≠ other := fun same => new (same ▸ visited)
        have path := descending.reached other visited unfinished vertex (by
          rw [List.takeWhile_cons_of_pos (by simpa using different)]
          exact List.mem_cons_self)
        exact path.tail ((mem_pending upper).1 member).1
      · exact descending.reached other visited unfinished upper member

/-- Where nothing waits any stack will do. -/
theorem next (descending : Descending targets stack passed)
    (done : ∀ vertex ∈ passed.visited, vertex ∈ passed.finished) (stack' : List Nat) :
    Descending targets stack' passed where
  above vertex visited unfinished := absurd (done vertex visited) unfinished
  reached vertex visited unfinished := absurd (done vertex visited) unfinished
  listed := descending.listed
  nodup := descending.nodup
  returning := descending.returning

theorem start : Descending targets [] ⟨∅, ∅, []⟩ where
  above _ visited := absurd visited Std.TreeSet.not_mem_emptyc
  reached _ visited := absurd visited Std.TreeSet.not_mem_emptyc
  listed _ := ⟨fun none => absurd none List.not_mem_nil, fun none => absurd none Std.TreeSet.not_mem_emptyc⟩
  nodup := List.nodup_nil
  returning before vertex after split := by simp at split

theorem explore {fuel : Nat} {passed' : Passed} (descending : Descending targets stack passed)
    (explored : Order.explore targets fuel stack passed = .ok passed') :
    ∃ stack', Descending targets stack' passed' := by
  induction fuel generalizing stack passed with
  | zero => exact ⟨stack, Except.ok.inj explored ▸ descending⟩
  | succ fuel ih =>
    cases stack with
    | nil => exact ⟨[], Except.ok.inj explored ▸ descending⟩
    | cons vertex stack =>
      rw [Order.explore] at explored
      split at explored
      · rename_i visited
        have visited := Std.TreeSet.mem_iff_contains.2 visited
        split at explored
        · rename_i finished
          exact ih (descending.skip visited (Std.TreeSet.mem_iff_contains.2 finished)) explored
        · rename_i unfinished
          exact ih (descending.finish visited
            fun finished => unfinished (Std.TreeSet.mem_iff_contains.1 finished)) explored
      · rename_i new
        split at explored
        · cases explored
        · exact ih (descending.visit fun visited => new (Std.TreeSet.mem_iff_contains.1 visited)) explored

end Descending

/-- The first pass fails at a vertex that is its own target. -/
theorem mem_targets_of_explore {fuel : Nat} {stack : List Nat} {passed : Passed} {vertex : Nat}
    (failed : explore targets fuel stack passed = .error vertex) : vertex ∈ targets vertex := by
  fun_induction explore targets fuel stack passed with
  | case1 | case2 => cases failed
  | case3 _ _ _ _ _ _ ih => exact ih failed
  | case4 _ _ _ _ _ _ ih => exact ih failed
  | case5 _ _ _ _ _ loop =>
    cases failed
    exact List.contains_iff_mem.1 loop
  | case6 _ _ _ _ _ _ _ _ ih => exact ih failed

theorem mem_targets_of_exploreAll {fuel : Nat} {vertices : List Nat} {passed : Passed} {vertex : Nat}
    (failed : exploreAll targets fuel vertices passed = .error vertex) : vertex ∈ targets vertex := by
  induction vertices generalizing passed with
  | nil => cases failed
  | cons first rest ih =>
    rw [exploreAll] at failed
    split at failed
    · exact ih failed
    · split at failed
      · exact ih failed
      · rename_i found
        cases failed
        exact mem_targets_of_explore found

/-- A source that the second pass finds comes neither before its vertex nor at it. -/
theorem exists_split_of_backEdge? {vertices : List Nat} {passed : Marks} {source : Nat}
    (found : backEdge? sources vertices passed = some source) :
    source ∉ passed ∧ ∃ before vertex after, vertices = before ++ vertex :: after ∧
      source ∈ sources vertex ∧ source ∉ before ++ [vertex] := by
  induction vertices generalizing passed with
  | nil => cases found
  | cons first rest ih =>
    rw [backEdge?] at found
    cases back : (sources first).reverse.find? (!(passed.insert first).contains ·) with
    | some other =>
      simp only [back, Option.some.injEq] at found
      subst found
      have new := List.find?_some back
      rw [Bool.not_eq_true', ← Bool.not_eq_true, ← Std.TreeSet.mem_iff_contains, mem_insert_marks,
        not_or] at new
      exact ⟨new.2, [], first, rest, rfl, List.mem_reverse.1 (List.mem_of_find?_eq_some back),
        by simpa using new.1⟩
    | none =>
      simp only [back] at found
      obtain ⟨new, before, vertex, after, rfl, edge, apart⟩ := ih found
      rw [mem_insert_marks, not_or] at new
      refine ⟨new.2, first :: before, vertex, after, rfl, edge, ?_⟩
      rw [List.cons_append, List.mem_cons, not_or]
      exact ⟨new.1, apart⟩

/-- In a list that has each vertex in front of its targets, whatever has an edge to a vertex is in front of it. -/
theorem mem_before_of_childrenFirst {order before after : List Nat} {vertex source : Nat}
    (first : ChildrenFirst targets order.reverse) (nodup : order.Nodup)
    (split : order = before ++ vertex :: after) (listed : source ∈ order) (edge : vertex ∈ targets source) :
    source ∈ before := by
  subst split
  obtain ⟨_, rest, apart⟩ := List.nodup_append.1 nodup
  have new : vertex ∉ after := (List.nodup_cons.1 rest).1
  rcases List.mem_append.1 listed with earlier | later
  · exact earlier
  · rcases List.mem_cons.1 later with rfl | later
    · have behind := first after.reverse source before.reverse (by simp) source edge
      exact absurd (List.mem_reverse.1 behind) new
    · obtain ⟨front, back, rfl⟩ := List.append_of_mem later
      have behind := first back.reverse source (before ++ vertex :: front).reverse (by simp) vertex edge
      exact absurd (List.mem_append_right front (List.mem_cons_of_mem source (List.mem_reverse.1 behind))) new

/-- Where every edge leads to a greater rank there is no cycle. -/
theorem acyclic_of_rank (rank : Nat → Nat) (rises : ∀ vertex, ∀ target ∈ targets vertex, rank vertex < rank target)
    (vertex : Nat) : ¬ Relation.TransGen (Edge targets) vertex vertex := by
  have along : ∀ vertex other, Relation.TransGen (Edge targets) vertex other → rank vertex < rank other := by
    intro vertex other path
    induction path with
    | single edge => exact rises _ _ edge
    | tail _ edge ih => exact ih.trans (rises _ _ edge)
  exact fun cycle => Nat.lt_irrefl _ (along vertex vertex cycle)

/-- A vertex comes behind its sources in the order. -/
theorem idxOf_lt_of_childrenFirst {order : List Nat} (first : ChildrenFirst sources order) {vertex source : Nat}
    (member : vertex ∈ order) (edge : source ∈ sources vertex) : order.idxOf source < order.idxOf vertex := by
  obtain ⟨before, after, split, new⟩ := List.eq_append_cons_of_mem member
  have earlier : source ∈ before := first before vertex after split source edge
  rw [split, List.idxOf_append_of_mem earlier, List.idxOf_append_of_notMem new, List.idxOf_cons_self,
    Nat.add_zero]
  exact List.idxOf_lt_length_iff.2 earlier

section Graph

variable {size : Nat} {vertices : List Nat} {all : Finset Nat}
  (closed : ∀ vertex ∈ all, ∀ target ∈ targets vertex, target ∈ all)
  (inside : ∀ vertex ∈ vertices, vertex ∈ all)

include closed inside

/-- The first pass from all vertices keeps what holds between its steps. -/
theorem Descending.exploreAll {fuel : Nat} {stack : List Nat} {passed passed' : Passed}
    (passing : Passing all [] passed) (descending : Descending targets stack passed)
    (enough : 1 + ∑ vertex ∈ all, ((targets vertex).length + 1) ≤ fuel)
    (explored : Order.exploreAll targets fuel vertices passed = .ok passed') :
    ∃ stack', Descending targets stack' passed' := by
  induction vertices generalizing stack passed with
  | nil => exact ⟨stack, Except.ok.inj explored ▸ descending⟩
  | cons vertex rest ih =>
    have inside_rest : ∀ other ∈ rest, other ∈ all := fun other member =>
      inside other (List.mem_cons_of_mem vertex member)
    have done : ∀ vertex ∈ passed.visited, vertex ∈ passed.finished := fun other visited =>
      (passing.waiting other visited).resolve_right List.not_mem_nil
    rw [Order.exploreAll] at explored
    split at explored
    · exact ih inside_rest passing descending explored
    · split at explored
      · rename_i found
        obtain ⟨stack', descending'⟩ := (descending.next done [vertex]).explore found
        obtain ⟨middle_passing, _⟩ :=
          passing_explore_one closed passing (inside vertex List.mem_cons_self) enough found
        exact ih inside_rest middle_passing descending' explored
      · cases explored

variable (enough : ∑ vertex ∈ all, ((targets vertex).length + 1) ≤ 2 * size + 1)

include enough

/-- A topological order lists each vertex once. -/
theorem nodup_topologicalOrder {order : List Nat}
    (ordered : topologicalOrder targets sources size vertices = .ok order) : order.Nodup := by
  obtain ⟨passed, explored, _, rfl⟩ := topologicalOrder_eq_ok_iff.1 ordered
  obtain ⟨_, descending⟩ := Descending.exploreAll closed inside .start .start (by omega) explored
  exact descending.nodup

variable (turned : ∀ vertex source, source ∈ sources vertex ↔ vertex ∈ targets source)
  (known : ∀ vertex, ∀ target ∈ targets vertex, vertex ∈ vertices ∧ target ∈ vertices)

include turned known

/-- A vertex that is reported instead of an order is on a cycle. -/
theorem cycle_of_topologicalOrder {source : Nat}
    (failed : topologicalOrder targets sources size vertices = .error source) :
    Relation.TransGen (Edge targets) source source := by
  rw [topologicalOrder] at failed
  cases explored : exploreAll targets (2 * size + 2) vertices ⟨∅, ∅, []⟩ with
  | error vertex =>
    simp only [explored, Except.error.injEq] at failed
    subst failed
    exact Relation.TransGen.single (mem_targets_of_exploreAll explored)
  | ok passed =>
    cases back : backEdge? sources passed.order ∅ with
    | none => simp [explored, back] at failed
    | some vertex =>
      simp only [explored, back, Except.error.injEq] at failed
      subst failed
      obtain ⟨_, descending⟩ := Descending.exploreAll closed inside .start .start (by omega) explored
      obtain ⟨ended, reached, _⟩ := passing_exploreAll closed .start inside (by omega) explored
      obtain ⟨_, before, target, after, split, edge, apart⟩ := exists_split_of_backEdge? back
      have edge : target ∈ targets vertex := (turned target vertex).1 edge
      have visited := reached vertex (known vertex target edge).1
      have listed := ended.listed vertex ((ended.waiting vertex visited).resolve_right List.not_mem_nil)
      have behind : vertex ∈ after := by
        rw [split, List.append_cons] at listed
        exact (List.mem_append.1 listed).resolve_left apart
      -- the source was finished before its target, which waited then and led back to it
      obtain ⟨front, later, rfl⟩ := List.append_of_mem behind
      have whole : passed.order = (before ++ target :: front) ++ vertex :: later := by simp [split]
      have new : target ∉ later := fun there =>
        List.disjoint_of_nodup_append (whole ▸ descending.nodup)
          (List.mem_append_right before List.mem_cons_self) (List.mem_cons_of_mem vertex there)
      have path := (descending.returning _ vertex later whole target edge).resolve_left new
      exact Relation.TransGen.head edge path

/-- A graph without cycles has a topological order. -/
theorem topologicalOrder_eq_ok (acyclic : ∀ vertex, ¬ Relation.TransGen (Edge targets) vertex vertex) :
    ∃ order, topologicalOrder targets sources size vertices = .ok order := by
  cases ordered : topologicalOrder targets sources size vertices with
  | ok order => exact ⟨order, rfl⟩
  | error vertex =>
    exact absurd (cycle_of_topologicalOrder closed inside enough turned known ordered) (acyclic vertex)

/-- A graph has a topological order when it has no cycle, and only then. -/
theorem exists_topologicalOrder_iff :
    (∃ order, topologicalOrder targets sources size vertices = .ok order) ↔
      ∀ vertex, ¬ Relation.TransGen (Edge targets) vertex vertex := by
  constructor
  · rintro ⟨order, ordered⟩
    have first := childrenFirst_of_topologicalOrder (fun vertex => (turned vertex vertex).1) ordered
    obtain ⟨listed, _⟩ := mem_of_topologicalOrder closed inside enough ordered
    exact acyclic_of_rank order.idxOf fun vertex target edge => idxOf_lt_of_childrenFirst first
      (listed target (known vertex target edge).2) ((turned target vertex).2 edge)
  · exact topologicalOrder_eq_ok closed inside enough turned known

end Graph

end Provenance.Order
