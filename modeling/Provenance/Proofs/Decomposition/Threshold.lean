import Provenance.Proofs.Decomposition.Decompose

/-!
# The limit of the width is a threshold

An elimination looks at its limit only to give up.  A larger limit lets the loop come to the same states
(`Visits.mono`), and a run that ends makes the same steps under any limit that is not below the widths it met
(`run_eq_of_le`).  The largest bag is that of an eliminated vertex, since what is left in the end is not
larger, so the width of the decomposition is the largest of those widths (`Visits.width_decomposition`).  With
the number of vertices as limit no run fails; the width of the decomposition it makes is the threshold
(`decompose_threshold`).
-/

namespace Provenance.Elimination

variable {initial : PrimalGraph} {maxWidth limit remaining vertex : Nat} {first e last : Elimination}

/-! ## The largest bag -/

theorem largest_step (simple : e.graph.Simple) (vertex : Nat) :
    (e.step vertex).largest = max e.largest (e.graph.degree vertex + 1) := by
  show max e.largest (e.graph.neighbours vertex |>.insert vertex).size = _
  rw [GateSet.size_insert (simple.irrefl vertex)]
  rfl

/-- The largest bag does not get smaller in the loop. -/
theorem Visits.largest_le (visits : Visits maxWidth first e) : first.largest ≤ e.largest := by
  induction visits with
  | first => exact Nat.le_refl _
  | step _ _ _ _ ih => exact ih.trans (Nat.le_max_left ..)

/-- The largest bag is that of an eliminated vertex, unless there is none. -/
theorem Visits.exists_largest (visits : Visits maxWidth (start initial) e) :
    e.largest = 0 ∨ ∃ gone ∈ e.done, gone.bag.size = e.largest := by
  induction visits with
  | first => exact Or.inl rfl
  | @step e vertex _ _ _ _ ih =>
    rcases Nat.le_total e.largest (Eliminated.bag ⟨vertex, e.graph.neighbours vertex⟩).size with
      larger | smaller
    · exact Or.inr ⟨_, mem_done_step.2 (Or.inr rfl), (Nat.max_eq_right larger).symm⟩
    · have same : (e.step vertex).largest = e.largest := Nat.max_eq_left smaller
      rw [same]
      exact ih.imp_right fun ⟨gone, member, size⟩ => ⟨gone, mem_done_step.2 (Or.inl member), size⟩

/-- The width is that of the largest bag of an eliminated vertex, what is left not being larger. -/
theorem Visits.width_decomposition (visits : Visits maxWidth (start initial) e)
    (here : e.Eliminating initial maxWidth) (small : e.graph.vertexCount ≤ e.largest) :
    e.decomposition.width = e.largest - 1 := by
  rw [Elimination.width_decomposition]
  refine Nat.le_antisymm ?_ ?_
  · have tight : e.Eliminating initial (e.largest - 1) := { here with largest_le := by omega }
    have fits := Decomposition.largest_le (size_bag_decomposition tight small)
    omega
  · rcases visits.exists_largest with none | ⟨gone, member, size⟩
    · omega
    · obtain ⟨b, found⟩ := Array.getElem?_of_mem member
      rw [← size]
      refine Nat.sub_le_sub_right ((GateSet.size_le_size fun gate held => ?_).trans
        (e.decomposition.size_bag_le b)) 1
      exact mem_bag_decomposition.2 (Or.inl ⟨gone, found, held⟩)

/-! ## Other limits -/

/-- A larger limit lets the loop come to the same states. -/
theorem Visits.mono (visits : Visits maxWidth first e) (le : maxWidth ≤ limit) : Visits limit first e := by
  induction visits with
  | first => exact .first
  | step _ more next narrow ih => exact .step ih more next (narrow.trans le)

/-- A run that ends has a bag for the vertex that it takes first. -/
theorem degree_lt_largest (simple : e.graph.Simple) (more : e.largest < e.graph.vertexCount)
    (next : e.queue.next? = some vertex) (ran : run limit (remaining + 1) e = .ok last) :
    e.graph.degree vertex < last.largest := by
  rw [run, if_neg (Nat.not_le.2 more), next] at ran
  dsimp only at ran
  split at ran
  · cases ran
  · have visits := run_visits (.first : Visits limit (e.step vertex) _) remaining
    rw [ran] at visits
    have larger := visits.largest_le
    rw [largest_step simple] at larger
    exact (Nat.le_max_right ..).trans larger

/-- A run that ends makes the same steps under any limit that lets its largest bag pass. -/
theorem run_eq_of_le (here : e.Eliminating initial maxWidth) (ran : run maxWidth remaining e = .ok last)
    (le : last.largest ≤ limit + 1) : run limit remaining e = .ok last := by
  induction remaining generalizing e with
  | zero => exact ran
  | succ remaining ih =>
    by_cases small : e.graph.vertexCount ≤ e.largest
    · rw [run, if_pos small] at ran ⊢
      exact ran
    · have more := Nat.lt_of_not_le small
      have named := here.synced.next?
      cases next : e.queue.next? with
      | none =>
        rw [run, if_neg small, next] at ran ⊢
        exact ran
      | some vertex =>
        have met := degree_lt_largest here.simple more next ran
        simp only [next] at named
        rw [run, if_neg small, next] at ran ⊢
        dsimp only at ran ⊢
        split at ran
        · cases ran
        · rename_i narrow
          rw [if_neg (by omega)]
          exact ih (here.step named.1 (Nat.le_of_not_lt narrow)) ran

/-- No vertex has more neighbours than there are vertices, so with their number as limit no run fails. -/
theorem exists_run (simple : initial.Simple) (remaining : Nat) :
    ∃ last, run initial.vertexCount remaining (start initial) = .ok last := by
  have begin := eliminating_start simple initial.vertexCount
  have visits := run_visits (.first : Visits initial.vertexCount (start initial) _) remaining
  cases ran : run initial.vertexCount remaining (start initial) with
  | ok last => exact ⟨last, rfl⟩
  | error failure =>
    simp only [ran] at visits
    obtain ⟨e, vertex, visits, _, _, wide, _⟩ := visits
    have here := visits.eliminating begin
    refine absurd wide (Nat.not_lt.2 ?_)
    rw [PrimalGraph.vertexCount_eq_size]
    refine GateSet.size_le_size fun gate neighbour => (here.vertices gate).2 (Or.inl ?_)
    exact here.simple.mem_vertices vertex gate neighbour

end Provenance.Elimination

namespace Provenance.Circuit

variable {α : Type}

/-- The limit of the width is a threshold: from a number on all limits give the same decomposition, which has
this width, and below it each limit is exceeded by a width that is not above the threshold. -/
theorem decompose_threshold (c : Circuit α) : ∃ (threshold : Nat) (d : Decomposition),
    d.width = threshold ∧ (∀ maxWidth, threshold ≤ maxWidth → c.decompose maxWidth = .ok d) ∧
      ∀ maxWidth < threshold, ∃ width, maxWidth < width ∧ width ≤ threshold ∧
        c.decompose maxWidth = .error (.of (.treewidthExceeded width maxWidth)) := by
  have simple := PrimalGraph.simple_ofCircuit c
  have begin := Elimination.eliminating_start simple
  obtain ⟨last, ran⟩ := Elimination.exists_run simple (PrimalGraph.ofCircuit c).vertexCount
  obtain ⟨here, small⟩ := Elimination.run_spec (begin _) (Nat.le_refl _) ran
  have visits := Elimination.run_visits
    (.first : Elimination.Visits (PrimalGraph.ofCircuit c).vertexCount (.start (.ofCircuit c)) _)
    (PrimalGraph.ofCircuit c).vertexCount
  simp only [ran] at visits
  have width := visits.width_decomposition here small
  refine ⟨_, last.decomposition, rfl, fun maxWidth enough => ?_, fun maxWidth less => ?_⟩
  · rw [decompose, Elimination.run_eq_of_le (begin _) ran (by omega)]
    rfl
  · have failing := Elimination.run_visits
      (.first : Elimination.Visits maxWidth (.start (.ofCircuit c)) _)
      (PrimalGraph.ofCircuit c).vertexCount
    cases limited : Elimination.run maxWidth (PrimalGraph.ofCircuit c).vertexCount
        (.start (.ofCircuit c)) with
    | ok other =>
      -- the run within the limit would be the one without
      have fits := (Elimination.run_spec (begin maxWidth) (Nat.le_refl _) limited).1.largest_le
      have bound := here.largest_le
      have same : Elimination.run (PrimalGraph.ofCircuit c).vertexCount _ _ = .ok other :=
        Elimination.run_eq_of_le (begin maxWidth) limited (by omega)
      rw [ran] at same
      obtain rfl := Except.ok.inj same
      omega
    | error failure =>
      simp only [limited] at failing
      obtain ⟨e, vertex, before, more, next, wide, rfl⟩ := failing
      have bound := here.largest_le
      -- the run without the limit comes to the same state and goes on from there
      have visits : Elimination.Visits (PrimalGraph.ofCircuit c).vertexCount _ e := before.mono (by omega)
      have goes_on := (visits.run_eq (begin _)).symm.trans ran
      obtain ⟨remaining, some_vertex⟩ := Nat.exists_eq_add_one_of_ne_zero (Nat.ne_zero_of_lt more)
      rw [some_vertex] at goes_on
      have met := Elimination.degree_lt_largest (visits.eliminating (begin _)).simple more next goes_on
      exact ⟨e.graph.degree vertex, wide, by omega, by rw [decompose, limited]; rfl⟩

/-- The threshold of the conjunction of two inputs is one. -/
example : conjunction.decompose 0 = .error (.of (.treewidthExceeded 1 0)) := rfl

end Provenance.Circuit
