import Provenance.Decomposition.Elimination
import Provenance.Proofs.Decomposition.Queue

/-!
# What an elimination keeps

Two gates are joined when they are neighbours in what is left of the graph or when one of them was a
neighbour of the other when that was eliminated (`Elimination.Joined`).  Joined gates stay joined, and
the neighbours of an eliminated vertex are joined with each other from then on.  The neighbours that a
vertex had are eliminated after it or are still left.  These facts, with the bounds on the bags, hold at
the start and pass from step to step (`Eliminating`), so they hold when the run is over; then what is
left is not larger than the largest bag (`run_spec`).  The run itself goes through the states of the loop
(`Visits`): it ends at one of them or fails there (`run_visits`), and goes on alike from each
(`Visits.run_eq`).
-/

namespace Provenance.Elimination

/-- Two gates are neighbours, or one was a neighbour of the other when that was eliminated. -/
def Joined (e : Elimination) (a b : Nat) : Prop :=
  b ∈ e.graph.neighbours a ∨
    ∃ gone ∈ e.done, (gone.vertex = a ∧ b ∈ gone.neighbours) ∨
      (gone.vertex = b ∧ a ∈ gone.neighbours)

/-- The eliminated vertices, in order. -/
def order (e : Elimination) : List Nat := e.done.toList.map Eliminated.vertex

/-- What holds of every elimination of a graph on the way. -/
structure Eliminating (initial : PrimalGraph) (maxWidth : Nat) (e : Elimination) : Prop where
  simple : e.graph.Simple
  synced : e.queue.Synced e.graph
  /-- No vertex is eliminated twice. -/
  nodup : (e.done.toList.map Eliminated.vertex).Nodup
  /-- Eliminated vertices are not left. -/
  gone : ∀ gone ∈ e.done, gone.vertex ∉ e.graph.vertices
  vertices : ∀ gate, gate ∈ initial.vertices ↔
    gate ∈ e.graph.vertices ∨ ∃ gone ∈ e.done, gone.vertex = gate
  /-- The neighbours that a vertex had are left or were eliminated after it. -/
  later : ∀ (i : Nat) (gone : Eliminated), e.done[i]? = some gone → ∀ gate ∈ gone.neighbours,
    gate ∈ e.graph.vertices ∨
      ∃ (j : Nat) (after : Eliminated), i < j ∧ e.done[j]? = some after ∧ after.vertex = gate
  edges : ∀ a b, b ∈ initial.neighbours a → e.Joined a b
  cliques : ∀ gone ∈ e.done, ∀ a ∈ gone.neighbours, ∀ b ∈ gone.neighbours, a ≠ b → e.Joined a b
  bag_le : ∀ gone ∈ e.done, gone.bag.size ≤ e.largest
  largest_le : e.largest ≤ maxWidth + 1

theorem eliminating_start {graph : PrimalGraph} (simple : graph.Simple) (maxWidth : Nat) :
    (start graph).Eliminating graph maxWidth where
  simple := simple
  synced := EliminationQueue.synced_ofGraph graph
  nodup := List.nodup_nil
  gone _ member := absurd member (Array.not_mem_empty _)
  vertices gate := by
    simp [start]
  later i gone found := by
    simp [start] at found
  edges a b edge := Or.inl edge
  cliques _ member := absurd member (Array.not_mem_empty _)
  bag_le _ member := absurd member (Array.not_mem_empty _)
  largest_le := Nat.zero_le _

/-! ## One step -/

variable {initial : PrimalGraph} {maxWidth vertex : Nat} {first e : Elimination}

theorem done_step (e : Elimination) (vertex : Nat) :
    (e.step vertex).done = e.done.push ⟨vertex, e.graph.neighbours vertex⟩ := rfl

theorem mem_done_step {gone : Eliminated} :
    gone ∈ (e.step vertex).done ↔ gone ∈ e.done ∨ gone = ⟨vertex, e.graph.neighbours vertex⟩ := by
  rw [done_step, Array.mem_push]

theorem order_step (e : Elimination) (vertex : Nat) :
    (e.step vertex).order = e.order ++ [vertex] := by
  simp [order, step]

/-- Joined gates stay joined: an edge of the vertex is noted with it and the others are kept. -/
theorem Joined.step (simple : e.graph.Simple) {a b : Nat} (joined : e.Joined a b) :
    (e.step vertex).Joined a b := by
  rcases joined with edge | ⟨gone, member, noted⟩
  · by_cases left : a = vertex
    · subst left
      exact Or.inr ⟨_, mem_done_step.2 (Or.inr rfl), Or.inl ⟨rfl, edge⟩⟩
    · by_cases right : b = vertex
      · subst right
        exact Or.inr ⟨_, mem_done_step.2 (Or.inr rfl), Or.inr ⟨rfl, simple.symm a b edge⟩⟩
      · exact Or.inl ((PrimalGraph.mem_neighbours_eliminate simple).2 ⟨left, right, Or.inl edge⟩)
  · exact Or.inr ⟨gone, mem_done_step.2 (Or.inl member), noted⟩

/-- The neighbours of the vertex become joined. -/
theorem joined_of_neighbours (simple : e.graph.Simple) {a b : Nat}
    (left : a ∈ e.graph.neighbours vertex) (right : b ∈ e.graph.neighbours vertex)
    (different : a ≠ b) : (e.step vertex).Joined a b := by
  have apart : ∀ {gate}, gate ∈ e.graph.neighbours vertex → gate ≠ vertex := by
    rintro gate member rfl
    exact simple.irrefl gate member
  exact Or.inl ((PrimalGraph.mem_neighbours_eliminate simple).2
    ⟨apart left, apart right, Or.inr ⟨different, left, right⟩⟩)

theorem Eliminating.step (here : e.Eliminating initial maxWidth)
    (member : vertex ∈ e.graph.vertices) (narrow : e.graph.degree vertex ≤ maxWidth) :
    (e.step vertex).Eliminating initial maxWidth := by
  have left : ∀ gate, gate ∈ (e.step vertex).graph.vertices ↔
      gate ∈ e.graph.vertices ∧ gate ≠ vertex := fun gate =>
    PrimalGraph.mem_vertices_eliminate here.simple
  have new : ∀ gone ∈ e.done, gone.vertex ≠ vertex := by
    rintro gone listed rfl
    exact here.gone gone listed member
  refine
    { simple := here.simple.eliminate vertex
      synced := here.synced.eliminate here.simple vertex
      nodup := ?nodup
      gone := ?gone
      vertices := ?vertices
      later := ?later
      edges := fun a b edge => (here.edges a b edge).step here.simple
      cliques := ?cliques
      bag_le := ?bag_le
      largest_le := ?largest_le }
  case nodup =>
    rw [done_step, Array.toList_push, List.map_append]
    refine List.nodup_append.2 ⟨here.nodup, List.nodup_singleton _, ?_⟩
    intro old listed other same
    obtain ⟨gone, there, rfl⟩ := List.mem_map.1 listed
    obtain rfl := List.mem_singleton.1 same
    exact new gone (Array.mem_toList_iff.1 there)
  case gone =>
    intro gone listed
    rw [left]
    rintro ⟨there, other⟩
    rcases mem_done_step.1 listed with old | rfl
    · exact here.gone gone old there
    · exact other rfl
  case vertices =>
    intro gate
    rw [here.vertices gate, left]
    constructor
    · rintro (there | ⟨gone, listed, same⟩)
      · by_cases this : gate = vertex
        · exact Or.inr ⟨_, mem_done_step.2 (Or.inr rfl), this.symm⟩
        · exact Or.inl ⟨there, this⟩
      · exact Or.inr ⟨gone, mem_done_step.2 (Or.inl listed), same⟩
    · rintro (⟨there, _⟩ | ⟨gone, listed, same⟩)
      · exact Or.inl there
      · rcases mem_done_step.1 listed with old | rfl
        · exact Or.inr ⟨gone, old, same⟩
        · exact Or.inl (same ▸ member)
  case later =>
    intro i gone found gate neighbour
    rw [done_step, Array.getElem?_push] at found
    simp only [left, done_step, Array.getElem?_push]
    split at found
    · rename_i last
      obtain rfl := Option.some.inj found
      refine Or.inl ⟨here.simple.mem_vertices vertex gate neighbour, ?_⟩
      rintro rfl
      exact here.simple.irrefl gate neighbour
    · have inside : i < e.done.size := (Array.getElem?_eq_some_iff.1 found).1
      rcases here.later i gone found gate neighbour with there | ⟨j, after, behind, there, same⟩
      · by_cases this : gate = vertex
        · exact Or.inr ⟨e.done.size, _, inside, if_pos rfl, this.symm⟩
        · exact Or.inl ⟨there, this⟩
      · have inside : j < e.done.size := (Array.getElem?_eq_some_iff.1 there).1
        exact Or.inr ⟨j, after, behind, by rw [if_neg (Nat.ne_of_lt inside)]; exact there, same⟩
  case cliques =>
    intro gone listed a memberA b memberB different
    rcases mem_done_step.1 listed with old | rfl
    · exact (here.cliques gone old a memberA b memberB different).step here.simple
    · exact joined_of_neighbours here.simple memberA memberB different
  case bag_le =>
    intro gone listed
    rcases mem_done_step.1 listed with old | rfl
    · exact (here.bag_le gone old).trans (Nat.le_max_left ..)
    · exact Nat.le_max_right ..
  case largest_le =>
    refine Nat.max_le.2 ⟨here.largest_le, ?_⟩
    rw [Eliminated.bag, GateSet.size_insert (here.simple.irrefl vertex)]
    exact Nat.succ_le_succ narrow

/-! ## The run -/

/-- A run that does not fail keeps what holds of an elimination, and stops when what is left is not
larger than the largest bag: there are steps enough to take all vertices away. -/
theorem run_spec {remaining : Nat} {e e' : Elimination} (here : e.Eliminating initial maxWidth)
    (enough : e.graph.vertexCount ≤ remaining) (done : run maxWidth remaining e = .ok e') :
    e'.Eliminating initial maxWidth ∧ e'.graph.vertexCount ≤ e'.largest := by
  induction remaining generalizing e with
  | zero =>
    obtain rfl := Except.ok.inj done
    exact ⟨here, enough.trans (Nat.zero_le _)⟩
  | succ remaining ih =>
    rw [run] at done
    split at done
    · rename_i small
      obtain rfl := Except.ok.inj done
      exact ⟨here, small⟩
    · have next := here.synced.next?
      cases found : e.queue.next? with
      | none =>
        simp only [found] at next done
        obtain rfl := Except.ok.inj done
        exact ⟨here, by omega⟩
      | some vertex =>
        simp only [found] at next done
        split at done
        · cases done
        · rename_i narrow
          have fewer := PrimalGraph.vertexCount_eliminate here.simple next.1
          refine ih (here.step next.1 (Nat.le_of_not_lt narrow)) ?_ done
          show (e.graph.eliminate vertex).vertexCount ≤ remaining
          omega

/-! ## The states of the loop -/

/-- The states that the loop comes to from a first one, each by the elimination of the vertex that the queue
of the one before names. -/
inductive Visits (maxWidth : Nat) (first : Elimination) : Elimination → Prop
  /-- The loop begins at the first state. -/
  | first : Visits maxWidth first first
  /-- It goes on while more is left than the largest bag holds and the next vertex has not too many
  neighbours. -/
  | step {e : Elimination} {vertex : Nat} (before : Visits maxWidth first e)
      (more : e.largest < e.graph.vertexCount) (next : e.queue.next? = some vertex)
      (narrow : e.graph.degree vertex ≤ maxWidth) : Visits maxWidth first (e.step vertex)

/-- A run ends at a state of the loop, or fails at one whose next vertex has too many neighbours. -/
theorem run_visits (visits : Visits maxWidth first e) (remaining : Nat) :
    match run maxWidth remaining e with
    | .ok last => Visits maxWidth first last
    | .error failure => ∃ last vertex, Visits maxWidth first last ∧
        last.largest < last.graph.vertexCount ∧ last.queue.next? = some vertex ∧
        maxWidth < last.graph.degree vertex ∧
        failure = .of (.treewidthExceeded (last.graph.degree vertex) maxWidth) := by
  induction remaining generalizing e with
  | zero => exact visits
  | succ remaining ih =>
    rw [run]
    by_cases small : e.graph.vertexCount ≤ e.largest
    · rw [if_pos small]
      exact visits
    · rw [if_neg small]
      have more := Nat.lt_of_not_le small
      cases next : e.queue.next? with
      | none => exact visits
      | some vertex =>
        by_cases wide : maxWidth < e.graph.degree vertex
        · simp only [if_pos wide]
          exact ⟨e, vertex, visits, more, next, wide, rfl⟩
        · simp only [if_neg wide]
          exact ih (visits.step more next (Nat.le_of_not_lt wide))

/-- What holds of an elimination at the first state holds at each. -/
theorem Visits.eliminating (visits : Visits maxWidth first e)
    (here : first.Eliminating initial maxWidth) : e.Eliminating initial maxWidth := by
  induction visits with
  | first => exact here
  | step before more next narrow ih =>
    have named := ih.synced.next?
    simp only [next] at named
    exact ih.step named.1 narrow

/-- The loop goes on in the same way from each state it comes to. -/
theorem Visits.run_eq (visits : Visits maxWidth first e)
    (here : first.Eliminating initial maxWidth) :
    run maxWidth first.graph.vertexCount first = run maxWidth e.graph.vertexCount e := by
  induction visits with
  | first => rfl
  | @step e vertex before more next narrow ih =>
    have going := before.eliminating here
    have named := going.synced.next?
    simp only [next] at named
    have fewer := PrimalGraph.vertexCount_eliminate going.simple named.1
    rw [ih, ← fewer, run, if_neg (Nat.not_le.2 more), next]
    exact if_neg (Nat.not_lt.2 narrow)

end Provenance.Elimination
