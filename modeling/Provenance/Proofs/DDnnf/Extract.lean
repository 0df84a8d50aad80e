import Provenance.DDnnf.Simplify
import Provenance.Proofs.Circuit.Renumbering
import Provenance.Proofs.Network.Relabel

/-!
# What a root reaches

The gates that a root reaches are copied in post-order, so a gate gets its position there as its number and each
table of the copy has the entries of the gates along the order (`Copied`).  The copy has no cycle
(`wellFormed_extract`), and the circuit is embedded in it below the root (`embeds_extract`).  A post-order does
not depend on the numbers of the gates, so nor does the copy: of an embedded circuit the same is extracted as of
the circuit itself (`extract_of_embeds`), and what was extracted is extracted again as it is.
-/

namespace Provenance

open Provenance.Network Provenance.Order

/-! ## Gates with all that belongs to them -/

namespace Circuit

variable {α : Type} [Scalar α]

/-- Adds a gate with a probability, perhaps a key and a name, and children. -/
def addLabelled (c : Circuit α) (kind : Kind) (p : α) (key : Option Nat) (name : Option String)
    (children : List Nat) : Circuit α :=
  let proved := (c.addGate kind).2.setProb c.size p
  let keyed := key.elim proved (proved.setKey c.size)
  (name.elim keyed (keyed.setName c.size)).addWires c.size children

section

variable (c : Circuit α) (kind : Kind) (p : α) (key : Option Nat) (name : Option String) (children : List Nat)
  (other : Nat)

@[simp] theorem size_addLabelled : (c.addLabelled kind p key name children).size = c.size + 1 := by
  cases key <;> cases name <;> exact (size_addWires ..).trans (size_addGate c kind)

theorem kind_addLabelled : (c.addLabelled kind p key name children).kind other =
    if other = c.size then kind else c.kind other := by
  rw [← kind_addGate]
  cases key <;> cases name <;> exact congrFun (kind_addWires ..) other

variable {c} (inStep : c.InStep)

include inStep

theorem InStep.addLabelled : (c.addLabelled kind p key name children).InStep := by
  have proved : ((c.addGate kind).2.setProb c.size p).InStep := (inStep.addGate kind).setProb p
  cases key <;> cases name
  · exact proved.addWires c.size children
  · exact (proved.setName _).addWires c.size children
  · exact (proved.setKey _).addWires c.size children
  · exact ((proved.setKey _).setName _).addWires c.size children

theorem children_addLabelled : (c.addLabelled kind p key name children).children other =
    if other = c.size then children else c.children other := by
  rw [← children_addNode c kind children inStep]
  have wide : c.size < (c.addGate kind).2.wires.size := by
    rw [(inStep.addGate kind).wires, size_addGate]
    exact Nat.lt_succ_self _
  refine Eq.trans ?_ (children_addWires (c.addGate kind).2 c.size children other wide).symm
  cases key <;> cases name <;> exact children_addWires _ c.size children other wide

theorem prob_addLabelled : (c.addLabelled kind p key name children).prob other =
    if other = c.size then p else c.prob other := by
  have last : c.size < (c.addGate kind).2.probs.size := by
    rw [(inStep.addGate kind).probs, size_addGate]
    exact Nat.lt_succ_self _
  have set := prob_setProb (c.addGate kind).2 c.size other p last
  rw [prob_addGate] at set
  rw [← set]
  unfold prob
  cases key <;> cases name <;> exact congrArg (Array.getD · other Scalar.one) (probs_addWires ..)

/-- A name that no gate has is taken from none. -/
theorem name?_addLabelled (free : c.name? c.size = none)
    (fresh : ∀ gate title, name = some title → c.name? gate ≠ some title) :
    (c.addLabelled kind p key name children).name? other = if other = c.size then name else c.name? other := by
  cases name with
  | none =>
    have same : (c.addLabelled kind p key none children).name? other = c.name? other := by
      cases key <;> exact congrFun (name?_addWires ..) other
    rw [same]
    split
    · rename_i here
      rw [here, free]
    · rfl
  | some title =>
    have same : (c.addLabelled kind p key (some title) children).name? other =
        (c.naming.assign c.size title).name? other := by
      cases key <;> exact congrFun (name?_addWires ..) other
    rw [same, Naming.name?_assign inStep.naming]
    exact if_congr Iff.rfl rfl (if_neg (fresh other title rfl))

omit inStep in
/-- The new gate has no other key than the one that it gets. -/
theorem key?_addLabelled (free : c.key? c.size = none) : (c.addLabelled kind p key name children).key? other =
    if other = c.size then key else c.key? other := by
  have keys : (c.addLabelled kind p key name children).keys = key.elim c.keys (c.keys.insert c.size) := by
    cases key <;> cases name <;> exact keys_addWires ..
  rw [Circuit.key?, keys]
  cases key with
  | none =>
    show c.key? other = _
    split
    · rename_i here
      rw [here, free]
    · rfl
  | some key =>
    rw [Option.elim, Std.TreeMap.getElem?_insert]
    simp only [Nat.compare_eq_eq, @eq_comm _ c.size, Circuit.key?]

end

end Circuit

namespace DDnnf

open Circuit

variable {α : Type} [Scalar α] {c c' : Circuit α} {root gate : Nat}

theorem copyGate_eq (c : Circuit α) (state : Circuit α × Std.TreeMap Nat Nat) (gate : Nat) :
    copyGate c state gate =
      (state.1.addLabelled (c.kind gate) (c.prob gate) (c.key? gate) (c.name? gate)
        ((c.children gate).map fun child => state.2.getD child state.1.size),
      state.2.insert gate state.1.size) := by
  unfold copyGate addLabelled
  cases c.key? gate <;> cases c.name? gate <;> rfl

/-- What is extracted is the copy and the number of the root in it. -/
theorem extract_eq (c : Circuit α) (root : Nat) : extract c root =
    ofCircuit ((c.postOrder root).foldl (copyGate c) (Circuit.empty, ∅)).1
      (((c.postOrder root).foldl (copyGate c) (Circuit.empty, ∅)).2.getD root 0) := rfl

/-! ## Copies along an order -/

/-- A table has the entries of the vertices of an order by their positions. -/
def Lists {β : Type} (order : List Nat) (other : β) (entry : Nat → β) (table : Nat → β) : Prop :=
  ∀ position, table position = order[position]?.elim other entry

namespace Lists

variable {β : Type} {order : List Nat} {other : β} {entry table table' : Nat → β}

theorem nil (all : ∀ position, table position = other) : Lists [] other entry table := all

/-- A new last entry. -/
theorem concat (lists : Lists order other entry table) {vertex : Nat}
    (new : ∀ position, table' position = if position = order.length then entry vertex else table position) :
    Lists (order ++ [vertex]) other entry table' := by
  intro position
  rw [new, lists position]
  split
  · rename_i last
    rw [last, List.getElem?_concat_length]
    rfl
  · rename_i different
    rcases Nat.lt_or_gt_of_ne different with before | behind
    · rw [List.getElem?_append_left before]
    · rw [List.getElem?_eq_none behind.le, List.getElem?_eq_none ((List.length_append ..).trans_le behind)]

theorem idxOf (lists : Lists order other entry table) {vertex : Nat} (member : vertex ∈ order) :
    table (order.idxOf vertex) = entry vertex := by
  rw [lists, List.getElem?_idxOf member]
  rfl

end Lists

/-- What holds while the gates of an order are copied: a gate gets its position as its number, and the entries of
its copy are those of the gate. -/
structure Copied (c : Circuit α) (order : List Nat) (state : Circuit α × Std.TreeMap Nat Nat)
    (done : List Nat) : Prop where
  inStep : state.1.InStep
  size : state.1.size = done.length
  number : ∀ gate ∈ done, state.2[gate]? = some (order.idxOf gate)
  kind : Lists done .undetermined c.kind state.1.kind
  children : Lists done [] (fun gate => (c.children gate).map order.idxOf) state.1.children
  prob : Lists done Scalar.one c.prob state.1.prob
  key? : Lists done none c.key? state.1.key?
  name? : Lists done none c.name? state.1.name?

theorem copied_empty (c : Circuit α) (order : List Nat) : Copied c order (Circuit.empty, ∅) [] where
  inStep := inStep_empty
  size := rfl
  number gate none := absurd none List.not_mem_nil
  kind := .nil fun position => kind_of_le (Nat.zero_le position)
  children := .nil fun position => List.eq_nil_iff_forall_not_mem.2 (notMem_children_empty position)
  prob := .nil fun position => rfl
  key? := .nil fun position => by simp [Circuit.empty, Circuit.key?]
  name? := .nil fun position => by simp [Circuit.empty, Network.empty, Network.name?, Naming.empty, Naming.name?]

/-- A gate is copied behind its children. -/
theorem Copied.copyGate {order before after : List Nat} {state : Circuit α × Std.TreeMap Nat Nat}
    (copied : Copied c order state before) (paired : c.naming.Paired) (split : order = before ++ gate :: after)
    (new : gate ∉ before) (children : ∀ child ∈ c.children gate, child ∈ before) :
    Copied c order (copyGate c state gate) (before ++ [gate]) := by
  obtain ⟨copy, numbers⟩ := state
  obtain ⟨inStep, size, number, kinds, wires, probs, keys, names⟩ := copied
  have size : copy.size = before.length := size
  have position : order.idxOf gate = copy.size := by
    rw [split, List.idxOf_append_of_notMem new, List.idxOf_cons_self, Nat.add_zero, size]
  have numbered : (c.children gate).map (fun child => numbers.getD child copy.size) =
      (c.children gate).map order.idxOf := by
    refine List.map_congr_left fun child wire => ?_
    rw [Std.TreeMap.getD_eq_getD_getElem?, number child (children child wire), Option.getD_some]
  have unused : before[copy.size]? = none := List.getElem?_eq_none size.ge
  have unnamed : copy.name? copy.size = none := by rw [names, unused]; rfl
  have keyless : copy.key? copy.size = none := by rw [keys, unused]; rfl
  -- a gate of before with the name would be the gate
  have fresh : ∀ position title, c.name? gate = some title → copy.name? position ≠ some title := by
    intro position title named taken
    rw [names] at taken
    cases there : before[position]? with
    | none => simp [there] at taken
    | some other =>
      rw [there] at taken
      obtain rfl := paired.eq_of_name? named taken
      exact new (List.mem_of_getElem? there)
  rw [copyGate_eq]
  simp only [numbered]
  refine
    { inStep := inStep.addLabelled _ _ _ _ _
      size := ?_
      number := fun other member => ?_
      kind := kinds.concat fun other => size ▸ kind_addLabelled ..
      children := wires.concat fun other => size ▸ children_addLabelled _ _ _ _ _ _ inStep
      prob := probs.concat fun other => size ▸ prob_addLabelled _ _ _ _ _ _ inStep
      key? := keys.concat fun other => size ▸ key?_addLabelled _ _ _ _ _ _ keyless
      name? := names.concat fun other => size ▸ name?_addLabelled _ _ _ _ _ _ inStep unnamed fresh }
  · rw [size_addLabelled, size, List.length_append, List.length_singleton]
  · rw [Std.TreeMap.getElem?_insert]
    split
    · rename_i same
      rw [← Nat.compare_eq_eq.1 same, position]
    · rename_i different
      refine number other ((List.mem_append.1 member).resolve_right fun last => different ?_)
      exact Nat.compare_eq_eq.2 (List.mem_singleton.1 last).symm

/-- The last gate of an order comes at its end. -/
theorem idxOf_getLast_add_one {order : List Nat} (once : order.Nodup) (last : order.getLast? = some root) :
    order.idxOf root + 1 = order.length := by
  obtain ⟨before, rfl⟩ := List.getLast?_eq_some_iff.1 last
  have new : root ∉ before := fun member => List.disjoint_of_nodup_append once member List.mem_cons_self
  rw [List.idxOf_append_of_notMem new, List.idxOf_cons_self, List.length_append, List.length_singleton,
    Nat.add_zero]

/-! ## The copy of what a root reaches -/

section Extracted

variable (wellFormed : c.WellFormed) (inside : root < c.size)

include wellFormed inside

theorem copied_extract : ∃ numbers,
    Copied c (c.postOrder root) ((extract c root).circuit, numbers) (c.postOrder root) ∧
      (extract c root).root = (c.postOrder root).idxOf root := by
  have even := wellFormed.inStep.even
  have within := wellFormed.inside inside
  have first := childrenFirst_postOrder even within wellFormed.acyclic
  have copied := first.foldl (motive := Copied c (c.postOrder root)) (nodup_postOrder even within)
    (fun _ _ gate _ split new behind copied => copied.copyGate wellFormed.inStep.naming split new
      (behind gate (by simp))) (copied_empty c (c.postOrder root))
  rw [extract_eq]
  refine ⟨_, copied, ?_⟩
  show Std.TreeMap.getD _ root 0 = _
  rw [Std.TreeMap.getD_eq_getD_getElem?, copied.number root ((mem_postOrder even within).2 (.refl root)),
    Option.getD_some]

/-- The root is the last gate. -/
theorem root_extract : (extract c root).root + 1 = (extract c root).circuit.size := by
  have even := wellFormed.inStep.even
  have within := wellFormed.inside inside
  obtain ⟨numbers, copied, made⟩ := copied_extract wellFormed inside
  rw [made, idxOf_getLast_add_one (nodup_postOrder even within) (getLast?_postOrder even within)]
  exact copied.size.symm

/-- Gates come behind their children. -/
theorem layered_extract : ∀ gate, ∀ child ∈ (extract c root).circuit.children gate, child < gate := by
  intro position child wire
  obtain ⟨numbers, copied, -⟩ := copied_extract wellFormed inside
  have first := childrenFirst_postOrder wellFormed.inStep.even (wellFormed.inside inside) wellFormed.acyclic
  rw [copied.children] at wire
  cases there : (c.postOrder root)[position]? with
  | none => simp [there] at wire
  | some gate =>
    rw [there] at wire
    obtain ⟨old, lower, rfl⟩ := List.mem_map.1 wire
    obtain ⟨small, rfl⟩ := List.getElem?_eq_some_iff.1 there
    have split : c.postOrder root = (c.postOrder root).take position ++
        (c.postOrder root)[position] :: (c.postOrder root).drop (position + 1) := by
      rw [← List.drop_eq_getElem_cons small, List.take_append_drop]
    have before := first _ _ _ split old lower
    rw [split, List.idxOf_append, if_pos before]
    exact (List.idxOf_lt_length_of_mem before).trans_le (List.length_take_le _ _)

/-- What a gate reaches has no cycle when it is numbered anew, and the gate has a number there. -/
theorem wellFormed_extract :
    (extract c root).circuit.WellFormed ∧ (extract c root).root < (extract c root).circuit.size := by
  obtain ⟨numbers, copied, -⟩ := copied_extract wellFormed inside
  refine ⟨copied.inStep.wellFormed fun gate _ => layered_extract wellFormed inside gate, ?_⟩
  rw [← root_extract wellFormed inside]
  exact Nat.lt_succ_self _

/-- The circuit is embedded below the root in what is extracted. -/
theorem embeds_extract : c.Embeds (extract c root).circuit (c.postOrder root).idxOf root := by
  obtain ⟨numbers, copied, -⟩ := copied_extract wellFormed inside
  have listed : ∀ {gate}, c.Reaches root gate → gate ∈ c.postOrder root :=
    (mem_postOrder wellFormed.inStep.even (wellFormed.inside inside)).2
  exact
    { injOn := fun gate path other _ same => (List.idxOf_inj (listed path)).1 same
      name? := fun gate path => copied.name?.idxOf (listed path)
      kind := fun gate path => copied.kind.idxOf (listed path)
      children := fun gate path => copied.children.idxOf (listed path)
      prob := fun gate path => copied.prob.idxOf (listed path)
      key? := fun gate path => copied.key?.idxOf (listed path) }

/-- Each gate of the copy is that of a gate which the root reaches. -/
theorem exists_of_lt_extract {number : Nat} (small : number < (extract c root).circuit.size) :
    ∃ gate, c.Reaches root gate ∧ (c.postOrder root).idxOf gate = number := by
  have even := wellFormed.inStep.even
  have within := wellFormed.inside inside
  obtain ⟨numbers, copied, -⟩ := copied_extract wellFormed inside
  have small : number < (c.postOrder root).length := small.trans_eq copied.size
  exact ⟨(c.postOrder root)[number], (mem_postOrder even within).1 (List.getElem_mem small),
    (nodup_postOrder even within).idxOf_getElem number small⟩

end Extracted

/-! ## The copy does not depend on the numbers -/

section Embedded

variable {number : Nat → Nat} (embeds : c.Embeds c' number root)

include embeds

/-- Counterparts are copied to the same circuit. -/
theorem copyGate_of_embeds {state state' : Circuit α × Std.TreeMap Nat Nat} (path : c.Reaches root gate)
    (same : state'.1 = state.1)
    (numbers : ∀ other, c.Reaches root other → state'.2[number other]? = state.2[other]?) :
    (copyGate c' state' (number gate)).1 = (copyGate c state gate).1 ∧
      ∀ other, c.Reaches root other →
        (copyGate c' state' (number gate)).2[number other]? = (copyGate c state gate).2[other]? := by
  have children : ((c.children gate).map number).map (fun child => state'.2.getD child state.1.size) =
      (c.children gate).map fun child => state.2.getD child state.1.size := by
    rw [List.map_map]
    refine List.map_congr_left fun child wire => ?_
    rw [Function.comp_apply, Std.TreeMap.getD_eq_getD_getElem?, numbers child (path.child wire),
      Std.TreeMap.getD_eq_getD_getElem?]
  simp only [copyGate_eq, same]
  rw [embeds.kind gate path, embeds.prob gate path, embeds.key? gate path, embeds.name? gate path,
    embeds.children gate path, children]
  refine ⟨rfl, fun other path' => ?_⟩
  rw [Std.TreeMap.getElem?_insert, Std.TreeMap.getElem?_insert, numbers other path']
  simp only [Nat.compare_eq_eq, embeds.injOn.eq_iff path path']

theorem foldl_copyGate_of_embeds {order : List Nat} {state state' : Circuit α × Std.TreeMap Nat Nat}
    (reached : ∀ gate ∈ order, c.Reaches root gate) (same : state'.1 = state.1)
    (numbers : ∀ other, c.Reaches root other → state'.2[number other]? = state.2[other]?) :
    ((order.map number).foldl (copyGate c') state').1 = (order.foldl (copyGate c) state).1 ∧
      ∀ other, c.Reaches root other → ((order.map number).foldl (copyGate c') state').2[number other]? =
        (order.foldl (copyGate c) state).2[other]? := by
  induction order generalizing state state' with
  | nil => exact ⟨same, numbers⟩
  | cons gate order ih =>
    obtain ⟨path, others⟩ := List.forall_mem_cons.1 reached
    obtain ⟨same, numbers⟩ := copyGate_of_embeds embeds path same numbers
    exact ih others same numbers

/-- Of an embedded circuit the same is extracted as of the circuit itself. -/
theorem extract_of_embeds (even : c.Even) (within : c.Inside root) (even' : c'.Even)
    (within' : c'.Inside (number root)) : extract c' (number root) = extract c root := by
  have order : c'.postOrder (number root) = (c.postOrder root).map number :=
    postOrder_map even within even' within' embeds.injOn embeds.children
  have start : ∀ other, c.Reaches root other →
      (Circuit.empty (α := α), (∅ : Std.TreeMap Nat Nat)).2[number other]? =
        (Circuit.empty (α := α), (∅ : Std.TreeMap Nat Nat)).2[other]? := fun other _ => by simp
  obtain ⟨same, numbers⟩ := foldl_copyGate_of_embeds embeds (fun gate => (mem_postOrder even within).1) rfl start
  rw [extract_eq, extract_eq, order, same, Std.TreeMap.getD_eq_getD_getElem?, numbers root (.refl root),
    Std.TreeMap.getD_eq_getD_getElem?]

end Embedded

/-- What was extracted is extracted again as it is. -/
theorem extract_extract (wellFormed : c.WellFormed) (inside : root < c.size) :
    extract (extract c root).circuit (extract c root).root = extract c root := by
  obtain ⟨wellFormed', inside'⟩ := wellFormed_extract wellFormed inside
  obtain ⟨_, _, made⟩ := copied_extract wellFormed inside
  rw [made] at inside'
  rw [made]
  exact extract_of_embeds (embeds_extract wellFormed inside) wellFormed.inStep.even (wellFormed.inside inside)
    wellFormed'.inStep.even (wellFormed'.inside inside')

end DDnnf

end Provenance
