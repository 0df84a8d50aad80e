import Mathlib.Logic.Function.DependsOn
import Mathlib.Order.BourbakiWitt
import Mathlib.Order.CompletePartialOrder
import Provenance.Proofs.DDnnf.Counts
import Provenance.Proofs.DDnnf.Game

/-!
# Chances

The chance of an event is the sum of the probabilities of the worlds in which it happens.  Chances of
events that exclude each other add up (`chance_or`, `chance_any`), and those of events that depend on
different inputs multiply (`chance_and`, `chance_all`).  Inputs on which an event does not depend can be
left out (`chance_of_subset`), an event is expanded by an input (`chance_expand`), and inputs can be
renumbered (`chance_image`).
-/

namespace Provenance

open Circuit (World among)

variable {p : Nat → Rat} {V W A : Finset Nat} {e f : World → Bool} {s t : Set Nat}

/-- The probability of an event: the sum over the worlds in which it happens. -/
def chance (p : Nat → Rat) (inputs : Finset Nat) (event : World → Bool) : Rat :=
  ∑ world ∈ inputs.powerset with event (among world), exactly p inputs world

theorem chance_eq_sum : chance p V e =
    ∑ N ∈ V.powerset, if e (among N) = true then exactly p V N else 0 :=
  Finset.sum_filter ..

theorem chance_congr (same : ∀ N ⊆ V, e (among N) = f (among N)) : chance p V e = chance p V f := by
  rw [chance_eq_sum, chance_eq_sum]
  refine Finset.sum_congr rfl fun N inside => ?_
  rw [same N (Finset.mem_powerset.1 inside)]

/-- Some world is the case. -/
@[simp] theorem chance_true : chance p V (fun _ => true) = 1 := by
  have total := Finset.prod_add p (fun i => 1 - p i) V
  simp only [add_sub_cancel, Finset.prod_const_one] at total
  rw [chance_eq_sum, total]
  exact Finset.sum_congr rfl fun N _ => if_pos rfl

@[simp] theorem chance_false : chance p V (fun _ => false) = 0 := by
  rw [chance_eq_sum]
  exact Finset.sum_eq_zero fun N _ => if_neg Bool.false_ne_true

/-! ## Events that exclude each other -/

theorem chance_or (exclusive : ∀ N ⊆ V, ¬ (e (among N) = true ∧ f (among N) = true)) :
    chance p V (fun world => e world || f world) = chance p V e + chance p V f := by
  rw [chance_eq_sum, chance_eq_sum, chance_eq_sum, ← Finset.sum_add_distrib]
  refine Finset.sum_congr rfl fun N inside => ?_
  have apart := exclusive N (Finset.mem_powerset.1 inside)
  cases left : e (among N) with
  | false => simp
  | true =>
    cases right : f (among N) with
    | false => simp
    | true => exact absurd ⟨left, right⟩ apart

theorem chance_not : chance p V (fun world => !e world) = 1 - chance p V e := by
  have both : chance p V (fun world => e world || !e world) =
      chance p V e + chance p V fun world => !e world :=
    chance_or fun N _ => by simp
  have always : chance p V (fun world => e world || !e world) = 1 := by
    simp
  rw [← always, both, add_sub_cancel_left]

theorem chance_any {β : Type} {xs : List β} {event : β → World → Bool}
    (exclusive : ∀ world, xs.Pairwise fun x y => ¬ (event x world = true ∧ event y world = true)) :
    chance p V (fun world => xs.any (event · world)) = (xs.map fun x => chance p V (event x)).sum := by
  induction xs with
  | nil => simp
  | cons x xs ih =>
    have first := fun world => (List.pairwise_cons.1 (exclusive world)).1
    have rest := ih fun world => (List.pairwise_cons.1 (exclusive world)).2
    simp only [List.any_cons, List.map_cons, List.sum_cons]
    rw [← rest]
    refine chance_or fun N _ both => ?_
    obtain ⟨y, listed, happens⟩ := List.any_eq_true.1 both.2
    exact first (among N) y listed ⟨both.1, happens⟩

/-- Exactly one of several things is the case. -/
theorem chance_partition {ι : Type} [DecidableEq ι] {choices : Finset ι} {pick : World → ι}
    (within : ∀ world, pick world ∈ choices) :
    chance p V e = ∑ choice ∈ choices, chance p V fun world => decide (pick world = choice) && e world := by
  simp only [chance_eq_sum]
  rw [Finset.sum_comm]
  refine Finset.sum_congr rfl fun N _ => ?_
  cases happens : e (among N) with
  | false => simp
  | true => simp [within]

/-! ## Events that depend on different inputs -/

/-- Two parts of the inputs, each with an event that the other part does not change. -/
theorem chance_union (apart : Disjoint V W)
    (left : ∀ N ⊆ V, ∀ M ⊆ W, e (among (N ∪ M)) = e (among N))
    (right : ∀ N ⊆ V, ∀ M ⊆ W, f (among (N ∪ M)) = f (among M)) :
    chance p (V ∪ W) (fun world => e world && f world) = chance p V e * chance p W f := by
  rw [chance_eq_sum, sum_powerset_union apart, chance_eq_sum, chance_eq_sum, Finset.sum_mul_sum]
  refine Finset.sum_congr rfl fun N inside => Finset.sum_congr rfl fun M inside' => ?_
  rw [Finset.mem_powerset] at inside inside'
  rw [left N inside M inside', right N inside M inside', exactly_union apart inside inside']
  cases e (among N) <;> cases f (among M) <;> simp

theorem chance_and (apart : Disjoint s t) (left : DependsOn e s) (right : DependsOn f t) :
    chance p A (fun world => e world && f world) = chance p A e * chance p A f := by
  classical
  -- the inputs on which the first event may depend, and the others
  obtain ⟨V, same⟩ : ∃ V, V = A.filter (· ∈ s) := ⟨_, rfl⟩
  obtain ⟨W, same'⟩ : ∃ W, W = A.filter (· ∉ s) := ⟨_, rfl⟩
  have separate : Disjoint V W := by
    rw [same, same']
    exact Finset.disjoint_filter_filter_not A A _
  have all : A = V ∪ W := by
    rw [same, same']
    exact (Finset.filter_union_filter_not_eq _ A).symm
  have in_s : ∀ i ∈ V, i ∈ s := by
    rw [same]
    exact fun i member => (Finset.mem_filter.1 member).2
  have off_s : ∀ i ∈ W, i ∉ s := by
    rw [same']
    exact fun i member => (Finset.mem_filter.1 member).2
  have left' : ∀ N ⊆ V, ∀ M ⊆ W, e (among (N ∪ M)) = e (among N) := by
    intro N _ M inside
    refine left fun i member => decide_eq_decide.2 ?_
    have outside : i ∉ M := fun there => off_s i (inside there) member
    rw [Finset.mem_union, or_iff_left outside]
  have right' : ∀ N ⊆ V, ∀ M ⊆ W, f (among (N ∪ M)) = f (among M) := by
    intro N inside M _
    refine right fun i member => decide_eq_decide.2 ?_
    have outside : i ∉ N := fun there => Set.disjoint_left.1 apart (in_s i (inside there)) member
    rw [Finset.mem_union, or_iff_right outside]
  have first : chance p (V ∪ W) e = chance p V e := by
    have split := chance_union (p := p) (f := fun _ => true) separate left' fun _ _ _ _ => rfl
    simpa using split
  have second : chance p (V ∪ W) f = chance p W f := by
    have split := chance_union (p := p) (e := fun _ => true) separate (fun _ _ _ _ => rfl) right'
    simpa using split
  rw [all, chance_union separate left' right', first, second]

/-- Inputs on which an event does not depend can be left out. -/
theorem chance_of_subset (subset : V ⊆ A) (depends : DependsOn e s) (others : ∀ i ∈ A, i ∉ V → i ∉ s) :
    chance p A e = chance p V e := by
  have split := chance_union (p := p) (V := V) (W := A \ V) (e := e) (f := fun _ => true)
    Finset.disjoint_sdiff ?_ fun _ _ _ _ => rfl
  · simpa [Finset.union_sdiff_of_subset subset] using split
  · intro N _ M inside
    refine depends fun i member => decide_eq_decide.2 ?_
    have outside : i ∉ M := fun there => by
      obtain ⟨listed, new⟩ := Finset.mem_sdiff.1 (inside there)
      exact others i listed new member
    rw [Finset.mem_union, or_iff_left outside]

/-- An input is true with its probability. -/
theorem chance_input {i : Nat} (member : i ∈ A) : chance p A (fun world => world i) = p i := by
  have depends : DependsOn (fun world : World => world i) ({i} : Finset Nat) :=
    fun world world' same => same i (by simp)
  rw [chance_of_subset (Finset.singleton_subset_iff.2 member) depends fun _ _ new => new, chance_eq_sum,
    sum_powerset_singleton]
  simp [among, exactly]

/-- With an input made a constant, an event depends on the other inputs. -/
theorem dependsOn_update (e : World → Bool) (i : Nat) (value : Bool) :
    DependsOn (fun world : World => e (Function.update world i value)) {other | other ≠ i} := by
  intro world world' same
  refine congrArg e (funext fun other => ?_)
  by_cases here : other = i
  · rw [here, Function.update_self, Function.update_self]
  · rw [Function.update_of_ne here, Function.update_of_ne here, same other here]

/-- The expansion of an event by an input: it happens with the input true, or with the input false. -/
theorem chance_expand {i : Nat} (member : i ∈ A) : chance p A e =
    p i * chance p (A.erase i) (fun world => e (Function.update world i true)) +
      (1 - p i) * chance p (A.erase i) fun world => e (Function.update world i false) := by
  have split : ∀ world : World, e world =
      ((world i && e (Function.update world i true)) || (!world i && e (Function.update world i false))) := by
    intro world
    have same : e (Function.update world i (world i)) = e world := by rw [Function.update_eq_self]
    cases here : world i <;> simp [← same, here]
  have own : DependsOn (fun world : World => world i) {other | other = i} := fun _ _ same => same i rfl
  have negated : DependsOn (fun world : World => !world i) {other | other = i} := fun _ _ same =>
    congrArg (!·) (same i rfl)
  have apart : Disjoint {other : Nat | other = i} {other | other ≠ i} :=
    Set.disjoint_left.2 fun _ here there => there here
  have others : ∀ value, chance p A (fun world => e (Function.update world i value)) =
      chance p (A.erase i) fun world => e (Function.update world i value) := fun value =>
    chance_of_subset (Finset.erase_subset i A) (dependsOn_update e i value) fun other listed out there =>
      out (Finset.mem_erase.2 ⟨there, listed⟩)
  calc chance p A e
    _ = chance p A (fun world => world i && e (Function.update world i true)) +
        chance p A (fun world => !world i && e (Function.update world i false)) := by
      rw [← chance_or fun N _ both => by cases here : among N i <;> simp [here] at both]
      exact chance_congr fun N _ => split (among N)
    _ = _ := by
      rw [chance_and apart own (dependsOn_update e i true), chance_input member, others,
        chance_and apart negated (dependsOn_update e i false), chance_not, chance_input member, others]

/-- An event about several others depends on what they depend on. -/
theorem dependsOn_all {β : Type} {xs : List β} {event : β → World → Bool} {on : β → Set Nat}
    (depends : ∀ x ∈ xs, DependsOn (event x) (on x)) :
    DependsOn (fun world => xs.all (event · world)) {i | ∃ x ∈ xs, i ∈ on x} := by
  intro world world' same
  show xs.all (event · world) = xs.all (event · world')
  rw [Bool.eq_iff_iff, List.all_eq_true, List.all_eq_true]
  refine forall₂_congr fun x listed => ?_
  rw [depends x listed fun i member => same i ⟨x, listed, member⟩]

theorem chance_all {β : Type} {xs : List β} {event : β → World → Bool} {on : β → Set Nat}
    (depends : ∀ x ∈ xs, DependsOn (event x) (on x))
    (apart : xs.Pairwise fun x y => Disjoint (on x) (on y)) :
    chance p A (fun world => xs.all (event · world)) =
      (xs.map fun x => chance p A (event x)).prod := by
  induction xs with
  | nil => simp
  | cons x xs ih =>
    obtain ⟨first, rest⟩ := List.pairwise_cons.1 apart
    have depends' := fun y listed => depends y (List.mem_cons_of_mem x listed)
    simp only [List.all_cons, List.map_cons, List.prod_cons]
    rw [← ih depends' rest]
    refine chance_and ?_ (depends x List.mem_cons_self) (dependsOn_all depends')
    refine Set.disjoint_left.2 fun i left right => ?_
    obtain ⟨y, listed, member⟩ := right
    exact Set.disjoint_left.1 (first y listed) left member

/-! ## Bounds -/

theorem chance_nonneg (probs : ∀ i ∈ V, 0 ≤ p i ∧ p i ≤ 1) : 0 ≤ chance p V e :=
  Finset.sum_nonneg fun _ member =>
    exactly_nonneg probs (Finset.mem_powerset.1 (Finset.mem_filter.1 member).1)

theorem chance_le_one (probs : ∀ i ∈ V, 0 ≤ p i ∧ p i ≤ 1) : chance p V e ≤ 1 := by
  have other : 0 ≤ chance p V fun world => !e world := chance_nonneg probs
  rw [chance_not] at other
  exact sub_nonneg.1 other

/-! ## Other numbers for the inputs -/

theorem chance_congr_probs {p' : Nat → Rat} (probs : ∀ i ∈ V, p' i = p i) : chance p' V e = chance p V e := by
  refine Finset.sum_congr rfl fun N member => ?_
  have inside := Finset.mem_powerset.1 (Finset.mem_filter.1 member).1
  refine congrArg₂ (· * ·) (Finset.prod_congr rfl fun i listed => probs i (inside listed))
    (Finset.prod_congr rfl fun i listed => ?_)
  rw [probs i (Finset.mem_sdiff.1 listed).1]

theorem exactly_image {p' : Nat → Rat} {number : Nat → Nat} (injective : Set.InjOn number V)
    (probs : ∀ i ∈ V, p' (number i) = p i) {N : Finset Nat} (inside : N ⊆ V) :
    exactly p' (V.image number) (N.image number) = exactly p V N := by
  have rest : V.image number \ N.image number = (V \ N).image number :=
    (Finset.image_sdiff_of_injOn injective inside).symm
  rw [exactly, exactly, rest, Finset.prod_image (injective.mono inside),
    Finset.prod_image (injective.mono Finset.sdiff_subset)]
  congr 1
  · exact Finset.prod_congr rfl fun i member => probs i (inside member)
  · refine Finset.prod_congr rfl fun i member => ?_
    rw [probs i (Finset.mem_sdiff.1 member).1]

/-- An event has the same chance when its inputs get other numbers. -/
theorem chance_image {p' : Nat → Rat} {number : Nat → Nat} (injective : Set.InjOn number V)
    (probs : ∀ i ∈ V, p' (number i) = p i)
    (same : ∀ N ⊆ V, f (among (N.image number)) = e (among N)) :
    chance p' (V.image number) f = chance p V e := by
  rw [chance_eq_sum, chance_eq_sum, Finset.powerset_image,
    Finset.sum_image (Finset.image_injOn_powerset_of_injOn injective)]
  refine Finset.sum_congr rfl fun N inside => ?_
  have inside := Finset.mem_powerset.1 inside
  rw [same N inside, exactly_image injective probs inside]

/-- A player has the same expected score when the players get other numbers. -/
theorem DDnnf.expectedScore_image (score : DDnnf.Score) {p' : Nat → Rat} {number : Nat → Nat} {x : Nat}
    {g h : Finset Nat → Bool} (injective : Set.InjOn number V) (probs : ∀ i ∈ V, p' (number i) = p i)
    (same : ∀ S ⊆ V, g (S.image number) = h S) (player : x ∈ V) :
    expectedScore score p' (V.image number) g (number x) = expectedScore score p V h x := by
  have member : ∀ N ⊆ V, (number x ∈ N.image number ↔ x ∈ N) := fun N inside => by
    rw [← Finset.mem_coe, Finset.coe_image, injective.mem_image_iff (Finset.coe_subset.2 inside) player]
    rfl
  have without : ∀ N ⊆ V, (N.image number).erase (number x) = (N.erase x).image number := fun N inside => by
    ext y
    simp only [Finset.mem_erase, Finset.mem_image]
    constructor
    · rintro ⟨different, i, there, rfl⟩
      exact ⟨i, ⟨fun equal => different (equal ▸ rfl), there⟩, rfl⟩
    · rintro ⟨i, ⟨different, there⟩, rfl⟩
      exact ⟨fun equal => different (injective (inside there) player equal), i, there, rfl⟩
  simp only [expectedScore, Finset.sum_filter]
  rw [Finset.powerset_image, Finset.sum_image (Finset.image_injOn_powerset_of_injOn injective)]
  refine Finset.sum_congr rfl fun N inside => ?_
  have inside := Finset.mem_powerset.1 inside
  rw [if_congr (member N inside) rfl rfl, exactly_image injective probs inside, without N inside,
    Finset.powerset_image, Finset.sum_image
      (Finset.image_injOn_powerset_of_injOn (injective.mono ((Finset.erase_subset x N).trans inside))),
    Finset.card_image_of_injOn (injective.mono inside)]
  refine ite_congr rfl (fun there => congrArg (exactly p V N * ·) ?_) fun _ => rfl
  refine Finset.sum_congr rfl fun S below => ?_
  have below := ((Finset.mem_powerset.1 below).trans (Finset.erase_subset x N)).trans inside
  rw [← Finset.image_insert, same S below, same _ (Finset.insert_subset player below),
    Finset.card_image_of_injOn (injective.mono below)]

namespace Circuit

variable {c : Circuit Rat} {gate : Nat}

/-- The probability that a gate is true. -/
def chance (c : Circuit Rat) (gate : Nat) : Rat :=
  Provenance.chance c.prob c.inputs.toFinset fun world => c.value world gate

/-- Whether a gate is true depends on the inputs that it reads. -/
theorem IsFormula.dependsOn {α : Type} {c : Circuit α} (formula : c.IsFormula gate) :
    DependsOn (fun world => c.value world gate) {input | c.Reads gate input} :=
  fun _ _ same => value_congr formula same

end Circuit

end Provenance
