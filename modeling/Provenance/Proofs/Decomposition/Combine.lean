import Provenance.Proofs.Decomposition.Meaning

/-!
# Combining two entries

The part below a bag is the bag with the parts below its children, which have no bags in common and
share gates of the bag only (`Joins`).  An assignment that fits the whole fits both parts, and one that
fits both parts and is respected in the bag fits the whole, when all gates that are doubtful in a part
are in the bag.  Two assignments to the parts that agree where they meet are one assignment to the whole
(`Joins.glue`).  The entry that two entries make together describes just these assignments
(`Joins.describes_combine`, `Joins.exists_of_combine`).
-/

namespace Provenance

/-! ## Valuations -/

namespace Valuation

variable {valuation : Valuation}

/-- A gate has a value when it is listed. -/
theorem value?_isSome_iff {gate : Nat} :
    (valuation.value? gate).isSome ↔ gate ∈ valuation.map Prod.fst := by
  induction valuation with
  | nil => simp [value?]
  | cons head rest ih =>
    obtain ⟨other, value⟩ := head
    rw [value?]
    by_cases same : other = gate
    · simp [same]
    · rw [if_neg same, ih]
      simp [Ne.symm same]

theorem value?_eq_none_iff {gate : Nat} :
    valuation.value? gate = none ↔ gate ∉ valuation.map Prod.fst := by
  rw [← value?_isSome_iff, Option.not_isSome_iff_eq_none]

/-- Of gates that are listed once the listed value is found. -/
theorem value?_of_mem (nodup : (valuation.map Prod.fst).Nodup) {gate : Nat} {value : Bool}
    (member : (gate, value) ∈ valuation) : valuation.value? gate = some value := by
  induction valuation with
  | nil => exact absurd member List.not_mem_nil
  | cons head rest ih =>
    obtain ⟨other, first⟩ := head
    obtain ⟨new, nodup⟩ := List.nodup_cons.1 nodup
    rw [value?]
    rcases List.mem_cons.1 member with same | later
    · cases same
      exact if_pos rfl
    · rw [if_neg, ih nodup later]
      rintro rfl
      exact new (List.mem_map.2 ⟨_, later, rfl⟩)

/-- Valuations of the same gates in the same order with the same values are equal. -/
theorem ext {other : Valuation} (nodup : (valuation.map Prod.fst).Nodup)
    (gates : valuation.map Prod.fst = other.map Prod.fst)
    (values : ∀ gate, valuation.value? gate = other.value? gate) : valuation = other := by
  have pairs : ∀ (valuation : Valuation), (valuation.map Prod.fst).Nodup →
      valuation.map some =
        (valuation.map Prod.fst).map fun gate => (valuation.value? gate).map (gate, ·) := by
    intro valuation nodup
    rw [List.map_map]
    refine List.map_congr_left fun pair member => ?_
    rw [Function.comp, value?_of_mem nodup member]
    rfl
  have same : valuation.map some = other.map some := by
    rw [pairs valuation nodup, pairs other (gates ▸ nodup), gates]
    simp only [values]
  exact (List.map_injective_iff.2 (Option.some_injective _)) same

/-- The gates of a restriction to a bag are those of the bag when they all have values. -/
theorem map_fst_restrict (left right : Valuation) (bag : GateSet)
    (covered : ∀ gate ∈ bag, gate ∈ left.map Prod.fst ∨ gate ∈ right.map Prod.fst) :
    (restrict left right bag).map Prod.fst = bag.toList := by
  rw [restrict, List.map_filterMap]
  have found : ∀ gate ∈ bag.toList, (((right.value? gate).or (left.value? gate)).map (gate, ·)).map
      Prod.fst = some gate := by
    intro gate member
    cases right_value : right.value? gate with
    | some value => rfl
    | none =>
      have listed := (covered gate member).resolve_right (value?_eq_none_iff.1 right_value)
      obtain ⟨value, left_value⟩ := Option.isSome_iff_exists.1 (value?_isSome_iff.2 listed)
      rw [left_value]
      rfl
  rw [List.filterMap_congr found, List.filterMap_some]

end Valuation

namespace Compilation

variable {α : Type} {k : Compilation α}

namespace Part

variable (part : Part k)

/-- The entry has a value for each gate of the top set and doubts no others. -/
structure Proper (e : Entry) : Prop where
  gates : e.valuation.map Prod.fst = part.top.toList
  suspicious : ∀ gate ∈ e.suspicious, gate ∈ part.top

variable {part} {e e' : Entry} {s : Nat → Bool}

theorem Proper.nodup (proper : part.Proper e) : (e.valuation.map Prod.fst).Nodup := by
  rw [proper.gates]
  exact part.top.nodup_toList

/-- Entries that describe one assignment have the same values and the same suspicious gates. -/
theorem Describes.alike (describes : part.Describes s e) (describes' : part.Describes s e')
    (proper : part.Proper e) (proper' : part.Proper e') :
    e.valuation = e'.valuation ∧ e.suspicious = e'.suspicious := by
  refine ⟨Valuation.ext proper.nodup (proper.gates.trans proper'.gates.symm) fun gate => ?_,
    GateSet.ext fun gate => ?_⟩
  · rw [describes.values, describes'.values]
  · rw [describes.suspicious, describes'.suspicious]

/-- The key of an entry tells its values and its suspicious gates. -/
theorem Proper.alike_of_key (proper : part.Proper e) (proper' : part.Proper e')
    (same : e.key = e'.key) : e.valuation = e'.valuation ∧ e.suspicious = e'.suspicious := by
  have gates := proper.gates.trans proper'.gates.symm
  have lengths : e.valuation.length = e'.valuation.length := by
    simpa using congrArg List.length gates
  obtain ⟨values, suspicious⟩ := List.append_inj same (by simpa using lengths)
  constructor
  · have injective : Function.Injective Bool.toNat := by decide
    have values : e.valuation.map Prod.snd = e'.valuation.map Prod.snd := by
      refine List.map_injective_iff.2 injective ?_
      rw [List.map_map, List.map_map]
      exact values
    exact (List.zip_of_prod gates values).trans (List.zip_of_prod rfl rfl).symm
  · cases left : e.suspicious
    cases right : e'.suspicious
    simp_all

end Part

/-! ## Two parts under a bag -/

/-- A bag and two parts below it make the whole. -/
structure Joins (b : Nat) (left right whole : Part k) : Prop where
  mem_bags : ∀ x, x ∈ whole.bags ↔ x = b ∨ x ∈ left.bags ∨ x ∈ right.bags
  top : whole.top = k.tree.bag b
  covered : ∀ gate ∈ k.tree.bag b, gate ∈ left.top ∨ gate ∈ right.top
  not_left : b ∉ left.bags
  not_right : b ∉ right.bags
  apart : ∀ x ∈ left.bags, x ∉ right.bags
  between : ∀ gate, left.Holds gate → right.Holds gate → gate ∈ k.tree.bag b
  no_leaf : ∀ input : Nat, k.responsible[input]? ≠ some b

namespace Joins

variable {b : Nat} {left right whole : Part k} {s : Nat → Bool} {world : Circuit.World}

/-- The two parts can be exchanged. -/
theorem symm (joins : Joins b left right whole) : Joins b right left whole where
  mem_bags x := by rw [joins.mem_bags, or_comm (a := x ∈ left.bags)]
  top := joins.top
  covered gate member := (joins.covered gate member).symm
  not_left := joins.not_right
  not_right := joins.not_left
  apart x member there := joins.apart x there member
  between gate left right := joins.between gate right left
  no_leaf := joins.no_leaf

variable (joins : Joins b left right whole)

include joins

theorem mem_left_top_of_bag {gate : Nat} (holds : left.Holds gate)
    (member : gate ∈ k.tree.bag b) : gate ∈ left.top := by
  obtain ⟨x, inside, held⟩ := holds
  exact left.shared x inside b joins.not_left gate held member

theorem mem_left_top_of_right {gate : Nat} (holds : left.Holds gate)
    (there : right.Holds gate) : gate ∈ left.top :=
  joins.mem_left_top_of_bag holds (joins.between gate holds there)

/-- The gates of the whole are those of the parts. -/
theorem holds_iff {gate : Nat} : whole.Holds gate ↔ left.Holds gate ∨ right.Holds gate := by
  constructor
  · rintro ⟨x, inside, held⟩
    rcases (joins.mem_bags x).1 inside with rfl | inside | inside
    · rcases joins.covered gate held with member | member
      · exact Or.inl (left.top_held gate member)
      · exact Or.inr (right.top_held gate member)
    · exact Or.inl ⟨x, inside, held⟩
    · exact Or.inr ⟨x, inside, held⟩
  · rintro (⟨x, inside, held⟩ | ⟨x, inside, held⟩)
    · exact ⟨x, (joins.mem_bags x).2 (Or.inr (Or.inl inside)), held⟩
    · exact ⟨x, (joins.mem_bags x).2 (Or.inr (Or.inr inside)), held⟩

/-- What is doubtful in the whole is doubtful in a part. -/
theorem doubtful_left {gate : Nat} (doubtful : whole.Doubtful s gate) : left.Doubtful s gate :=
  ⟨doubtful.1, fun x inside => doubtful.2 x ((joins.mem_bags x).2 (Or.inr (Or.inl inside)))⟩

/-- A gate that is doubtful in a part and not in the bag is doubtful in the whole. -/
theorem doubtful_whole {gate : Nat} (holds : left.Holds gate) (outside : gate ∉ k.tree.bag b)
    (doubtful : left.Doubtful s gate) : whole.Doubtful s gate := by
  refine ⟨doubtful.1, fun x inside justified => ?_⟩
  rcases (joins.mem_bags x).1 inside with rfl | inside | inside
  · exact outside justified.1
  · exact doubtful.2 x inside justified
  · exact outside (joins.between gate holds ⟨x, inside, justified.1⟩)

/-- A gate of the bag that a part does not show to be justified there. -/
theorem not_justified_left {gate : Nat} (member : gate ∈ k.tree.bag b)
    (strong : (k.source.kind gate).isStrong (s gate) = true) :
    (∀ x ∈ left.bags, ¬ k.Justified s x gate) ↔
      (gate ∈ left.top → left.Doubtful s gate) := by
  constructor
  · exact fun none _ => ⟨strong, none⟩
  · intro doubtful x inside justified
    have top := joins.mem_left_top_of_bag ⟨x, inside, justified.1⟩ member
    exact (doubtful top).2 x inside justified

/-- A gate of the bag is doubtful when neither the bag nor a part that has it in its top set justifies
its value. -/
theorem doubtful_iff {gate : Nat} (member : gate ∈ k.tree.bag b) :
    whole.Doubtful s gate ↔ (k.source.kind gate).isStrong (s gate) = true ∧
      ¬ k.Justified s b gate ∧ (gate ∈ left.top → left.Doubtful s gate) ∧
        (gate ∈ right.top → right.Doubtful s gate) := by
  refine and_congr_right fun strong => ?_
  rw [← joins.not_justified_left member strong, ← joins.symm.not_justified_left member strong]
  simp only [joins.mem_bags]
  constructor
  · intro none
    exact ⟨none b (Or.inl rfl), fun x inside => none x (Or.inr (Or.inl inside)),
      fun x inside => none x (Or.inr (Or.inr inside))⟩
  · rintro ⟨here, in_left, in_right⟩ x (rfl | inside | inside)
    · exact here
    · exact in_left x inside
    · exact in_right x inside

/-! ## Assignments to the whole -/

theorem fits_left (fits : whole.Fits world s) : left.Fits world s where
  inputs input leaf found inside :=
    fits.inputs input leaf found ((joins.mem_bags leaf).2 (Or.inr (Or.inl inside)))
  wires x inside := fits.wires x ((joins.mem_bags x).2 (Or.inr (Or.inl inside)))
  settled gate holds inner doubtful := by
    have outside : gate ∉ k.tree.bag b := fun member =>
      inner (joins.mem_left_top_of_bag holds member)
    exact fits.settled gate (joins.holds_iff.2 (Or.inl holds)) (joins.top ▸ outside)
      (joins.doubtful_whole holds outside doubtful)

theorem respected (fits : whole.Fits world s) : k.Respected s b :=
  fits.wires b ((joins.mem_bags b).2 (Or.inl rfl))

/-- When an assignment fits the whole the bag has all gates that are doubtful in a part. -/
theorem mem_bag_of_doubtful (fits : whole.Fits world s) {gate : Nat} (member : gate ∈ left.top)
    (doubtful : left.Doubtful s gate) : gate ∈ k.tree.bag b := by
  by_contra outside
  have holds := left.top_held gate member
  exact fits.settled gate (joins.holds_iff.2 (Or.inl holds)) (joins.top ▸ outside)
    (joins.doubtful_whole holds outside doubtful)

theorem fits_whole (in_left : left.Fits world s) (in_right : right.Fits world s)
    (here : k.Respected s b)
    (alive_left : ∀ gate ∈ left.top, left.Doubtful s gate → gate ∈ k.tree.bag b)
    (alive_right : ∀ gate ∈ right.top, right.Doubtful s gate → gate ∈ k.tree.bag b) :
    whole.Fits world s where
  inputs input leaf found inside := by
    rcases (joins.mem_bags leaf).1 inside with rfl | inside | inside
    · exact absurd found (joins.no_leaf input)
    · exact in_left.inputs input leaf found inside
    · exact in_right.inputs input leaf found inside
  wires x inside := by
    rcases (joins.mem_bags x).1 inside with rfl | inside | inside
    · exact here
    · exact in_left.wires x inside
    · exact in_right.wires x inside
  settled gate holds outside doubtful := by
    rw [joins.top] at outside
    rcases joins.holds_iff.1 holds with holds | holds
    · by_cases member : gate ∈ left.top
      · exact outside (alive_left gate member (joins.doubtful_left doubtful))
      · exact in_left.settled gate holds member (joins.doubtful_left doubtful)
    · by_cases member : gate ∈ right.top
      · exact outside (alive_right gate member (joins.symm.doubtful_left doubtful))
      · exact in_right.settled gate holds member (joins.symm.doubtful_left doubtful)

/-- Assignments to the parts that agree where the parts meet are one assignment. -/
theorem glue {s₁ s₂ : Nat → Bool}
    (agree : ∀ gate ∈ left.top, gate ∈ right.top → s₁ gate = s₂ gate) :
    ∃ s, left.Same s₁ s ∧ right.Same s₂ s := by
  classical
  refine ⟨fun gate => if left.Holds gate then s₁ gate else s₂ gate, fun gate holds => ?_,
    fun gate holds => ?_⟩
  · exact (if_pos holds).symm
  · by_cases there : left.Holds gate
    · have same := agree gate (joins.mem_left_top_of_right there holds)
        (joins.symm.mem_left_top_of_right holds there)
      exact same.symm.trans (if_pos there).symm
    · exact (if_neg there).symm

end Joins

/-! ## The wires inside a bag -/

section Wires

variable {b : Nat} {s : Nat → Bool} {valuation : Valuation}

theorem lookup_map {γ : Type} (f : Nat → γ) (gates : List Nat) (gate : Nat) :
    (gates.map fun gate => (gate, f gate)).lookup gate =
      if gate ∈ gates then some (f gate) else none := by
  induction gates with
  | nil => rfl
  | cons first gates ih =>
    rw [List.map_cons, List.lookup_cons]
    by_cases same : gate = first
    · subst same; simp
    · simp [beq_eq_false_iff_ne.2 same, same, ih]

/-- The children of a gate that are listed for a bag. -/
theorem mem_children_of {gate child : Nat} (acyclic : k.source.Acyclic) :
    child ∈ ((k.tree.bag b).toList.filter fun child =>
        child != gate && (k.source.children gate).contains child) ↔
      child ∈ k.tree.bag b ∧ child ∈ k.source.children gate := by
  rw [List.mem_filter, Bool.and_eq_true, bne_iff_ne, List.contains_iff_mem, GateSet.mem_def]
  refine and_congr_right fun _ => and_iff_right_of_imp fun wire => ?_
  rintro rfl
  exact acyclic.not_mem_children child wire

variable (values : ∀ gate ∈ k.tree.bag b, valuation.value? gate = some (s gate))

include values

theorem consistent_iff (acyclic : k.source.Acyclic) :
    (BagWires.of k.source (k.tree.bag b)).consistent valuation = true ↔ k.Respected s b := by
  unfold BagWires.consistent BagWires.of Respected
  rw [List.all_map, List.all_eq_true]
  refine forall₂_congr fun gate member => ?_
  simp only [Function.comp_apply, values gate member]
  rw [List.all_eq_true]
  constructor
  · intro all child held wire strong
    have here := all child ((mem_children_of acyclic).2 ⟨held, wire⟩)
    simpa [values child held, strong] using here
  · intro all child listed
    obtain ⟨held, wire⟩ := (mem_children_of acyclic).1 listed
    simp only [values child held]
    cases strong : (k.source.kind gate).isStrong (s child) with
    | false => rfl
    | true => simp [all child held wire strong]

theorem justified_iff_mem (acyclic : k.source.Acyclic) {gate : Nat}
    (member : gate ∈ k.tree.bag b) :
    BagWires.justified valuation (k.source.kind gate)
        ((k.tree.bag b).toList.filter fun child =>
          child != gate && (k.source.children gate).contains child) = true ↔
      k.Justified s b gate := by
  unfold BagWires.justified Justified
  rw [List.any_eq_true]
  constructor
  · rintro ⟨child, listed, strong⟩
    obtain ⟨held, wire⟩ := (mem_children_of acyclic).1 listed
    refine ⟨member, child, held, wire, ?_⟩
    simpa [values child held] using strong
  · rintro ⟨_, child, held, wire, strong⟩
    exact ⟨child, (mem_children_of acyclic).2 ⟨held, wire⟩, by simpa [values child held] using strong⟩

/-- The gates that are suspicious: strong, not vouched for, and not justified in the bag. -/
theorem mem_suspicious (acyclic : k.source.Acyclic) (vouched : Nat → Bool) {gate : Nat} :
    gate ∈ (BagWires.of k.source (k.tree.bag b)).suspicious valuation vouched ↔
      gate ∈ k.tree.bag b ∧ vouched gate = false ∧
        (k.source.kind gate).isStrong (s gate) = true ∧ ¬ k.Justified s b gate := by
  unfold BagWires.suspicious BagWires.of
  rw [GateSet.mem_filter]
  refine and_congr_right fun member => ?_
  simp only [values gate member,
    lookup_map (fun gate => (k.source.kind gate, (k.tree.bag b).toList.filter fun child =>
      child != gate && (k.source.children gate).contains child)), GateSet.mem_def.1 member, if_true]
  rw [Bool.and_eq_true, Bool.and_eq_true, Bool.not_eq_true', Bool.not_eq_true', and_assoc,
    ← justified_iff_mem values acyclic member, Bool.not_eq_true]

end Wires

/-! ## The entry of two entries -/

namespace Joins

variable {b root : Nat} {left right whole : Part k} {s : Nat → Bool} {e₁ e₂ e : Entry}

/-- Two entries agree when the assignments that they describe agree where the parts meet. -/
theorem agrees_iff {s₁ s₂ : Nat → Bool} (first : left.Describes s₁ e₁)
    (second : right.Describes s₂ e₂) (proper : right.Proper e₂) :
    e₁.valuation.agrees e₂.valuation = true ↔
      ∀ gate ∈ left.top, gate ∈ right.top → s₁ gate = s₂ gate := by
  unfold Valuation.agrees
  rw [List.all_eq_true]
  constructor
  · intro all gate in_left in_right
    have value : e₂.valuation.value? gate = some (s₂ gate) := by
      rw [second.values, if_pos in_right]
    have here := all (gate, s₂ gate) (Valuation.value?_eq_some value)
    simpa [first.values, in_left] using here
  · rintro agree ⟨gate, value⟩ member
    have found := Valuation.value?_of_mem proper.nodup member
    rw [second.values] at found
    by_cases in_right : gate ∈ right.top
    · rw [if_pos in_right, Option.some.injEq] at found
      by_cases in_left : gate ∈ left.top
      · simp [first.values, in_left, agree gate in_left in_right, found]
      · simp [first.values, in_left]
    · rw [if_neg in_right] at found
      cases found

/-- An entry vouches for the gates of the top set that are not doubtful. -/
theorem vouches_iff (first : left.Describes s e₁) {gate : Nat} :
    e₁.vouches gate = true ↔ gate ∈ left.top ∧ ¬ left.Doubtful s gate := by
  unfold Entry.vouches
  rw [Bool.and_eq_true, Bool.not_eq_true', ← Bool.not_eq_true, GateSet.contains_iff,
    first.suspicious, first.values]
  by_cases member : gate ∈ left.top <;> simp [member]

variable (joins : Joins b left right whole)

include joins

/-- The entry that two entries describing one assignment make, if the assignment is respected in the
bag, describes it in the whole; and they make none otherwise. -/
theorem combine_eq (ready : k.Ready root) (first : left.Describes s e₁)
    (second : right.Describes s e₂) (proper : right.Proper e₂) :
    (k.Respected s b → ∃ e, (BagWires.of k.source (k.tree.bag b)).combine? e₁ e₂ = some e ∧
      whole.Describes s e) ∧
      ∀ e, (BagWires.of k.source (k.tree.bag b)).combine? e₁ e₂ = some e →
        k.Respected s b ∧ whole.Describes s e := by
  have agrees := (agrees_iff first second proper).2 fun _ _ _ => rfl
  have restricted : ∀ gate,
      (e₁.valuation.restrict e₂.valuation (k.tree.bag b)).value? gate =
        if gate ∈ k.tree.bag b then some (s gate) else none := by
    intro gate
    rw [Valuation.value?_restrict, first.values, second.values]
    by_cases member : gate ∈ k.tree.bag b
    · rw [if_pos member, if_pos member]
      by_cases in_right : gate ∈ right.top
      · simp [in_right]
      · simp [in_right, (joins.covered gate member).resolve_right in_right]
    · rw [if_neg member, if_neg member]
  have values : ∀ gate ∈ k.tree.bag b,
      (e₁.valuation.restrict e₂.valuation (k.tree.bag b)).value? gate = some (s gate) := by
    intro gate member
    rw [restricted, if_pos member]
  have consistent := consistent_iff values ready.acyclic
  have describes : whole.Describes s ⟨0, e₁.valuation.restrict e₂.valuation (k.tree.bag b),
      (BagWires.of k.source (k.tree.bag b)).suspicious
        (e₁.valuation.restrict e₂.valuation (k.tree.bag b))
        fun gate => e₁.vouches gate || e₂.vouches gate⟩ := by
    refine ⟨fun gate => by rw [joins.top]; exact restricted gate, fun gate => ?_⟩
    show gate ∈ BagWires.suspicious _ _ _ ↔ _
    rw [mem_suspicious values ready.acyclic, joins.top]
    refine and_congr_right fun member => ?_
    rw [joins.doubtful_iff member, Bool.or_eq_false_iff, ← Bool.not_eq_true, ← Bool.not_eq_true,
      vouches_iff first, vouches_iff second]
    tauto
  unfold BagWires.combine?
  rw [if_pos agrees]
  constructor
  · intro respected
    exact ⟨_, if_pos (consistent.2 respected), describes⟩
  · intro e made
    simp only at made
    split at made
    · rename_i here
      obtain rfl := Option.some.inj made
      exact ⟨consistent.1 here, describes⟩
    · cases made

/-- Entries that make an entry describe one assignment, which the entry describes. -/
theorem exists_of_combine (ready : k.Ready root) {s₁ s₂ : Nat → Bool}
    (first : left.Describes s₁ e₁) (second : right.Describes s₂ e₂) (proper : right.Proper e₂)
    (made : (BagWires.of k.source (k.tree.bag b)).combine? e₁ e₂ = some e) :
    ∃ s, left.Same s₁ s ∧ right.Same s₂ s ∧ k.Respected s b ∧ whole.Describes s e := by
  have agrees : e₁.valuation.agrees e₂.valuation = true := by
    by_contra disagree
    rw [BagWires.combine?, if_neg disagree] at made
    cases made
  obtain ⟨s, same_left, same_right⟩ :=
    joins.glue ((agrees_iff first second proper).1 agrees)
  obtain ⟨respected, describes⟩ := (joins.combine_eq ready (first.of_same same_left)
    (second.of_same same_right) proper).2 e made
  exact ⟨s, same_left, same_right, respected, describes⟩

/-- An entry made of two has values for the bag. -/
theorem proper_of_combine (proper₁ : left.Proper e₁) (proper₂ : right.Proper e₂)
    (made : (BagWires.of k.source (k.tree.bag b)).combine? e₁ e₂ = some e) :
    e.gate = 0 ∧ whole.Proper e := by
  unfold BagWires.combine? at made
  split at made
  · simp only at made
    split at made
    · obtain rfl := Option.some.inj made
      refine ⟨rfl, ?_, fun gate member => ?_⟩
      · rw [joins.top]
        refine Valuation.map_fst_restrict _ _ _ fun gate member => ?_
        rw [proper₁.gates, proper₂.gates]
        exact joins.covered gate member
      · rw [joins.top]
        exact (GateSet.mem_filter.1 member).1
    · cases made
  · cases made

end Joins

end Compilation

end Provenance
