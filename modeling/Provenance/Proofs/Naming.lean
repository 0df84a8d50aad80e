import Provenance.Naming

/-!
# Names and gates are paired

The two maps of a naming say the same when a name has an owner exactly if the owner has the name
(`Paired`).  Giving a name and taking one away keep this.
-/

namespace Provenance.Naming

/-- The owner of a name is the gate that has it. -/
def Paired (naming : Naming) : Prop :=
  ∀ name gate, naming.owner? name = some gate ↔ naming.name? gate = some name

theorem paired_empty : empty.Paired := by
  intro name gate
  simp [owner?, name?, empty]

variable {naming : Naming}

/-- Two gates with one name are the same. -/
theorem Paired.eq_of_name? (paired : naming.Paired) {a b : Nat} {name : String}
    (left : naming.name? a = some name) (right : naming.name? b = some name) : a = b := by
  rw [← paired] at left right
  exact Option.some.inj (left.symm.trans right)

theorem name?_release (naming : Naming) (gate other : Nat) :
    (naming.release gate).name? other = if other = gate then none else naming.name? other := by
  unfold release
  cases here : naming.name? gate with
  | none =>
    by_cases same : other = gate
    · subst same; simp [here]
    · simp [same]
  | some name =>
    rw [name?, Std.TreeMap.getElem?_erase]
    simp only [Nat.compare_eq_eq, @eq_comm _ gate, name?]

theorem owner?_release (naming : Naming) (gate : Nat) (name : String) :
    (naming.release gate).owner? name =
      if naming.name? gate = some name then none else naming.owner? name := by
  unfold release
  cases here : naming.name? gate with
  | none => simp
  | some old =>
    rw [owner?, Std.TreeMap.getElem?_erase]
    simp only [Std.compare_eq_iff_eq, Option.some.injEq, owner?]

theorem Paired.release (paired : naming.Paired) (gate : Nat) : (naming.release gate).Paired := by
  intro name other
  rw [owner?_release, name?_release]
  by_cases same : other = gate
  · subst same
    by_cases here : naming.name? other = some name
    · simp [here]
    · simp [here, paired name other]
  · by_cases here : naming.name? gate = some name
    · simp only [here, if_true, same, if_false, reduceCtorEq, false_iff]
      exact fun there => same (paired.eq_of_name? there here)
    · simp [here, same, paired name other]

/-- The names after one was given to a gate: its former owner has none. -/
theorem name?_assign (paired : naming.Paired) (gate other : Nat) (name : String) :
    (naming.assign gate name).name? other =
      if other = gate then some name
      else if naming.name? other = some name then none else naming.name? other := by
  have freed := paired.release gate
  by_cases same : other = gate
  · subst same; simp [assign, name?]
  · have kept : (naming.release gate).name? other = naming.name? other := by
      rw [name?_release, if_neg same]
    rw [if_neg same, assign, name?, Std.TreeMap.getElem?_insert,
      if_neg (mt Nat.compare_eq_eq.1 (Ne.symm same))]
    cases owner : (naming.release gate).owner? name with
    | none =>
      have free : ¬ naming.name? other = some name := by
        rw [← kept, ← freed, owner]; simp
      rw [if_neg free]
      exact kept
    | some former =>
      have owns : naming.name? other = some name ↔ former = other := by
        rw [← kept, ← freed, owner, Option.some.injEq]
      simp only [Std.TreeMap.getElem?_erase, Nat.compare_eq_eq, owns]
      split
      · rfl
      · exact kept

theorem owner?_assign (naming : Naming) (gate : Nat) (name other : String) :
    (naming.assign gate name).owner? other =
      if other = name then some gate
      else if naming.name? gate = some other then none else naming.owner? other := by
  by_cases same : other = name
  · subst same; simp [assign, owner?]
  · rw [if_neg same, ← owner?_release, assign, owner?, Std.TreeMap.getElem?_insert,
      if_neg (mt Std.compare_eq_iff_eq.1 (Ne.symm same))]
    rfl

theorem Paired.assign (paired : naming.Paired) (gate : Nat) (name : String) :
    (naming.assign gate name).Paired := by
  intro other holder
  rw [owner?_assign, name?_assign paired]
  by_cases same : other = name
  · subst same
    by_cases here : holder = gate
    · simp [here]
    · have : ¬ gate = holder := Ne.symm here
      by_cases there : naming.name? holder = some other <;> simp [here, this, there]
  · by_cases here : holder = gate
    · subst here
      by_cases old : naming.name? holder = some other
      · simp [same, old, Ne.symm same]
      · simp [same, old, Ne.symm same, paired other holder]
    · have holds := paired other holder
      by_cases old : naming.name? gate = some other
      · have apart : ¬ naming.name? holder = some other :=
          fun there => here (paired.eq_of_name? there old)
        by_cases taken : naming.name? holder = some name
        · simp [same, here, old, taken]
        · simp [same, here, old, taken, apart]
      · by_cases taken : naming.name? holder = some name
        · have apart : ¬ naming.name? holder = some other := by
            rw [taken]; simpa using Ne.symm same
          simp [same, here, old, taken, holds, Ne.symm same]
        · simp [same, here, old, taken, holds]

end Provenance.Naming
