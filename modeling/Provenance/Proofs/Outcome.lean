import Mathlib.Data.List.Forall2
import Provenance.Failure

/-!
# Outcomes without failure

What an outcome without failure says about the steps that it was put together from: each of them had an
outcome too.
-/

namespace Provenance.Outcome

variable {β γ : Type}

@[simp] theorem bind_eq_ok {x : Outcome β} {f : β → Outcome γ} {result : γ} :
    x >>= f = .ok result ↔ ∃ y, x = .ok y ∧ f y = .ok result := by
  cases x with
  | error failure => simp [bind, Except.bind]
  | ok y => simp [bind, Except.bind]

@[simp] theorem map_eq_ok {x : Outcome β} {f : β → γ} {result : γ} :
    Except.map f x = .ok result ↔ ∃ y, x = .ok y ∧ f y = result := by
  cases x with
  | error failure => simp [Except.map]
  | ok y => simp [Except.map]

@[simp] theorem mapError_eq_ok {ε ε' : Type} {x : Except ε β} {f : ε → ε'} {result : β} :
    Except.mapError f x = .ok result ↔ x = .ok result := by
  cases x with
  | error failure => simp [Except.mapError]
  | ok y => simp [Except.mapError]

@[simp] theorem fail_eq_ok {cause : Cause} {result : β} :
    (fail cause : Outcome β) = .ok result ↔ False := by
  simp [fail]

@[simp] theorem require_eq_ok {condition : Bool} {cause : Cause} {result : Unit} :
    require condition cause = .ok result ↔ condition = true := by
  cases condition with
  | false => simp [require]
  | true => simp [require]

@[simp] theorem ofOption_eq_ok {cause : Cause} {x : Option β} {y : β} :
    ofOption cause x = .ok y ↔ x = some y := by
  cases x with
  | none => simp [ofOption]
  | some z => simp [ofOption]

/-- What is computed from an outcome without failure is computed from some result. -/
theorem toOption_map_eq_some {x : Outcome β} {f : β → γ} {y : γ} :
    x.toOption.map f = some y ↔ ∃ result, x = .ok result ∧ f result = y := by
  cases x with
  | error failure => simp [Except.toOption]
  | ok result => simp [Except.toOption]

/-- Steps made for the elements of a list give their outcomes in the same order. -/
theorem mapM_eq_ok_iff {step : β → Outcome γ} {xs : List β} {ys : List γ} :
    xs.mapM step = .ok ys ↔ List.Forall₂ (fun x y => step x = .ok y) xs ys := by
  induction xs generalizing ys with
  | nil =>
    rw [List.mapM_nil, List.forall₂_nil_left_iff]
    exact ⟨fun same => (Except.ok.inj same).symm, fun same => same ▸ rfl⟩
  | cons x xs ih =>
    simp only [List.mapM_cons, bind_eq_ok, ih, List.forall₂_cons_left_iff]
    constructor
    · rintro ⟨y, first, rest, others, same⟩
      exact ⟨y, rest, first, others, (Except.ok.inj same).symm⟩
    · rintro ⟨y, rest, first, others, same⟩
      exact ⟨y, first, rest, others, same ▸ rfl⟩

/-- What succeeds for each element of a list succeeds for the list. -/
theorem mapM_eq_ok {step : β → Outcome γ} {value : β → γ} {xs : List β}
    (each : ∀ x ∈ xs, step x = .ok (value x)) : xs.mapM step = .ok (xs.map value) :=
  mapM_eq_ok_iff.2 (List.forall₂_map_right_iff.2 (List.forall₂_same.2 each))

/-- Each element has its outcome in the list, and each outcome is that of an element. -/
theorem mem_of_mapM {step : β → Outcome γ} {xs : List β} {ys : List γ} (made : xs.mapM step = .ok ys) :
    (∀ x ∈ xs, ∃ y ∈ ys, step x = .ok y) ∧ ∀ y ∈ ys, ∃ x ∈ xs, step x = .ok y := by
  rw [mapM_eq_ok_iff] at made
  induction made with
  | nil => simp
  | cons first _ ih =>
    obtain ⟨left, right⟩ := ih
    simp only [List.mem_cons, forall_eq_or_imp, exists_eq_or_imp]
    exact ⟨⟨Or.inl first, fun x listed => Or.inr (left x listed)⟩,
      Or.inl first, fun y listed => Or.inr (right y listed)⟩

/-- What each step keeps, steps made one after the other keep. -/
theorem foldlM_invariant {motive : γ → Prop} {step : γ → β → Outcome γ} {xs : List β}
    (keeps : ∀ y x result, motive y → step y x = .ok result → motive result) {y result : γ}
    (holds : motive y) (made : xs.foldlM step y = .ok result) : motive result := by
  induction xs generalizing y with
  | nil =>
    cases made
    exact holds
  | cons x xs ih =>
    rw [List.foldlM_cons, bind_eq_ok] at made
    obtain ⟨next, first, others⟩ := made
    exact ih (keeps y x next holds first) others

/-- Where it does not depend on the state whether a step succeeds, steps made one after the other succeed when
each does. -/
theorem exists_foldlM_iff {motive : β → Prop} {step : γ → β → Outcome γ} {xs : List β} {y : γ}
    (each : ∀ y x, (∃ result, step y x = .ok result) ↔ motive x) :
    (∃ result, xs.foldlM step y = .ok result) ↔ ∀ x ∈ xs, motive x := by
  induction xs generalizing y with
  | nil => exact ⟨fun _ _ none => absurd none List.not_mem_nil, fun _ => ⟨y, rfl⟩⟩
  | cons x xs ih =>
    simp only [List.foldlM_cons, bind_eq_ok, List.forall_mem_cons]
    constructor
    · rintro ⟨result, next, first, others⟩
      exact ⟨(each y x).1 ⟨next, first⟩, ih.1 ⟨result, others⟩⟩
    · rintro ⟨first, others⟩
      obtain ⟨next, first⟩ := (each y x).2 first
      obtain ⟨result, others⟩ := (ih (y := next)).2 others
      exact ⟨result, next, first, others⟩

end Provenance.Outcome
