import Provenance.Failure

/-!
# Budgets

A long computation is a number of iterations that all take the same work. It is interrupted after
the iteration that uses its budget up, so at least one is made. Work is measured in about
nanoseconds.
-/

namespace Provenance

/-- How much work may be done; no number means any amount. -/
structure Budget where
  limit : Option Nat
  deriving DecidableEq, Repr

namespace Budget

/-- As much work as it takes. -/
def unlimited : Budget := ⟨none⟩

/-- The budget of a computation that should stop at once. -/
def cancelled : Budget := ⟨some 0⟩

/-- The work of a millisecond. -/
def perMillisecond : Nat := 1000000

/-- What is spent between the start of a clock and the first iteration. -/
def startup : Nat := 100000

/-- The budget of a time; a negative time is none. -/
def ofMilliseconds (milliseconds : Int) : Budget :=
  ⟨some (milliseconds.toNat * perMillisecond + startup)⟩

/-- The iteration of the given work after which `limit` is used up, counted from one. -/
def lastIteration (limit work : Nat) : Nat := max 1 ((limit + work - 1) / work)

/-- The iteration that uses the budget up, if it is among the first `total`. -/
def stop? (budget : Budget) (work total : Nat) : Option Nat :=
  (budget.limit.map (lastIteration · work)).filter (· ≤ total)

/-- Fails when the budget is used up by some of `total` iterations of the given work. -/
def afford (budget : Budget) (work total : Nat) (unit : Iteration) : Outcome Unit :=
  match budget.stop? work total with
  | none => .ok ()
  | some done => Outcome.fail (.interrupted done unit)

/-- A cancelled computation stops after its first iteration. -/
theorem stop?_cancelled (work total : Nat) (some_iteration : 0 < total) :
    cancelled.stop? work total = some 1 := by
  have nothing : (work - 1) / work = 0 := by
    cases work with
    | zero => rfl
    | succ less => exact Nat.div_eq_of_lt (by omega)
  simp [stop?, cancelled, lastIteration, nothing, Nat.succ_le_of_lt some_iteration]

/-- Without a limit every computation can be afforded. -/
@[simp] theorem afford_unlimited (work total : Nat) (unit : Iteration) :
    unlimited.afford work total unit = .ok () := rfl

end Budget

end Provenance
