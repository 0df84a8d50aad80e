/-!
# Steps that are permitted in turn

A step may be permitted in some states only.  Of steps made one after the other each must be permitted in the
state that those before it lead to (`Permitted`).  What permitted steps keep holds at the end (`Permitted.foldl`).
-/

namespace Provenance

variable {σ ι : Type} {step : σ → ι → σ} {allowed : σ → ι → Prop}

/-- Whether each step is allowed when its turn comes. -/
def Permitted (step : σ → ι → σ) (allowed : σ → ι → Prop) : σ → List ι → Prop
  | _, [] => True
  | state, first :: rest => allowed state first ∧ Permitted step allowed (step state first) rest

/-- What each allowed step keeps, permitted steps keep. -/
theorem Permitted.foldl {motive : σ → Prop}
    (keeps : ∀ state i, motive state → allowed state i → motive (step state i)) {state : σ} {steps : List ι}
    (permitted : Permitted step allowed state steps) (holds : motive state) : motive (steps.foldl step state) := by
  induction steps generalizing state with
  | nil => exact holds
  | cons first rest ih => exact ih permitted.2 (keeps state first holds permitted.1)

end Provenance
