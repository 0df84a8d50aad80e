import Provenance.Budget
import Provenance.Circuit.Evaluate

/-!
# Sampling worlds

The probability of a gate estimated by the share of random worlds in which it is true. Randomness
comes from a source of draws between zero and one: a state and a function that draws from it.
-/

namespace Provenance

/-- A source of draws between zero and one. -/
structure DrawSource (σ α : Type) where
  /-- A draw and the state after it. -/
  draw : σ → α × σ

namespace DrawSource

/-- The draw that a random word stands for: its 53 high bits as a binary fraction. -/
def ofWord (word : UInt64) : Float := (word >>> 11).toNat.toFloat / (Nat.pow 2 53).toFloat

/-- One step of a generator of words: the state moves by an odd constant and the word mixes its
bits. -/
def mixWord (state : UInt64) : UInt64 × UInt64 :=
  let state := state + 0x9E3779B97F4A7C15
  let z := (state ^^^ (state >>> 30)) * 0xBF58476D1CE4E5B9
  let z := (z ^^^ (z >>> 27)) * 0x94D049BB133111EB
  (z ^^^ (z >>> 31), state)

/-- Draws from a generator of words. -/
def ofWords (next : UInt64 → UInt64 × UInt64) : DrawSource UInt64 Float :=
  ⟨fun state => let (word, state) := next state; (ofWord word, state)⟩

end DrawSource

namespace Circuit

variable {σ α : Type} [Scalar α]

/-- A random world: each input is true when the draw for it is below its probability. -/
def drawWorld (c : Circuit α) (source : DrawSource σ α) :
    List Nat → σ → Array Bool → Array Bool × σ
  | [], state, table => (table, state)
  | input :: rest, state, table =>
    let (draw, state) := source.draw state
    let table := if Scalar.lt draw (c.prob input) then table.setIfInBounds input true else table
    drawWorld c source rest state table

/-- Counts the worlds of `remaining` more samples in which the last gate of `order` is true. -/
def countSamples (c : Circuit α) (source : DrawSource σ α) (order : List Nat) :
    (remaining : Nat) → (successes : Nat) → σ → Outcome Nat
  | 0, successes, _ => .ok successes
  | remaining + 1, successes, state => do
    let (table, state) :=
      c.drawWorld source c.inputs.toList state (Array.replicate c.size false)
    let value ← c.evaluateInOrder order (table.getD · false)
    let successes := if value then successes + 1 else successes
    countSamples c source order remaining successes state

/-- The share of `samples` random worlds in which `root` is true. -/
def monteCarlo (c : Circuit α) (root samples : Nat) (budget : Budget) (source : DrawSource σ α)
    (state : σ) : Outcome α := do
  c.requireBoolean
  Outcome.require (0 < samples) .noSamples
  let order := c.postOrder root
  c.requireValues order
  budget.afford (c.worldWork order) samples .samples
  let successes ← countSamples c source order samples 0 state
  .ok (Scalar.ofNat successes / Scalar.ofNat samples)

end Circuit

end Provenance
