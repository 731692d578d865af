import Mathlib.Tactic.Common

/-!
# Counted loops

The `for` loops of C code that walk an index range over a mutable state.  Proofs about them go
through an induction rule, which carries an invariant indexed by the position the loop has reached.
-/

namespace PureCOS.Loop

universe u

variable {σ : Type u}

/-- Run `body` at `i, i + 1, …` for `n` rounds. -/
def each (body : σ → Nat → σ) : Nat → Nat → σ → σ
  | 0, _, s => s
  | n + 1, i, s => each body n (i + 1) (body s i)

/-- Invariant rule for `each`. -/
theorem each_induction (body : σ → Nat → σ) (I : Nat → σ → Prop) {n i : Nat} {s : σ}
    (hstep : ∀ k s, i ≤ k → k < i + n → I k s → I (k + 1) (body s k)) (h0 : I i s) :
    I (i + n) (each body n i s) := by
  induction n generalizing i s with
  | zero => exact h0
  | succ n ih =>
    have h1 := hstep i s (Nat.le_refl _) (by omega) h0
    have hrest := ih (fun k s hk hk' => hstep k s (by omega) (by omega)) h1
    simpa only [each, show i + (n + 1) = i + 1 + n by omega] using hrest

-- Proofs about loops with a large literal count must not unroll them.
attribute [irreducible] each

end PureCOS.Loop
