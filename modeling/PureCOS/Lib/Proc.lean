import Mathlib.Tactic.Common

/-!
# Computations with a state and failure

C functions that change a state and report failure by their return value.  A failing
computation keeps the state it has reached: what it did before is not undone.
-/

namespace PureCOS

universe u v

/-- A computation on states `σ` with results `α`; `none` is failure. -/
def Proc (σ : Type u) (α : Type v) := σ → σ × Option α

namespace Proc

variable {σ : Type u} {α β : Type v}

/-- Run `x`, then `f` on its result. -/
def bind (x : Proc σ α) (f : α → Proc σ β) : Proc σ β := fun s =>
  match x s with
  | (s', some a) => f a s'
  | (s', none) => (s', none)

instance : Monad (Proc σ) where
  pure a := fun s => (s, some a)
  bind := bind

/-- A sequence that succeeds has two parts that succeed. -/
theorem bind_eq_some {x : Proc σ α} {f : α → Proc σ β} {s s' : σ} {b : β}
    (h : (x >>= f) s = (s', some b)) : ∃ s₁ a, x s = (s₁, some a) ∧ f a s₁ = (s', some b) := by
  have hbind : bind x f s = (s', some b) := h
  unfold bind at hbind
  rcases hx : x s with ⟨s₁, _ | a⟩
  · rw [hx] at hbind
    cases hbind
  · rw [hx] at hbind
    exact ⟨s₁, a, rfl, hbind⟩

end Proc
end PureCOS
