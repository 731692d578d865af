import Mathlib.Logic.Relation

/-!
# Loops that need not end

A `while` loop over a state: each round goes on in a new state or leaves with a result.
`run step n` gives the loop `n` rounds; it has no result if these are not enough.

A rank that falls in every round the loop reaches bounds the rounds that are needed; an
invariant that keeps the loop going, such as a way back to the start, shows that no number
of rounds is enough.
-/

namespace PureCOS.While

universe u v

/-- What one round does. -/
inductive Round (σ : Type u) (α : Type v) where
  | next (s : σ)
  | leave (a : α)

variable {σ : Type u} {α : Type v}

/-- The result of the loop, if it leaves within `n` rounds. -/
def run (step : σ → Round σ α) : Nat → σ → Option α
  | 0, _ => none
  | n + 1, s =>
    match step s with
    | .next s' => run step n s'
    | .leave a => some a

variable {step : σ → Round σ α} {s s' : σ} {a : α} {n m : Nat}

theorem run_next (h : step s = .next s') : run step (n + 1) s = run step n s' := by
  rw [run, h]

theorem run_leave (h : step s = .leave a) : run step (n + 1) s = some a := by
  rw [run, h]

/-- The states to which rounds lead from a state. -/
def Reaches (step : σ → Round σ α) : σ → σ → Prop :=
  Relation.ReflTransGen fun s s' => step s = .next s'

/-- A loop ends when a rank falls in every round. -/
theorem run_of_rank (I : σ → Prop) (rank : σ → Nat)
    (hstep : ∀ s s', I s → step s = .next s' → I s' ∧ rank s' < rank s)
    (h : I s)
    (hn : rank s < n) :
    ∃ a, run step n s = some a := by
  induction n generalizing s with
  | zero => omega
  | succ n ih =>
    cases hs : step s with
    | next s' =>
      obtain ⟨hs', hlt⟩ := hstep s s' h hs
      rw [run_next hs]
      exact ih hs' (by omega)
    | leave a => exact ⟨a, run_leave hs⟩

/-- A loop that an invariant keeps going never ends. -/
theorem run_eq_none (I : σ → Prop) (hstep : ∀ s, I s → ∃ s', step s = .next s' ∧ I s') (h : I s) :
    run step n s = none := by
  induction n generalizing s with
  | zero => rfl
  | succ n ih =>
    obtain ⟨s', hs, hs'⟩ := hstep s h
    rw [run_next hs]
    exact ih hs'

/-- A loop that comes back to its start never ends. -/
theorem run_eq_none_of_back (h : Reaches step s s') (hback : step s' = .next s) :
    run step n s = none := by
  -- on the way round, the state before the return is always ahead
  refine run_eq_none (fun t => Reaches step t s') (fun t ht => ?_) h
  rcases Relation.ReflTransGen.cases_head ht with rfl | ⟨t', hnext, hrest⟩
  · exact ⟨s, hback, h⟩
  · exact ⟨t', hnext, hrest⟩

/-- Rounds of two loops that make the same choice: go on in one state, or leave. -/
inductive Round.Rel {β : Type v} (I : σ → Prop) (R : α → β → Prop) : Round σ α → Round σ β → Prop
  | next {s : σ} (h : I s) : Rel I R (.next s) (.next s)
  | leave {a : α} {b : β} (h : R a b) : Rel I R (.leave a) (.leave b)

section Rel

variable {β : Type v} {I I' : σ → Prop} {R : α → β → Prop}

theorem Round.Rel.of_next {r : Round σ α} {r' : Round σ β} (h : r.Rel I R r')
    (hI : ∀ s, r = .next s → I' s) : r.Rel I' R r' := by
  cases h with
  | next _ => exact .next (hI _ rfl)
  | leave h => exact .leave h

/-- Two loops that go through the same states and leave with related results. -/
theorem run_rel {step' : σ → Round σ β} (hstep : ∀ s, I s → (step s).Rel I R (step' s)) (h : I s) :
    Option.Rel R (run step n s) (run step' n s) := by
  induction n generalizing s with
  | zero => exact .none
  | succ n ih =>
    have hround := hstep s h
    rw [run, run]
    generalize step s = r at hround ⊢
    generalize step' s = r' at hround ⊢
    cases hround with
    | next h => exact ih h
    | leave h => exact .some h

end Rel

end PureCOS.While
