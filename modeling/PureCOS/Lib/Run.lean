import Mathlib.Tactic.Common

/-!
# Runs of a state machine

A state machine takes one event at a time and may show something to the outside with each.
A run is any sequence of events; its trace is all it showed, in order.

`run_induction` carries a relation between the trace so far and the state over a whole
run, `run_induction_of` the same for runs all of whose steps meet a condition, and
`run_simulation_of` compares two runs of the same events.
-/

namespace PureCOS.Run

open List

universe u v w

variable {σ : Type u} {ε : Type v} {ω : Type w}

/-- The state after a run and what the run showed. -/
def run (step : σ → ε → σ × List ω) : σ → List ε → σ × List ω
  | s, [] => (s, [])
  | s, e :: es => ((run step (step s e).1 es).1, (step s e).2 ++ (run step (step s e).1 es).2)

/-- Every step of the run meets the condition in the state in which it is made. -/
def Along (step : σ → ε → σ × List ω) (ok : σ → ε → Prop) : σ → List ε → Prop
  | _, [] => True
  | s, e :: es => ok s e ∧ Along step ok (step s e).1 es

theorem along_and {step : σ → ε → σ × List ω} {ok ok' : σ → ε → Prop} {s : σ} {es : List ε}
    (h : Along step ok s es) (h' : Along step ok' s es) :
    Along step (fun s e => ok s e ∧ ok' s e) s es := by
  induction es generalizing s with
  | nil => trivial
  | cons e es ih => exact ⟨⟨h.1, h'.1⟩, ih h.2 h'.2⟩

instance decidableAlong (step : σ → ε → σ × List ω) (ok : σ → ε → Prop)
    [∀ s e, Decidable (ok s e)] : (s : σ) → (es : List ε) → Decidable (Along step ok s es)
  | _, [] => isTrue trivial
  | s, e :: es =>
    have := decidableAlong step ok (step s e).1 es
    inferInstanceAs (Decidable (ok s e ∧ Along step ok (step s e).1 es))

theorem run_append (step : σ → ε → σ × List ω) (s : σ) (es fs : List ε) :
    run step s (es ++ fs) = ((run step (run step s es).1 fs).1,
      (run step s es).2 ++ (run step (run step s es).1 fs).2) := by
  induction es generalizing s with
  | nil => rfl
  | cons e es ih => simp only [cons_append, run, ih, append_assoc]

theorem along_append {step : σ → ε → σ × List ω} {ok : σ → ε → Prop} {s : σ} {es fs : List ε} :
    Along step ok s (es ++ fs) ↔ Along step ok s es ∧ Along step ok (run step s es).1 fs := by
  induction es generalizing s with
  | nil => exact ⟨fun h => ⟨trivial, h⟩, And.right⟩
  | cons e es ih =>
    show ok s e ∧ Along step ok (step s e).1 (es ++ fs) ↔ _
    rw [ih]
    exact and_assoc.symm

/-- What holds between trace and state at the start and is kept by a step holds after every run. -/
theorem run_induction (step : σ → ε → σ × List ω) (I : List ω → σ → Prop)
    (hstep : ∀ trace s e, I trace s → I (trace ++ (step s e).2) (step s e).1) {s : σ} (h₀ : I [] s)
    (es : List ε) : I (run step s es).2 (run step s es).1 := by
  suffices hgen : ∀ trace s, I trace s → I (trace ++ (run step s es).2) (run step s es).1 from
    hgen [] s h₀
  induction es with
  | nil =>
    intro trace s h
    simpa [run] using h
  | cons e es ih =>
    intro trace s h
    have hrest := ih _ _ (hstep trace s e h)
    simpa only [run, append_assoc] using hrest

/-- The same for runs whose steps meet a condition. -/
theorem run_induction_of (step : σ → ε → σ × List ω) (ok : σ → ε → Prop) (I : List ω → σ → Prop)
    (hstep : ∀ trace s e, ok s e → I trace s → I (trace ++ (step s e).2) (step s e).1)
    {s : σ} (h₀ : I [] s) {es : List ε} (hok : Along step ok s es) :
    I (run step s es).2 (run step s es).1 := by
  suffices hgen : ∀ trace s, Along step ok s es → I trace s →
      I (trace ++ (run step s es).2) (run step s es).1 from hgen [] s hok h₀
  clear hok h₀ s
  induction es with
  | nil =>
    intro trace s _ h
    simpa [run] using h
  | cons e es ih =>
    intro trace s hok h
    have hrest := ih _ _ hok.2 (hstep trace s e hok.1 h)
    simpa only [run, append_assoc] using hrest

/-- Where an invariant holds from the start, every step is as the invariant says. -/
theorem along_induction_of (step : σ → ε → σ × List ω) (ok good : σ → ε → Prop) (I : σ → Prop)
    (hstep : ∀ s e, ok s e → I s → good s e ∧ I (step s e).1)
    {s : σ} (h₀ : I s) {es : List ε} (hok : Along step ok s es) : Along step good s es := by
  induction es generalizing s with
  | nil => trivial
  | cons e es ih =>
    obtain ⟨hgood, hnext⟩ := hstep s e hok.1 h₀
    exact ⟨hgood, ih hnext hok.2⟩

/--
A machine that follows another one, as long as the steps of the other one meet a condition, shows
the same.
-/
theorem run_simulation_of {σ' : Type*} (step : σ → ε → σ × List ω) (step' : σ' → ε → σ' × List ω)
    (ok : σ' → ε → Prop) (R : σ → σ' → Prop) (hstep : ∀ s s' e, ok s' e → R s s' →
      R (step s e).1 (step' s' e).1 ∧ (step s e).2 = (step' s' e).2) {s : σ} {s' : σ'} (h : R s s')
    {es : List ε} (hok : Along step' ok s' es) :
    R (run step s es).1 (run step' s' es).1 ∧ (run step s es).2 = (run step' s' es).2 := by
  induction es generalizing s s' with
  | nil => exact ⟨h, rfl⟩
  | cons e es ih =>
    obtain ⟨hnext, hshown⟩ := hstep s s' e hok.1 h
    obtain ⟨hlast, hrest⟩ := ih hnext hok.2
    refine ⟨hlast, ?_⟩
    rw [run, run, hshown, hrest]

end PureCOS.Run
