import PureCOS.Lib.Proc

/-!
# Code that may panic or not end

A computation on a state ends with a result, with a panic, or is cut off because it was not given
enough rounds.  In each case it leaves a state, so that what was done can be read from it.

`wp` is what has to hold before for a given outcome.  There is one rule for each way to build a
computation.  Functions that call each other are written over a table of the functions to call, and
the table with `n` rounds calls the one with `n - 1`.
-/

namespace PureCOS

/-- How a computation ends. -/
inductive Ending (α : Type) where
  | done (a : α)
  | panic
  | pending
deriving DecidableEq

/-- A computation on states `σ` with results `α`. -/
def Code (σ α : Type) := σ → σ × Ending α

namespace Code

variable {σ α β : Type}

/-- Run `x`, then `f` on its result. -/
def bind (x : Code σ α) (f : α → Code σ β) : Code σ β := fun s =>
  match x s with
  | (s', .done a) => f a s'
  | (s', .panic) => (s', .panic)
  | (s', .pending) => (s', .pending)

instance : Monad (Code σ) where
  pure a := fun s => (s, .done a)
  bind := bind

/-- The state. -/
def get : Code σ σ := fun s => (s, .done s)

/-- Another state. -/
def modify (f : σ → σ) : Code σ Unit := fun s => (f s, .done ())

def panic : Code σ α := fun s => (s, .panic)

def pending : Code σ α := fun s => (s, .pending)

/-- Go on if the condition holds, else panic. -/
def require (c : Bool) : Code σ Unit := if c then pure () else panic

/-- A computation on a part of the state. -/
def zoom {τ : Type} (part : σ → τ) (put : τ → σ → σ) (x : Code τ α) : Code σ α := fun s =>
  match x (part s) with
  | (t, r) => (put t s, r)

theorem done_bind (a : α) (f : α → Code σ β) : (pure a >>= f) = f a := rfl

theorem bind_of_done {x : Code σ α} {f : α → Code σ β} {s s' : σ} {a : α}
    (h : x s = (s', .done a)) : (x >>= f) s = f a s' := by
  change bind x f s = f a s'
  simp only [bind, h]

theorem get_bind (f : σ → Code σ β) (s : σ) : (get >>= f) s = f s s := rfl

theorem require_bind {c : Bool} (h : c = true) (x : Code σ β) : (require c >>= fun _ => x) = x := by
  rw [h]
  rfl

/-! ## Weakest preconditions -/

section Wp

/--
After `x` holds `Q` of the result and the state, `E` of the state at a panic, and `F` of the state
when cut off.
-/
def wp (E F : σ → Prop) (x : Code σ α) (Q : α → σ → Prop) (s : σ) : Prop :=
  match x s with
  | (s', .done a) => Q a s'
  | (s', .panic) => E s'
  | (s', .pending) => F s'

variable {E F : σ → Prop} {Q Q' : α → σ → Prop} {s : σ}
variable {x : Code σ α}

/-- All three conditions may be weakened. -/
theorem wp_weaken {E' F' : σ → Prop} (h : wp E F x Q s) (hE : ∀ s', E s' → E' s')
    (hF : ∀ s', F s' → F' s') (hQ : ∀ a s', Q a s' → Q' a s') : wp E' F' x Q' s := by
  unfold wp at h ⊢
  split at h
  · exact hQ _ _ h
  · exact hE _ h
  · exact hF _ h

theorem wp_conseq {F' : σ → Prop} (h : wp E F x Q s) (hF : ∀ s', F s' → F' s')
    (hQ : ∀ a s', Q a s' → Q' a s') : wp E F' x Q' s :=
  wp_weaken h (fun _ => id) hF hQ

theorem wp_mono (h : wp E F x Q s) (hQ : ∀ a s', Q a s' → Q' a s') : wp E F x Q' s :=
  wp_weaken h (fun _ => id) (fun _ => id) hQ

/-- An assumption may be moved into the conditions. -/
theorem wp_imp {A : Prop} (h : A → wp E F x Q s) :
    wp (fun s' => A → E s') (fun s' => A → F s') x (fun a s' => A → Q a s') s := by
  unfold wp at h ⊢
  split
  next hx => exact fun hA => by simpa only [hx] using h hA
  next hx => exact fun hA => by simpa only [hx] using h hA
  next hx => exact fun hA => by simpa only [hx] using h hA

theorem eq_done {r : σ × Ending α} {a : α} (h : r.2 = .done a) : r = (r.1, .done a) := by
  rw [← h]

theorem wp_done {s' : σ} {a : α} (h : wp E F x Q s) (hx : x s = (s', .done a)) : Q a s' := by
  unfold wp at h
  rwa [hx] at h

theorem wp_panicked {s' : σ} (h : wp E F x Q s) (hx : x s = (s', .panic)) : E s' := by
  unfold wp at h
  rwa [hx] at h

theorem wp_cutOff {s' : σ} (h : wp E F x Q s) (hx : x s = (s', .pending)) : F s' := by
  unfold wp at h
  rwa [hx] at h

/-- What holds of all results and states holds if `x` returns. -/
theorem wp_any (h : ∀ a s', Q a s') : wp (fun _ => True) (fun _ => True) x Q s := by
  unfold wp
  split
  · exact h _ _
  · trivial
  · trivial

@[simp] theorem wp_pure (a : α) : wp E F (pure a) Q s ↔ Q a s := Iff.rfl

@[simp] theorem wp_bind {f : α → Code σ β} {Q : β → σ → Prop} :
    wp E F (x >>= f) Q s ↔ wp E F x (fun a s' => wp E F (f a) Q s') s := by
  show wp E F (bind x f) Q s ↔ _
  unfold wp bind
  rcases x s with ⟨s', _ | _ | _⟩ <;> rfl

@[simp] theorem wp_get {Q : σ → σ → Prop} : wp E F get Q s ↔ Q s s := Iff.rfl

@[simp] theorem wp_modify {f : σ → σ} {Q : Unit → σ → Prop} : wp E F (modify f) Q s ↔ Q () (f s) :=
  Iff.rfl

@[simp] theorem wp_require {c : Bool} {Q : Unit → σ → Prop} :
    wp E F (require c) Q s ↔ (c = true → Q () s) ∧ (c = false → E s) := by
  cases c with
  | true => exact ⟨fun h => ⟨fun _ => h, nofun⟩, fun h => h.1 rfl⟩
  | false => exact ⟨fun h => ⟨nofun, fun _ => h⟩, fun h => h.2 rfl⟩

@[simp] theorem wp_ite {c : Prop} [Decidable c] {y : Code σ α} :
    wp E F (if c then x else y) Q s ↔ (c → wp E F x Q s) ∧ (¬c → wp E F y Q s) := by
  by_cases h : c
  · rw [if_pos h]
    exact ⟨fun hx => ⟨fun _ => hx, fun hn => absurd h hn⟩, fun hx => hx.1 h⟩
  · rw [if_neg h]
    exact ⟨fun hy => ⟨fun hc => absurd hc h, fun _ => hy⟩, fun hy => hy.2 h⟩

@[simp] theorem wp_zoom {τ : Type} {part : σ → τ} {put : τ → σ → σ} {x : Code τ α} :
    wp E F (zoom part put x) Q s ↔
      wp (fun t => E (put t s)) (fun t => F (put t s)) x (fun a t => Q a (put t s)) (part s) := by
  unfold wp zoom
  rcases x (part s) with ⟨t, _ | _ | _⟩ <;> rfl

end Wp

/-! ## Relations between the states before and after -/

/--
What may have become of a state: when a computation returns, at a panic, and when it is cut off.
-/
structure Frame (σ : Type) where
  kept : σ → σ → Prop
  panicked : σ → σ → Prop
  cutOff : σ → σ → Prop
  refl : ∀ s, kept s s
  trans : ∀ {s t u}, kept s t → kept t u → kept s u
  panicked_trans : ∀ {s t u}, kept s t → panicked t u → panicked s u
  cutOff_refl : ∀ s, cutOff s s
  cutOff_trans : ∀ {s t u}, kept s t → cutOff t u → cutOff s u

/-- From every state, `x` ends within the frame, with a result that has property `P`. -/
def Respects (fr : Frame σ) (P : α → Prop) (x : Code σ α) : Prop :=
  ∀ s, wp (fr.panicked s) (fr.cutOff s) x (fun a s' => fr.kept s s' ∧ P a) s

/-- Every result is allowed. -/
def anything (_ : α) : Prop := True

/-- `x` ends within the frame, with any result. -/
abbrev Frame.Allows (fr : Frame σ) (x : Code σ α) : Prop := Respects fr anything x

namespace Respects

variable {fr : Frame σ} {P : α → Prop} {P' : β → Prop}

theorem pure {a : α} (h : P a) : Respects fr P (Pure.pure a) := fun s => ⟨fr.refl s, h⟩

theorem bind {x : Code σ α} {f : α → Code σ β} (hx : Respects fr P x)
    (hf : ∀ a, P a → Respects fr P' (f a)) : Respects fr P' (x >>= f) := by
  intro s
  rw [wp_bind]
  refine wp_mono (hx s) fun a t hkept => ?_
  exact wp_weaken (hf a hkept.2 t) (fun _ => fr.panicked_trans hkept.1)
    (fun _ => fr.cutOff_trans hkept.1) fun _ _ h => ⟨fr.trans hkept.1 h.1, h.2⟩

theorem get : fr.Allows (Code.get : Code σ σ) := fun s => ⟨fr.refl s, trivial⟩

theorem require {c : Bool} (h : c = true) : fr.Allows (Code.require c) := by
  rw [h]
  exact Respects.pure trivial

theorem pending : Respects fr P Code.pending := fun s => fr.cutOff_refl s

theorem ite {c : Prop} [Decidable c] {x y : Code σ α} (hx : c → Respects fr P x)
    (hy : ¬c → Respects fr P y) : Respects fr P (if c then x else y) := by
  split
  next hc => exact hx hc
  next hc => exact hy hc

end Respects

end Code
end PureCOS
