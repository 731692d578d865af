import Mathlib.Algebra.BigOperators.Fin

/-!
# Tallies

The tally of a table weighs the first `n` entries and adds the weights up.  Changing one
entry changes the tally by the difference of two weights, which is all that accounting
invariants need.
-/

namespace PureCOS

universe u

variable {α : Type u} {n p b : Nat} {f : Nat → α} {g : α → Nat} {v : α}

/-- The weights of the first `n` entries; irreducible, since tables can be long. -/
@[irreducible] def tally (n : Nat) (f : Nat → α) (g : α → Nat) : Nat :=
  ∑ x ∈ Finset.range n, g (f x)

theorem tally_update (hp : p < n) :
    tally n (Function.update f p v) g + g (f p) = tally n f g + g v := by
  have hmem : p ∈ Finset.range n := Finset.mem_range.2 hp
  have hcomp : (fun x => g (Function.update f p v x)) =
      Function.update (fun x => g (f x)) p (g v) := by
    funext x
    by_cases hx : x = p
    · subst x
      simp
    · simp [hx]
  have hsplit := Finset.add_sum_erase _ (fun x => g (f x)) hmem
  simp only [tally, hcomp, Finset.sum_update_of_mem hmem, Finset.sdiff_singleton_eq_erase]
  omega

theorem tally_succ (n : Nat) (f : Nat → α) (g : α → Nat) :
    tally (n + 1) f g = tally n f g + g (f n) := by
  rw [tally, tally, Finset.sum_range_succ]

/-- Counting entries is a tally. -/
theorem countP_range_eq_tally (n : Nat) (f : Nat → α) (q : α → Bool) :
    (List.range n).countP (fun x => q (f x)) = tally n f fun a => (q a).toNat := by
  rw [tally]
  induction n with
  | zero => rfl
  | succ n ih =>
    rw [List.range_succ, List.countP_append, ih, Finset.sum_range_succ]
    cases hq : q (f n) <;> simp [hq]

theorem tally_eq_zero : tally n f g = 0 ↔ ∀ p < n, g (f p) = 0 := by
  simp [tally]

end PureCOS
