import Mathlib.Tactic.Common

/-!
# Linked lists in memory

A memory holds cells at addresses, and every cell has the address of the next one.  Address 0 is
no cell.  `Linked m p xs q` says that from `p` on the cells `xs` follow one another, and that the
last of them points to `q`.
-/

namespace PureCOS

open List

universe u v

/-- How cells lie in a memory. -/
structure Cells (M : Type u) (α : Type v) where
  addr : α → Nat
  holds : M → α → Prop
  next : M → Nat → Nat

namespace Cells

variable {M : Type u} {α : Type v} (cells : Cells M α) {m m' : M} {p q r : Nat} {x : α}
  {xs ys : List α}

/-- The cells `xs` from `p` on; the last one points to `q`. -/
def Linked (m : M) : Nat → List α → Nat → Prop
  | p, [], q => p = q
  | p, x :: xs, q => p = cells.addr x ∧ p ≠ 0 ∧ cells.holds m x ∧ Linked m (cells.next m p) xs q

variable {cells}

theorem linked_cons :
    cells.Linked m p (x :: xs) q ↔
      p = cells.addr x ∧ p ≠ 0 ∧ cells.holds m x ∧ cells.Linked m (cells.next m p) xs q :=
  Iff.rfl

theorem linked_append :
    cells.Linked m p (xs ++ ys) q ↔ ∃ r, cells.Linked m p xs r ∧ cells.Linked m r ys q := by
  induction xs generalizing p with
  | nil =>
    constructor
    · exact fun h => ⟨p, rfl, h⟩
    · rintro ⟨r, rfl, h⟩
      exact h
  | cons x xs ih =>
    rw [cons_append, linked_cons, ih]
    constructor
    · rintro ⟨h₁, h₂, h₃, r, h₄, h₅⟩
      exact ⟨r, ⟨h₁, h₂, h₃, h₄⟩, h₅⟩
    · rintro ⟨r, ⟨h₁, h₂, h₃, h₄⟩, h₅⟩
      exact ⟨h₁, h₂, h₃, r, h₄, h₅⟩

/-- A memory in which the cells and their links are the same. -/
theorem Linked.congr (h : cells.Linked m p xs q)
    (hsame : ∀ x ∈ xs, (cells.holds m x → cells.holds m' x) ∧
      cells.next m' (cells.addr x) = cells.next m (cells.addr x)) :
    cells.Linked m' p xs q := by
  induction xs generalizing p with
  | nil => exact h
  | cons x xs ih =>
    obtain ⟨rfl, hne, hholds, hrest⟩ := h
    obtain ⟨hx, hnext⟩ := hsame x mem_cons_self
    refine ⟨rfl, hne, hx hholds, ?_⟩
    rw [hnext]
    exact ih hrest fun y hy => hsame y (mem_cons_of_mem _ hy)

/-- The link of the last cell changes. -/
theorem Linked.relink (h : cells.Linked m p (xs ++ [x]) q)
    (hxs : ∀ y ∈ xs, (cells.holds m y → cells.holds m' y) ∧
      cells.next m' (cells.addr y) = cells.next m (cells.addr y))
    (hx : cells.holds m x → cells.holds m' x) (hnext : cells.next m' (cells.addr x) = r) :
    cells.Linked m' p (xs ++ [x]) r := by
  obtain ⟨p', hfirst, rfl, hne, hholds, -⟩ := linked_append.mp h
  exact linked_append.mpr ⟨_, hfirst.congr hxs, rfl, hne, hx hholds, hnext⟩

theorem Linked.addr_ne_zero (h : cells.Linked m p xs q) (hx : x ∈ xs) : cells.addr x ≠ 0 := by
  induction xs generalizing p with
  | nil => cases hx
  | cons y ys ih =>
    obtain ⟨hp, hne, -, hrest⟩ := h
    rcases mem_cons.mp hx with rfl | hx
    · exact hp ▸ hne
    · exact ih hrest hx

theorem Linked.holds_of_mem (h : cells.Linked m p xs q) (hx : x ∈ xs) : cells.holds m x := by
  induction xs generalizing p with
  | nil => cases hx
  | cons y ys ih =>
    obtain ⟨-, -, hholds, hrest⟩ := h
    rcases mem_cons.mp hx with rfl | hx
    · exact hholds
    · exact ih hrest hx

/-- A list that starts at 0 is empty. -/
theorem Linked.eq_nil (h : cells.Linked m 0 xs q) : xs = [] := by
  cases xs with
  | nil => rfl
  | cons x xs => exact absurd rfl h.2.1

/-- Cells that are held at their addresses make one list. -/
theorem Linked.unique
    (hcell : ∀ x y, cells.holds m x → cells.holds m y → cells.addr x = cells.addr y → x = y)
    (hx : cells.Linked m p xs 0) (hy : cells.Linked m p ys 0) : xs = ys := by
  induction xs generalizing p ys with
  | nil =>
    cases hx
    exact hy.eq_nil.symm
  | cons x xs ih =>
    obtain ⟨rfl, hne, hholds, hrest⟩ := hx
    cases ys with
    | nil => exact absurd hy hne
    | cons y ys =>
      obtain ⟨haddr, -, hholds', hrest'⟩ := hy
      rw [hcell x y hholds hholds' haddr, ih hrest hrest']

end Cells
end PureCOS
