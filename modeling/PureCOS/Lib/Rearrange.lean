import Mathlib.Data.List.Nodup
import Mathlib.Logic.Equiv.Basic

/-!
# Sorting a sequence range by range

A sequence is a function of the position.  `Rearranged lo hi a b` says that `b` has the elements
of `a`, moved only between positions `lo` to `hi`.

`SortedApart` is the invariant of a sorting procedure that keeps a list of ranges still to do:
every two positions that are not in one of these ranges are in order.  With no range left the
sequence is sorted; `SortedApart.refine` replaces one range by smaller ones.
-/

namespace PureCOS.Rearrange

open List Equiv

universe u

variable {α : Type u} {a b c : Nat → α} {lo hi : Nat}

/-- The elements of `a`, moved between the positions `lo` to `hi`. -/
def Rearranged (lo hi : Nat) (a b : Nat → α) : Prop :=
  ∃ σ : Equiv.Perm Nat, (∀ k, k < lo ∨ hi < k → σ k = k) ∧ ∀ k, b k = a (σ k)

namespace Rearranged

theorem refl (lo hi : Nat) (a : Nat → α) : Rearranged lo hi a a :=
  ⟨Equiv.refl Nat, fun _ _ => rfl, fun _ => rfl⟩

theorem trans (h₁ : Rearranged lo hi a b) (h₂ : Rearranged lo hi b c) : Rearranged lo hi a c := by
  obtain ⟨σ, hσ, hb⟩ := h₁
  obtain ⟨τ, hτ, hc⟩ := h₂
  refine ⟨τ.trans σ, fun k hk => ?_, fun k => ?_⟩
  · rw [trans_apply, hτ k hk, hσ k hk]
  · rw [hc k, hb, trans_apply]

theorem mono {lo' hi' : Nat} (h : Rearranged lo hi a b) (hlo : lo' ≤ lo) (hhi : hi ≤ hi') :
    Rearranged lo' hi' a b := by
  obtain ⟨σ, hσ, hb⟩ := h
  exact ⟨σ, fun k hk => hσ k (by omega), hb⟩

/-- Two elements change places. -/
theorem swap {i j : Nat} (hi₁ : lo ≤ i) (hi₂ : i ≤ hi) (hj₁ : lo ≤ j) (hj₂ : j ≤ hi)
    (h : ∀ k, b k = a (Equiv.swap i j k)) : Rearranged lo hi a b :=
  ⟨Equiv.swap i j, fun k hk => Equiv.swap_apply_of_ne_of_ne (by omega) (by omega), h⟩

theorem outside (h : Rearranged lo hi a b) {k : Nat} (hk : k < lo ∨ hi < k) : b k = a k := by
  obtain ⟨σ, hσ, hb⟩ := h
  rw [hb, hσ k hk]

/-- What stands in the range has stood in the range. -/
theorem inside (h : Rearranged lo hi a b) {k : Nat} (h₁ : lo ≤ k) (h₂ : k ≤ hi) :
    ∃ k', lo ≤ k' ∧ k' ≤ hi ∧ b k = a k' := by
  obtain ⟨σ, hσ, hb⟩ := h
  have hin : lo ≤ σ k ∧ σ k ≤ hi := by
    by_contra hout
    have hfix : σ (σ k) = σ k := hσ (σ k) (by omega)
    have hk := σ.injective hfix
    omega
  exact ⟨σ k, hin.1, hin.2, hb k⟩

/-- The elements are the same. -/
theorem perm (h : Rearranged lo hi a b) {n : Nat} (hn : hi < n) :
    ((range n).map b).Perm ((range n).map a) := by
  obtain ⟨σ, hσ, hb⟩ := h
  have hlt : ∀ k, σ k < n ↔ k < n := by
    intro k
    constructor
    · intro hk
      by_contra hge
      rw [hσ k (by omega)] at hk
      exact hge hk
    intro hk
    by_contra hge
    have hfix : σ (σ k) = σ k := hσ (σ k) (by omega)
    have heq := σ.injective hfix
    omega
  have hσn : ((range n).map σ).Perm (range n) := by
    refine (perm_ext_iff_of_nodup (List.Nodup.map σ.injective nodup_range) nodup_range).mpr ?_
    intro k
    simp only [mem_map, mem_range]
    constructor
    · rintro ⟨j, hj, rfl⟩
      exact (hlt j).mpr hj
    · intro hk
      exact ⟨σ.symm k, (hlt _).mp (by rwa [apply_symm_apply]), σ.apply_symm_apply k⟩
  have hmap : (range n).map b = ((range n).map σ).map a := by
    rw [map_map]
    exact map_congr_left fun k _ => hb k
  rw [hmap]
  exact hσn.map a

end Rearranged

/-! ## Ranges still to be sorted -/

/-- Both positions are in one of the ranges. -/
def Together (ranges : List (Nat × Nat)) (i j : Nat) : Prop := ∃ r ∈ ranges, r.1 ≤ i ∧ j ≤ r.2

/-- Positions that are not in one of the ranges are in order. -/
def SortedApart (le : α → α → Prop) (n : Nat) (ranges : List (Nat × Nat)) (a : Nat → α) : Prop :=
  ∀ i j, i < j → j < n → Together ranges i j ∨ le (a i) (a j)

/-- The range shares no position with these. -/
def Clear (r : Nat × Nat) (ranges : List (Nat × Nat)) : Prop := ∀ q ∈ ranges, q.2 < r.1 ∨ r.2 < q.1

/-- Ranges of positions below `n`, no two of which share one. -/
structure Ranges (n : Nat) (ranges : List (Nat × Nat)) : Prop where
  valid : ∀ r ∈ ranges, r.1 ≤ r.2 ∧ r.2 < n
  apart : ranges.Pairwise fun r q => q.2 < r.1 ∨ r.2 < q.1

section Ranges

variable {le : α → α → Prop} {n : Nat} {ranges : List (Nat × Nat)} {r : Nat × Nat}

theorem Ranges.tail (h : Ranges n (r :: ranges)) : Ranges n ranges :=
  ⟨fun q hq => h.valid q (mem_cons_of_mem _ hq), h.apart.of_cons⟩

theorem Ranges.clear (h : Ranges n (r :: ranges)) : Clear r ranges := fun _ hq =>
  rel_of_pairwise_cons h.apart hq

/-- The order in which the ranges are listed does not matter. -/
theorem Ranges.perm {ranges' : List (Nat × Nat)} (h : Ranges n ranges) (hp : ranges.Perm ranges') :
    Ranges n ranges' :=
  ⟨fun q hq => h.valid q (hp.mem_iff.mpr hq), hp.pairwise h.apart Or.symm⟩

/-- A range that shares no position with the others. -/
theorem Ranges.push {q : Nat × Nat} (h : Ranges n ranges) (hq : q.1 ≤ q.2) (hn : q.2 < n)
    (hclear : Clear q ranges) : Ranges n (q :: ranges) :=
  ⟨forall_mem_cons.mpr ⟨⟨hq, hn⟩, h.valid⟩, pairwise_cons.mpr ⟨hclear, h.apart⟩⟩

theorem Clear.within {q : Nat × Nat} (h : Clear r ranges) (h₁ : r.1 ≤ q.1) (h₂ : q.2 ≤ r.2) :
    Clear q ranges := by
  intro p hp
  have := h p hp
  omega

/-- With one range left for all, everything is to do. -/
theorem SortedApart.start (h : ∀ k < n, k ≤ hi) : SortedApart le n [(0, hi)] a := fun i j _ hj =>
  .inl ⟨(0, hi), mem_singleton_self _, Nat.zero_le i, h j hj⟩

/-- With no range left, nothing is. -/
theorem SortedApart.sorted (h : SortedApart le n [] a) : ((range n).map a).Pairwise le := by
  rw [pairwise_map]
  refine pairwise_lt_range.imp_of_mem ?_
  intro i j _ hj hij
  rcases h i j hij (mem_range.mp hj) with ⟨r, hr, -⟩ | hle
  · cases hr
  · exact hle

/--
A range is rearranged and replaced by others: it is enough that two of its positions that are
not in one of the new ranges are in order.
-/
theorem SortedApart.refine {news : List (Nat × Nat)} (h : SortedApart le n (r :: ranges) a)
    (hr : Ranges n (r :: ranges)) (hmove : Rearranged r.1 r.2 a b)
    (hnew : ∀ i j, r.1 ≤ i → i < j → j ≤ r.2 → Together news i j ∨ le (b i) (b j)) :
    SortedApart le n (news ++ ranges) b := by
  have hclear := hr.clear
  -- positions of which one at most is in the range were in order and have kept their elements
  have hcross : ∀ i j, i < j → j < n → (i < r.1 ∨ r.2 < j) → Together ranges i j ∨
      le (a i) (a j) := by
    intro i j hij hj hout
    rcases h i j hij hj with ⟨q, hq, hq₁, hq₂⟩ | hle
    · rcases mem_cons.mp hq with rfl | hq
      · omega
      · exact .inl ⟨q, hq, hq₁, hq₂⟩
    · exact .inr hle
  have hrest : ∀ {i j}, Together ranges i j → Together (news ++ ranges) i j :=
    fun ⟨q, hq, hin⟩ => ⟨q, mem_append_right _ hq, hin⟩
  have hvalid := hr.valid r mem_cons_self
  intro i j hij hj
  by_cases hi : i < r.1
  · by_cases hjin : r.1 ≤ j ∧ j ≤ r.2
    · obtain ⟨j', h₁, h₂, hj'⟩ := hmove.inside hjin.1 hjin.2
      rcases hcross i j' (by omega) (by omega) (.inl hi) with ⟨q, hq, hq₁, hq₂⟩ | hle
      · have := hclear q hq
        omega
      · rw [hmove.outside (.inl hi), hj']
        exact .inr hle
    · rw [hmove.outside (.inl hi), hmove.outside (by omega)]
      exact (hcross i j hij hj (.inl hi)).imp_left hrest
  by_cases hjout : r.2 < j
  · by_cases hiin : i ≤ r.2
    · obtain ⟨i', h₁, h₂, hi'⟩ := hmove.inside (Nat.le_of_not_lt hi) hiin
      rcases hcross i' j (by omega) hj (.inr hjout) with ⟨q, hq, hq₁, hq₂⟩ | hle
      · have := hclear q hq
        omega
      · rw [hmove.outside (.inr hjout), hi']
        exact .inr hle
    · rw [hmove.outside (.inr hjout), hmove.outside (by omega)]
      exact (hcross i j hij hj (.inr hjout)).imp_left hrest
  · rcases hnew i j (by omega) hij (by omega) with ⟨q, hq, hin⟩ | hle
    · exact .inl ⟨q, mem_append_left _ hq, hin⟩
    · exact .inr hle

end Ranges

/-! ## Positions in order -/

/-- The elements at `lo` to `hi` are in order. -/
def SortedOn (le : α → α → Prop) (lo hi : Nat) (a : Nat → α) : Prop :=
  ∀ i j, lo ≤ i → i < j → j ≤ hi → le (a i) (a j)

/-- The same, but the element at `p` has not been compared with those before it. -/
def SortedBut (le : α → α → Prop) (p lo hi : Nat) (a : Nat → α) : Prop :=
  ∀ i j, lo ≤ i → i < j → j ≤ hi → j ≠ p → le (a i) (a j)

section Insertion

variable {le : α → α → Prop} {p : Nat}

theorem SortedOn.extend (h : SortedOn le lo hi a) : SortedBut le (hi + 1) lo (hi + 1) a :=
  fun i j hi hij hj hne => h i j hi hij (by omega)

theorem SortedBut.first (h : SortedBut le lo lo hi a) : SortedOn le lo hi a :=
  fun i j hi hij hj => h i j hi hij hj (by omega)

/-- The element is not smaller than the one before it. -/
theorem SortedBut.stop
    (htrans : ∀ i j k, i ≤ hi → j ≤ hi → k ≤ hi → le (a i) (a j) → le (a j) (a k) → le (a i) (a k))
    (h : SortedBut le (p + 1) lo hi a) (hhi : p + 1 ≤ hi) (hp : le (a p) (a (p + 1))) :
    SortedOn le lo hi a := by
  intro i j hi hij hj
  by_cases hjp : j = p + 1
  · subst hjp
    by_cases hip : i = p
    · rw [hip]
      exact hp
    · exact htrans i p (p + 1) (by omega) (by omega) hhi
        (h i p hi (by omega) (by omega) (by omega)) hp
  · exact h i j hi hij hj hjp

/-- The element changes places with a larger one before it. -/
theorem SortedBut.sink (h : SortedBut le (p + 1) lo hi a) (hlo : lo ≤ p) (hhi : p + 1 ≤ hi)
    (hp : le (a (p + 1)) (a p)) (hb : ∀ k, b k = a (swap p (p + 1) k)) :
    SortedBut le p lo hi b := by
  have hbp : b p = a (p + 1) := by rw [hb, swap_apply_left]
  have hbq : b (p + 1) = a p := by rw [hb, swap_apply_right]
  have hbk : ∀ k, k ≠ p → k ≠ p + 1 → b k = a k := fun k h₁ h₂ => by
    rw [hb, swap_apply_of_ne_of_ne h₁ h₂]
  intro i j hi hij hj hne
  by_cases hjq : j = p + 1
  · subst hjq
    rw [hbq]
    by_cases hip : i = p
    · rw [hip, hbp]
      exact hp
    · rw [hbk i hip (by omega)]
      exact h i p hi (by omega) (by omega) (by omega)
  rw [hbk j hne hjq]
  by_cases hip : i = p
  · rw [hip, hbp]
    exact h (p + 1) j (by omega) (by omega) hj hjq
  by_cases hiq : i = p + 1
  · rw [hiq, hbq]
    exact h p j hlo (by omega) hj hjq
  · rw [hbk i hip hiq]
    exact h i j hi hij hj hjq

end Insertion

end PureCOS.Rearrange
