import PureCOS.Mm.Pmm

/-!
# Runs of frames

`pmm_allocate_contiguous` and `pmm_free_contiguous`.
-/

namespace PureCOS.Mm

open List

/-- Frame `g` is one of the `n` frames from `f` on. -/
def InRun (f n g : Nat) : Prop := f ≤ g ∧ g < f + n

instance (f n g : Nat) : Decidable (InRun f n g) := inferInstanceAs (Decidable (_ ∧ _))

/-- The first used frame among the `n` frames from `f` on, as an offset. -/
def firstUsed (used : Nat → Bool) (f n : Nat) : Option Nat :=
  (range n).find? fun off => used (f + off)

/-- One pass of `pmm_allocate_contiguous_locked`; every round moves on by a frame at least. -/
def scanRun (used : Nat → Bool) (n stop : Nat) : Nat → Nat → Option Nat
  | 0, _ => none
  | rounds + 1, f =>
    if f + n ≤ stop then
      match firstUsed used f n with
      | none => some f
      | some off => scanRun used n stop rounds (f + off + 1)
    else
      none

/-- The bookkeeping for a run that has been found, and the clearing of its pages. -/
def Pmm.takeRun (p : Pmm) (f n : Nat) : Pmm :=
  { p with
    mem := fun g => if InRun f n g then fun _ => 0 else p.mem g
    used := fun g => if InRun f n g then true else p.used g
    freeFrames := p.freeFrames - n
    allocationCursor := f + n }

def pmmAllocateContiguous (p : Pmm) (n : Nat) : Pmm × Option Nat :=
  if !p.ready || p.freeFrames == 0 || n == 0 then
    (p, none)
  else if n = 1 then
    pmmAllocatePage p
  else if p.freeFrames < n then
    (p, none)
  else
    match scanRun p.used n p.frameLimit (p.frameLimit - p.allocationCursor) p.allocationCursor with
    | some f => (p.takeRun f n, some f)
    | none =>
      match scanRun p.used n p.allocationCursor (p.allocationCursor - 1) 1 with
      | some f => (p.takeRun f n, some f)
      | none => (p, none)

/-- One round of `pmm_free_contiguous_locked` -/
def Pmm.clear (p : Pmm) (f : Nat) : Pmm :=
  if p.used f then
    { p with
      used := fun g => if g = f then false else p.used g
      freeFrames := p.freeFrames + 1
      allocationCursor := if f < p.allocationCursor then f else p.allocationCursor }
  else
    p

def pmmFreeContiguous (p : Pmm) (f n : Nat) : Pmm :=
  if n == 0 || f == 0 || decide (p.frameLimit ≤ f) || decide (p.frameLimit - f < n) then
    p
  else
    (range n).foldl (fun p off => p.clear (f + off)) p

section Calls

variable {p p' : Pmm} {f n : Nat}

theorem firstUsed_none {used : Nat → Bool} (h : firstUsed used f n = none) {g : Nat}
    (hg : InRun f n g) : used g = false := by
  have hno := find?_eq_none.mp h (g - f) (mem_range.mpr (by unfold InRun at hg; omega))
  have hsum : f + (g - f) = g := by
    unfold InRun at hg
    omega
  simpa [hsum] using hno

theorem scanRun_unused {used : Nat → Bool} {stop rounds start : Nat}
    (h : scanRun used n stop rounds start = some f) {g : Nat} (hg : InRun f n g) :
    used g = false := by
  induction rounds generalizing start with
  | zero => cases h
  | succ rounds ih =>
    unfold scanRun at h
    split at h
    · split at h
      next hnone =>
        cases h
        exact firstUsed_none hnone hg
      · exact ih h
    · cases h

theorem takeRun_one (p : Pmm) (f : Nat) : p.takeRun f 1 = p.take f := by
  have hrun : ∀ g, InRun f 1 g ↔ g = f := by
    intro g
    unfold InRun
    omega
  simp only [Pmm.takeRun, Pmm.take, hrun]
  rfl

/-- A successful call takes frames whose bits were clear. -/
theorem pmmAllocateContiguous_some (h : pmmAllocateContiguous p n = (p', some f)) :
    n ≠ 0 ∧ (∀ g, InRun f n g → p.used g = false) ∧ p' = p.takeRun f n := by
  unfold pmmAllocateContiguous at h
  split at h
  · cases h
  next hready =>
  have hn : n ≠ 0 := by
    rintro rfl
    simp at hready
  refine ⟨hn, ?_⟩
  split at h
  next hone =>
    subst hone
    obtain ⟨hused, hp⟩ := pmmAllocatePage_some h
    refine ⟨?_, by rw [hp, takeRun_one]⟩
    intro g hg
    have hgf : g = f := by
      unfold InRun at hg
      omega
    rw [hgf, hused]
  · split at h
    · cases h
    split at h
    next hscan =>
      cases h
      exact ⟨fun g hg => scanRun_unused hscan hg, rfl⟩
    · split at h
      next hscan =>
        cases h
        exact ⟨fun g hg => scanRun_unused hscan hg, rfl⟩
      · cases h

theorem pmmAllocateContiguous_none (h : pmmAllocateContiguous p n = (p', none)) : p' = p := by
  unfold pmmAllocateContiguous at h
  split at h
  · exact (Prod.mk.inj h).1.symm
  split at h
  · exact pmmAllocatePage_none h
  split at h
  · exact (Prod.mk.inj h).1.symm
  split at h
  · cases h
  · split at h
    · cases h
    · exact (Prod.mk.inj h).1.symm

/-- What the rounds of `pmm_free_contiguous_locked` leave. -/
theorem clearRun_spec (p : Pmm) (f n : Nat) :
    let q := (range n).foldl (fun p off => p.clear (f + off)) p
    q.mem = p.mem ∧ q.refs = p.refs ∧ q.refsReady = p.refsReady ∧ q.frameLimit = p.frameLimit ∧
      ∀ g, q.used g = if InRun f n g then false else p.used g := by
  induction n with
  | zero =>
    refine ⟨rfl, rfl, rfl, rfl, fun g => ?_⟩
    rw [if_neg (by unfold InRun; omega)]
    rfl
  | succ n ih =>
    simp only [range_succ, foldl_append, foldl_cons, foldl_nil]
    generalize (range n).foldl (fun p off => p.clear (f + off)) p = q at ih
    obtain ⟨hmem, hrefs, hready, hlimit, hused⟩ := ih
    have hrun : ∀ g, InRun f (n + 1) g ↔ InRun f n g ∨ g = f + n := by
      intro g
      unfold InRun
      omega
    unfold Pmm.clear
    split
    next hin =>
      refine ⟨hmem, hrefs, hready, hlimit, fun g => ?_⟩
      by_cases hg : g = f + n
      · simp [hrun, hg]
      · simp [hrun, hg, hused]
    next hout =>
    refine ⟨hmem, hrefs, hready, hlimit, fun g => ?_⟩
    by_cases hg : g = f + n
    · subst hg
      simpa [hrun] using hout
    · simp [hrun, hg, hused]

end Calls

end PureCOS.Mm
