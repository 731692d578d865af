import Mathlib.Tactic.Common

/-!
# The physical frame allocator

`mm/pmm.c`: a bitmap with one bit per 4 KiB frame, a table of reference counts
for shared frames, and an allocation cursor.  Physical memory itself is part of
the state, because the allocator clears every page it hands out.

A frame is named by its number; the C code passes the address `frame * 4096`
around, and returns address `0` for failure, which is `none` here.

`Owned` says that the allocator's books agree with a count of the references the
rest of the kernel holds.  Each allocator call moves that count by exactly one.
-/

namespace PureCOS.Mm

/-- A 64-bit memory word: page table entry or data. -/
abbrev Word := BitVec 64

/-- The 512 words of a frame. -/
abbrev Page := Nat → Word

/-- The state of `mm/pmm.c` together with the memory it manages. -/
structure Pmm where
  /-- Word `i` of frame `f`. -/
  mem : Nat → Page
  /-- `frame_bitmap`: set for frames that are in use or not managed. -/
  used : Nat → Bool
  /-- `frame_refs`: references beyond the first. -/
  refs : Nat → Nat
  /-- `frame_refs` was allocated at boot. -/
  refsReady : Bool
  frameLimit : Nat
  freeFrames : Nat
  allocationCursor : Nat
  ready : Bool

/-- Replace the contents of one frame. -/
def setPage (mem : Nat → Page) (f : Nat) (page : Page) : Nat → Page :=
  fun g => if g = f then page else mem g

/-- First clear bit among the `n` frames from `f` on. -/
def scanFree (used : Nat → Bool) : Nat → Nat → Option Nat
  | 0, _ => none
  | n + 1, f => if used f then scanFree used n (f + 1) else some f

/-- `set_frame`, the bookkeeping around it and the clearing of the page. -/
def Pmm.take (p : Pmm) (f : Nat) : Pmm :=
  { p with
    mem := setPage p.mem f (fun _ => 0)
    used := fun g => if g = f then true else p.used g
    freeFrames := p.freeFrames - 1
    allocationCursor := f + 1 }

/-- `pmm_allocate_page`: from the cursor to the limit, then from frame 1 to the cursor. -/
def pmmAllocatePage (p : Pmm) : Pmm × Option Nat :=
  if !p.ready || p.freeFrames == 0 then
    (p, none)
  else
    match scanFree p.used (p.frameLimit - p.allocationCursor) p.allocationCursor with
    | some f => (p.take f, some f)
    | none =>
      match scanFree p.used (p.allocationCursor - 1) 1 with
      | some f => (p.take f, some f)
      | none => (p, none)

/-- `pmm_free_page`: drop a reference, or return the frame when none is left. -/
def pmmFreePage (p : Pmm) (f : Nat) : Pmm :=
  if f == 0 || decide (p.frameLimit ≤ f) || !p.used f then
    p
  else if p.refsReady && p.refs f != 0 then
    { p with refs := fun g => if g = f then p.refs f - 1 else p.refs g }
  else
    { p with
      used := fun g => if g = f then false else p.used g
      freeFrames := p.freeFrames + 1
      allocationCursor := if f < p.allocationCursor then f else p.allocationCursor }

/-- `pmm_frame_ref`: take one more reference; the counter is 16 bits wide. -/
def pmmFrameRef (p : Pmm) (f : Nat) : Pmm × Bool :=
  if p.refsReady && f != 0 && decide (f < p.frameLimit) && p.used f &&
      decide (p.refs f < 65535) then
    ({ p with refs := fun g => if g = f then p.refs f + 1 else p.refs g }, true)
  else
    (p, false)

section Calls

theorem scanFree_unused {used : Nat → Bool} {n f g : Nat} (h : scanFree used n f = some g) :
    used g = false := by
  induction n generalizing f with
  | zero => simp [scanFree] at h
  | succ n ih =>
    simp only [scanFree] at h
    split at h
    · exact ih h
    next hu =>
      obtain rfl := Option.some.inj h
      simpa using hu

/-- A successful allocation takes a frame whose bit was clear. -/
theorem pmmAllocatePage_some {p p' : Pmm} {f : Nat} (h : pmmAllocatePage p = (p', some f)) :
    p.used f = false ∧ p' = p.take f := by
  unfold pmmAllocatePage at h
  split at h
  · simp at h
  split at h
  next g hg =>
    obtain ⟨rfl, hf⟩ := Prod.mk.inj h
    obtain rfl := Option.some.inj hf
    exact ⟨scanFree_unused hg, rfl⟩
  · split at h
    next g hg =>
      obtain ⟨rfl, hf⟩ := Prod.mk.inj h
      obtain rfl := Option.some.inj hf
      exact ⟨scanFree_unused hg, rfl⟩
    · simp at h

/-- A failed allocation changes nothing. -/
theorem pmmAllocatePage_none {p p' : Pmm} (h : pmmAllocatePage p = (p', none)) : p' = p := by
  unfold pmmAllocatePage at h
  split at h
  · exact (Prod.mk.inj h).1.symm
  split at h
  · simp at h
  · split at h
    · simp at h
    · exact (Prod.mk.inj h).1.symm

end Calls

section Ownership

variable {p p' : Pmm} {base : Nat → Prop} {cnt : Nat → Nat} {f : Nat}

/-- One more reference to `f`. -/
def addRef (cnt : Nat → Nat) (f : Nat) : Nat → Nat :=
  fun g => if g = f then cnt g + 1 else cnt g

/-- One reference to `f` less. -/
def dropRef (cnt : Nat → Nat) (f : Nat) : Nat → Nat :=
  fun g => if g = f then cnt g - 1 else cnt g

theorem pmmFrameRef_false (hr : pmmFrameRef p f = (p', false)) : p' = p := by
  unfold pmmFrameRef at hr
  split at hr
  · simp at hr
  · exact (Prod.mk.inj hr).1.symm

end Ownership

end PureCOS.Mm
