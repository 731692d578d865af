import PureCOS.Lib.Run
import PureCOS.Lib.Tally
import PureCOS.Mm.Contiguous

/-!
# Who owns physical memory

`pmm_init` reads the memory map of the boot loader, clears the bits of usable frames and takes
the reference table from them.  After that any calls may come, as long as callers free only what
they own.

Beside the allocator runs a book of the allocations that have not been freed and of the
references that have been taken and not given back.  The bitmap and the reference table are this
book again: a bit is set exactly for the frames in use since boot and those of an allocation in
the book.
-/

namespace PureCOS.Mm

open List Function Pmm

def pmmMaxPhysicalBytes : Nat := 32 * 1024 * 1024 * 1024
def pmmMaxPages : Nat := pmmMaxPhysicalBytes / 4096
def limineMemmapUsable : Nat := 0
def uint64Max : Nat := 2 ^ 64 - 1

/-- `struct limine_memmap_entry` -/
structure MemmapEntry where
  base : Nat
  length : Nat
  kind : Nat
  base_le : base ≤ uint64Max
  length_le : length ≤ uint64Max

/-- The entries of the memory map; an entry can be a null pointer. -/
abbrev MemoryMap := List (Option MemmapEntry)

/-- One round of the inner loop of `pmm_init` -/
def Pmm.release (p : Pmm) (f : Nat) : Pmm :=
  if f == 0 || !p.used f then
    p
  else
    { p with used := fun g => if g = f then false else p.used g, freeFrames := p.freeFrames + 1 }

/-- The first frame of an entry. -/
def MemmapEntry.first (e : MemmapEntry) : Nat := (e.base + 4095) / 4096

/-- The frame after the last one of an entry. -/
def MemmapEntry.last (e : MemmapEntry) : Nat := min ((e.base + e.length) / 4096) pmmMaxPages

/-- One round of the outer loop of `pmm_init` -/
def Pmm.initEntry (p : Pmm) : Option MemmapEntry → Pmm
  | none => p
  | some e =>
    if e.kind ≠ limineMemmapUsable then
      p
    else if uint64Max - e.length < e.base then
      p
    else if uint64Max - 4095 < e.base then
      p
    else if e.last ≤ e.first then
      p
    else
      (range (e.last - e.first)).foldl (fun p k => p.release (e.first + k))
        { p with frameLimit := if p.frameLimit < e.last then e.last else p.frameLimit }

/-- The allocator before the memory map is read. -/
def Pmm.blank (mem : Nat → Page) : Pmm where
  mem := mem
  used _ := true
  refs _ := 0
  refsReady := false
  frameLimit := 0
  freeFrames := 0
  allocationCursor := 1
  ready := false

/-- The pages of the reference table. -/
def Pmm.refPages (p : Pmm) : Nat := (p.frameLimit * 2 + 4095) / 4096

/-- `pmm_init`; the reference table is made of cleared pages. -/
def pmmInit (mem : Nat → Page) (map : Option MemoryMap) (hhdm : Nat) : Pmm :=
  match map with
  | none => blank mem
  | some entries =>
    if hhdm = 0 then
      blank mem
    else
      let p := entries.foldl initEntry (blank mem)
      if p.freeFrames = 0 then
        p
      else
        match pmmAllocateContiguous { p with ready := true } p.refPages with
        | (p, some _) => { p with refsReady := true }
        | (p, none) => p

/-- The frame lies in usable memory. -/
def UsableIn (map : MemoryMap) (f : Nat) : Prop :=
  ∃ e, some e ∈ map ∧ e.kind = limineMemmapUsable ∧ e.base ≤ f * 4096 ∧
    (f + 1) * 4096 ≤ e.base + e.length

/-! ## The book of owners -/

/-- Allocations that have not been freed, and references that have not been given back. -/
structure Books where
  pmm : Pmm
  live : List (Nat × Nat)
  shares : Nat → Nat

inductive PmmCall where
  | allocatePage
  | allocateContiguous (n : Nat)
  | frameRef (f : Nat)
  | freePage (f : Nat)
  | freeContiguous (f n : Nat)

/-- One call, and the frame it returns. -/
def Books.step (b : Books) : PmmCall → Books × List Nat
  | .allocatePage =>
    match pmmAllocatePage b.pmm with
    | (p, some f) => (⟨p, (f, 1) :: b.live, b.shares⟩, [f])
    | (p, none) => (⟨p, b.live, b.shares⟩, [])
  | .allocateContiguous n =>
    match pmmAllocateContiguous b.pmm n with
    | (p, some f) => (⟨p, (f, n) :: b.live, b.shares⟩, [f])
    | (p, none) => (⟨p, b.live, b.shares⟩, [])
  | .frameRef f =>
    match pmmFrameRef b.pmm f with
    | (p, true) => (⟨p, b.live, addRef b.shares f⟩, [])
    | (p, false) => (⟨p, b.live, b.shares⟩, [])
  | .freePage f =>
    -- the allocation itself is given back last
    if b.shares f = 0 then
      (⟨pmmFreePage b.pmm f, b.live.erase (f, 1), b.shares⟩, [])
    else
      (⟨pmmFreePage b.pmm f, b.live, dropRef b.shares f⟩, [])
  | .freeContiguous f n => (⟨pmmFreeContiguous b.pmm f n, b.live.erase (f, n), b.shares⟩, [])

/-- What is freed is owned, and no reference to a run that is freed is left. -/
def Permitted (b : Books) : PmmCall → Prop
  | .freePage f => b.shares f ≠ 0 ∨ (f, 1) ∈ b.live
  | .freeContiguous f n => (f, n) ∈ b.live ∧ ∀ k < n, b.shares (f + k) = 0
  | _ => True

instance (b : Books) : (c : PmmCall) → Decidable (Permitted b c)
  | .freePage _ => inferInstanceAs (Decidable (_ ∨ _))
  | .freeContiguous _ _ => inferInstanceAs (Decidable (_ ∧ _))
  | .allocatePage | .allocateContiguous _ | .frameRef _ => isTrue trivial

/-- The state after boot. -/
def Books.boot (mem : Nat → Page) (map : Option MemoryMap) (hhdm : Nat) : Books :=
  ⟨pmmInit mem map hhdm, [], fun _ => 0⟩

/-- Somebody has allocated the frame or taken a reference to it. -/
def Books.Owner (b : Books) (f : Nat) : Prop := b.shares f ≠ 0 ∨ ∃ a ∈ b.live, InRun a.1 a.2 f

/-! ## Counting free frames -/

/-- The counter is the number of clear bits below `n`. -/
def Counted (n : Nat) (p : Pmm) : Prop := p.freeFrames = tally n p.used fun u => (!u).toNat

section Counting

variable {p : Pmm} {n f : Nat} {used : Nat → Bool}

theorem update_used (used : Nat → Bool) (f : Nat) (v : Bool) :
    (fun g => if g = f then v else used g) = update used f v := by
  funext g
  rw [update_apply]

/-- A set bit is cleared. -/
theorem tally_clear (hf : f < n) (hu : used f = true) :
    tally n (fun g => if g = f then false else used g) (fun u => (!u).toNat) =
      tally n used (fun u => (!u).toNat) + 1 := by
  have h := tally_update (v := false) (f := used) (g := fun u => (!u).toNat) hf
  rw [update_used]
  simp only [hu, Bool.not_true, Bool.toNat_false, Bool.not_false, Bool.toNat_true] at h
  omega

theorem Counted.release (h : Counted n p) (hf : f < n) : Counted n (p.release f) := by
  unfold Pmm.release
  split
  · exact h
  next hc =>
  have hu : p.used f = true := by
    simp only [Bool.or_eq_true, Bool.not_eq_true', not_or, Bool.not_eq_false] at hc
    exact hc.2
  show p.freeFrames + 1 = _
  rw [tally_clear hf hu, h]

theorem Counted.clear (h : Counted n p) (hf : f < n) : Counted n (p.clear f) := by
  unfold Pmm.clear
  split
  next hu =>
    show p.freeFrames + 1 = _
    rw [tally_clear hf hu, h]
  · exact h

/-- The bits of a run are set. -/
theorem tally_takeRun {k : Nat} (hrun : ∀ g, InRun f k g → used g = false) (hk : f + k ≤ n) :
    tally n (fun g => if InRun f k g then true else used g) (fun u => (!u).toNat) + k =
      tally n used fun u => (!u).toNat := by
  induction k with
  | zero =>
    have hsame : (fun g => if InRun f 0 g then true else used g) = used := by
      funext g
      rw [if_neg (by unfold InRun; omega)]
    rw [hsame, Nat.add_zero]
  | succ k ih =>
    have hprev := ih (fun g hg => hrun g (by unfold InRun at hg ⊢; omega)) (by omega)
    have hstep : (fun g => if InRun f (k + 1) g then true else used g) =
        update (fun g => if InRun f k g then true else used g) (f + k) true := by
      funext g
      rw [update_apply]
      by_cases hg : g = f + k
      · rw [if_pos hg, if_pos (by unfold InRun; omega)]
      rw [if_neg hg]
      by_cases hin : InRun f k g
      · rw [if_pos hin, if_pos (by unfold InRun at hin ⊢; omega)]
      · rw [if_neg hin, if_neg (by unfold InRun at hin ⊢; omega)]
    have hlast : (if InRun f k (f + k) then true else used (f + k)) = false := by
      rw [if_neg (by unfold InRun; omega)]
      exact hrun (f + k) (by unfold InRun; omega)
    have h := tally_update (v := true) (f := fun g => if InRun f k g then true else used g)
      (g := fun u => (!u).toNat) (show f + k < n by omega)
    simp only [hlast, Bool.not_true, Bool.toNat_false, Bool.not_false, Bool.toNat_true] at h
    rw [hstep]
    omega

theorem Counted.takeRun {k : Nat} (h : Counted n p) (hrun : ∀ g, InRun f k g → p.used g = false)
    (hk : f + k ≤ n) : Counted n (p.takeRun f k) := by
  have htally := tally_takeRun hrun hk
  show p.freeFrames - k = _
  rw [h]
  exact Nat.sub_eq_of_eq_add htally.symm

/-- Beyond the last clear bit nothing is counted. -/
theorem Counted.restrict {l : Nat} (h : Counted n p) (hl : l ≤ n)
    (hused : ∀ f, l ≤ f → p.used f = true) : Counted l p := by
  induction n with
  | zero =>
    obtain rfl : l = 0 := by omega
    exact h
  | succ n ih =>
    by_cases hln : l = n + 1
    · exact hln ▸ h
    refine ih ?_ (by omega)
    unfold Counted at h ⊢
    rw [h, tally_succ, hused n (by omega)]
    rfl

end Counting

/-! ## Boot -/

/-- The allocator while the memory map is read. -/
structure Booting (map : MemoryMap) (p : Pmm) : Prop where
  limit : p.frameLimit ≤ pmmMaxPages
  counted : Counted pmmMaxPages p
  zero : p.used 0 = true
  beyond : ∀ f, p.frameLimit ≤ f → p.used f = true
  usable : ∀ f, p.used f = false → UsableIn map f
  refs : ∀ f, p.refs f = 0
  noTable : p.refsReady = false

section Boot

variable {map : MemoryMap} {p : Pmm} {f : Nat}

theorem booting_blank (map : MemoryMap) (mem : Nat → Page) : Booting map (blank mem) := by
  refine ⟨Nat.zero_le _, ?_, rfl, fun _ _ => rfl, nofun, fun _ => rfl, rfl⟩
  refine Eq.symm ?_
  rw [blank, tally_eq_zero]
  exact fun _ _ => rfl

theorem Booting.raise (h : Booting map p) {l : Nat} (hl : l ≤ pmmMaxPages) :
    Booting map { p with frameLimit := if p.frameLimit < l then l else p.frameLimit } := by
  have hlimit := h.limit
  refine ⟨?_, h.counted, h.zero, fun f hf => ?_, h.usable, h.refs, h.noTable⟩
  · show (if p.frameLimit < l then l else p.frameLimit) ≤ pmmMaxPages
    split <;> omega
  · have hf : (if p.frameLimit < l then l else p.frameLimit) ≤ f := hf
    refine h.beyond f ?_
    split at hf <;> omega

theorem Booting.release (h : Booting map p) (hf : f < p.frameLimit) (husable : UsableIn map f) :
    Booting map (p.release f) ∧ (p.release f).frameLimit = p.frameLimit := by
  have hcounted : Counted pmmMaxPages (p.release f) :=
    h.counted.release (Nat.lt_of_lt_of_le hf h.limit)
  unfold Pmm.release at hcounted ⊢
  split
  · exact ⟨h, rfl⟩
  next hc =>
  have hne : f ≠ 0 := by
    rintro rfl
    simp at hc
  rw [if_neg hc] at hcounted
  refine ⟨⟨h.limit, hcounted, ?_, fun g hg => ?_, fun g hg => ?_, h.refs, h.noTable⟩, rfl⟩
  · show (if 0 = f then false else p.used 0) = true
    rw [if_neg (Ne.symm hne), h.zero]
  · have hg : p.frameLimit ≤ g := hg
    show (if g = f then false else p.used g) = true
    rw [if_neg (by omega), h.beyond g hg]
  have hg : (if g = f then false else p.used g) = false := hg
  split at hg
  next heq => exact heq ▸ husable
  · exact h.usable g hg

/-- The frames of an entry are released. -/
theorem Booting.releases (h : Booting map p) (n : Nat) (hf : f + n ≤ p.frameLimit)
    (husable : ∀ k < n, UsableIn map (f + k)) :
    Booting map ((range n).foldl (fun p k => p.release (f + k)) p) := by
  suffices hboth : Booting map ((range n).foldl (fun p k => p.release (f + k)) p) ∧
      ((range n).foldl (fun p k => p.release (f + k)) p).frameLimit = p.frameLimit from hboth.1
  induction n with
  | zero => exact ⟨h, rfl⟩
  | succ n ih =>
    obtain ⟨hrest, hlimit⟩ := ih (by omega) fun k hk => husable k (by omega)
    rw [range_succ, foldl_append, foldl_cons, foldl_nil]
    obtain ⟨hlast, hlimit'⟩ := hrest.release (show f + n < _ by omega) (husable n (by omega))
    exact ⟨hlast, hlimit'.trans hlimit⟩

theorem MemmapEntry.usable (e : MemmapEntry) (he : some e ∈ map)
    (hkind : e.kind = limineMemmapUsable) {f : Nat} (h₁ : e.first ≤ f) (h₂ : f < e.last) :
    UsableIn map f := by
  unfold first at h₁
  have h₂ := Nat.lt_of_lt_of_le h₂ (Nat.min_le_left _ _)
  exact ⟨e, he, hkind, by omega, by omega⟩

theorem Booting.initEntry (h : Booting map p) {slot : Option MemmapEntry} (hslot : slot ∈ map) :
    Booting map (p.initEntry slot) := by
  unfold Pmm.initEntry
  split
  · exact h
  next e =>
  split
  · exact h
  next hkind =>
  split
  · exact h
  split
  · exact h
  split
  · exact h
  next hsome =>
  have hlast : e.last ≤ pmmMaxPages := Nat.min_le_right _ _
  refine (h.raise hlast).releases _ ?_ fun k hk => ?_
  · show e.first + (e.last - e.first) ≤ if p.frameLimit < e.last then e.last else p.frameLimit
    split <;> omega
  · exact e.usable hslot (not_not.mp hkind) (Nat.le_add_right _ _) (by omega)

theorem Booting.entries {entries : MemoryMap} (h : Booting map p)
    (hsub : ∀ slot ∈ entries, slot ∈ map) : Booting map (entries.foldl Pmm.initEntry p) := by
  induction entries generalizing p with
  | nil => exact h
  | cons slot entries ih =>
    exact ih (h.initEntry (hsub slot mem_cons_self)) fun s hs => hsub s (mem_cons_of_mem _ hs)

/-- A run of clear frames is below the limit. -/
theorem run_le_limit {n l : Nat} {used : Nat → Bool} (hbeyond : ∀ f, l ≤ f → used f = true)
    (hn : n ≠ 0) (hrun : ∀ g, InRun f n g → used g = false) : f + n ≤ l := by
  by_contra hlt
  have hclear := hrun (f + n - 1) (by unfold InRun; omega)
  rw [hbeyond (f + n - 1) (by omega)] at hclear
  cases hclear

/-- What boot leaves. -/
structure Initialised (map : MemoryMap) (p : Pmm) : Prop where
  counted : Counted p.frameLimit p
  zero : p.used 0 = true
  beyond : ∀ f, p.frameLimit ≤ f → p.used f = true
  usable : ∀ f, p.used f = false → UsableIn map f
  refs : ∀ f, p.refs f = 0

theorem Booting.initialised (h : Booting map p) : Initialised map p :=
  ⟨h.counted.restrict h.limit h.beyond, h.zero, h.beyond, h.usable, h.refs⟩

theorem used_takeRun {n g : Nat} (h : p.used g = true) : (p.takeRun f n).used g = true := by
  show (if InRun f n g then true else p.used g) = true
  rw [h, ite_self]

theorem Initialised.takeRun (h : Initialised map p) {n : Nat} (hn : n ≠ 0)
    (hrun : ∀ g, InRun f n g → p.used g = false) : Initialised map (p.takeRun f n) := by
  refine ⟨?_, used_takeRun h.zero, fun g hg => used_takeRun (h.beyond g hg), fun g hg => ?_, h.refs⟩
  · exact h.counted.takeRun hrun (run_le_limit h.beyond hn hrun)
  have hg : (if InRun f n g then true else p.used g) = false := hg
  split at hg
  · cases hg
  · exact h.usable g hg

/-- `pmm_init` -/
theorem initialised_pmmInit (mem : Nat → Page) (map : Option MemoryMap) (hhdm : Nat) :
    Initialised (map.getD []) (pmmInit mem map hhdm) := by
  unfold pmmInit
  split
  · exact (booting_blank _ mem).initialised
  next entries =>
  split
  · exact (booting_blank _ mem).initialised
  have hread : Booting entries (entries.foldl initEntry (blank mem)) :=
    (booting_blank entries mem).entries fun _ hs => hs
  simp only [Option.getD_some]
  generalize entries.foldl initEntry (blank mem) = p at hread
  split
  · exact hread.initialised
  have hready : Initialised entries { p with ready := true } := by
    obtain ⟨hcounted, hzero, hbeyond, husable, hrefs⟩ := hread.initialised
    exact ⟨hcounted, hzero, hbeyond, husable, hrefs⟩
  generalize p.refPages = pages
  generalize ({ p with ready := true } : Pmm) = p₁ at hready
  rcases halloc : pmmAllocateContiguous p₁ pages with ⟨p₂, _ | f⟩
  · rw [pmmAllocateContiguous_none halloc]
    exact hready
  · obtain ⟨hn, hrun, rfl⟩ := pmmAllocateContiguous_some halloc
    obtain ⟨hcounted, hzero, hbeyond, husable, hrefs⟩ := hready.takeRun hn hrun
    exact ⟨hcounted, hzero, hbeyond, husable, hrefs⟩

end Boot

/-! ## The book agrees with the bitmap -/

/-- The allocations that contain a frame. -/
def holders (live : List (Nat × Nat)) (f : Nat) : Nat :=
  live.countP fun a => decide (InRun a.1 a.2 f)

/-- The book agrees with the allocator; `boot` is the allocator after boot. -/
structure Balanced (boot : Pmm) (b : Books) : Prop where
  limit : b.pmm.frameLimit = boot.frameLimit
  counted : Counted boot.frameLimit b.pmm
  one : ∀ f, (boot.used f).toNat + holders b.live f ≤ 1
  used : ∀ f, b.pmm.used f = true ↔ (boot.used f).toNat + holders b.live f = 1
  refs : ∀ f, b.pmm.refs f = b.shares f
  shared : ∀ f, b.shares f ≠ 0 → b.pmm.refsReady = true ∧ b.pmm.used f = true ∧ f ≠ 0 ∧
    f < boot.frameLimit
  nonempty : ∀ a ∈ b.live, a.2 ≠ 0

section Steps

variable {map : MemoryMap} {boot : Pmm} {b : Books} {f n : Nat}

theorem holders_cons (live : List (Nat × Nat)) (f n g : Nat) :
    holders ((f, n) :: live) g = holders live g + if InRun f n g then 1 else 0 := by
  unfold holders
  rw [countP_cons]
  simp only [decide_eq_true_eq]

variable {live : List (Nat × Nat)} {p : Pmm} {g : Nat}

theorem holders_erase (h : (f, n) ∈ live) (g : Nat) :
    holders (live.erase (f, n)) g = holders live g - if InRun f n g then 1 else 0 := by
  unfold holders
  rw [countP_erase]
  simp only [h, true_and, decide_eq_true_eq]

theorem holders_pos (h : (f, n) ∈ live) (hg : InRun f n g) : 0 < holders live g :=
  countP_pos_iff.mpr ⟨(f, n), h, decide_eq_true hg⟩

theorem Balanced.of_boot (hboot : Initialised map boot) : Balanced boot ⟨boot, [], fun _ => 0⟩ where
  limit := rfl
  counted := hboot.counted
  one f := by
    show (boot.used f).toNat + 0 ≤ 1
    cases boot.used f <;> decide
  used f := by
    show boot.used f = true ↔ (boot.used f).toNat + 0 = 1
    cases boot.used f <;> decide
  refs := hboot.refs
  shared _ h := absurd rfl h
  nonempty := nofun

theorem inRun_one {f : Nat} : InRun f 1 g ↔ g = f := by
  unfold InRun
  omega

theorem Counted.clearRun {l : Nat} (h : Counted l p) (hf : f + n ≤ l) :
    Counted l ((range n).foldl (fun p off => p.clear (f + off)) p) := by
  induction n with
  | zero => exact h
  | succ n ih =>
    rw [range_succ, foldl_append, foldl_cons, foldl_nil]
    exact (ih (by omega)).clear (by omega)

/-- Allocations that hold no frame twice are disjoint. -/
theorem disjoint_of_holders (h : ∀ f, holders live f ≤ 1) :
    live.Pairwise fun a c => ∀ f, ¬(InRun a.1 a.2 f ∧ InRun c.1 c.2 f) := by
  induction live with
  | nil => exact List.Pairwise.nil
  | cons a live ih =>
    have hcount : ∀ f, holders live f + (if InRun a.1 a.2 f then 1 else 0) ≤ 1 := fun f => by
      rw [← holders_cons]
      exact h f
    refine pairwise_cons.mpr ⟨fun c hc f hin => ?_, ih fun f => ?_⟩
    · have hone := hcount f
      rw [if_pos hin.1] at hone
      have := holders_pos hc hin.2
      omega
    · have := hcount f
      omega

variable (h : Balanced boot b)

include h

/-- A clear frame was clear at boot and is in no allocation. -/
theorem Balanced.unused (hf : b.pmm.used f = false) :
    (boot.used f).toNat + holders b.live f = 0 := by
  have hone := h.one f
  have hused := h.used f
  rw [hf] at hused
  by_contra hne
  exact Bool.false_ne_true (hused.mpr (by omega))

/-- An allocation from which no reference is left is given back. -/
theorem Balanced.give (hlive : (f, n) ∈ b.live) (hshares : ∀ g, InRun f n g → b.shares g = 0)
    (hlimit : p.frameLimit = b.pmm.frameLimit) (hcounted : Counted boot.frameLimit p)
    (hrefs : p.refs = b.pmm.refs) (hready : p.refsReady = b.pmm.refsReady)
    (hused : ∀ g, p.used g = if InRun f n g then false else b.pmm.used g) :
    Balanced boot ⟨p, b.live.erase (f, n), b.shares⟩ := by
  refine ⟨hlimit.trans h.limit, hcounted, fun g => ?_, fun g => ?_, fun g => ?_, fun g hg => ?_, ?_⟩
  · show (boot.used g).toNat + holders (b.live.erase (f, n)) g ≤ 1
    rw [holders_erase hlive]
    have := h.one g
    omega
  · show p.used g = true ↔ (boot.used g).toNat + holders (b.live.erase (f, n)) g = 1
    rw [hused, holders_erase hlive]
    split
    next hin =>
      have hone := h.one g
      have hpos := holders_pos hlive hin
      exact ⟨nofun, fun heq => by omega⟩
    · exact h.used g
  · rw [hrefs]
    exact h.refs g
  · obtain ⟨hr, hu, hpos, hlt⟩ := h.shared g hg
    refine ⟨hready.trans hr, ?_, hpos, hlt⟩
    rw [hused, if_neg fun hin => hg (hshares g hin), hu]
  · exact fun a ha => h.nonempty a (mem_of_mem_erase ha)

theorem Balanced.frameRef (hr : pmmFrameRef b.pmm f = (p, true)) :
    Balanced boot ⟨p, b.live, addRef b.shares f⟩ := by
  unfold pmmFrameRef at hr
  split at hr
  next hcond =>
    obtain ⟨rfl, -⟩ := Prod.mk.inj hr
    simp only [Bool.and_eq_true, bne_iff_ne, decide_eq_true_eq] at hcond
    obtain ⟨⟨⟨⟨hready, hpos⟩, hlt⟩, hused⟩, -⟩ := hcond
    refine ⟨h.limit, h.counted, h.one, h.used, fun g => ?_, fun g hg => ?_, h.nonempty⟩
    · show (if g = f then b.pmm.refs f + 1 else b.pmm.refs g) = addRef b.shares f g
      unfold addRef
      split
      next heq => rw [heq, h.refs]
      · exact h.refs g
    · by_cases hgf : g = f
      · subst hgf
        exact ⟨hready, hused, hpos, h.limit ▸ hlt⟩
      · exact h.shared g (by simpa [addRef, hgf] using hg)
  · cases hr

/-- A reference is given back. -/
theorem Balanced.dropShare (hf : b.shares f ≠ 0) :
    Balanced boot ⟨pmmFreePage b.pmm f, b.live, dropRef b.shares f⟩ := by
  obtain ⟨hready, hused, hpos, hlt⟩ := h.shared f hf
  have hcall : pmmFreePage b.pmm f =
      { b.pmm with refs := fun g => if g = f then b.pmm.refs f - 1 else b.pmm.refs g } := by
    unfold pmmFreePage
    rw [if_neg (by rw [h.limit]; simp [hpos, hused, hlt]), if_pos (by simp [hready, h.refs, hf])]
  rw [hcall]
  refine ⟨h.limit, h.counted, h.one, h.used, fun g => ?_, fun g hg => ?_, h.nonempty⟩
  · show (if g = f then b.pmm.refs f - 1 else b.pmm.refs g) = dropRef b.shares f g
    unfold dropRef
    split
    next heq => rw [heq, h.refs]
    · exact h.refs g
  · refine h.shared g fun hzero => hg ?_
    show dropRef b.shares f g = 0
    unfold dropRef
    split <;> omega

/-- A frame is clear exactly if it was at boot and nobody owns it. -/
theorem Balanced.free_iff : b.pmm.used f = false ↔ boot.used f = false ∧ ¬b.Owner f := by
  constructor
  · intro hf
    have hzero := h.unused hf
    refine ⟨?_, ?_⟩
    · cases hu : boot.used f with
      | false => rfl
      | true =>
        rw [hu, Bool.toNat_true] at hzero
        omega
    · rintro (hs | ⟨a, ha, hin⟩)
      · rw [(h.shared f hs).2.1] at hf
        cases hf
      · have := holders_pos ha hin
        omega
  · rintro ⟨hboot, hno⟩
    rw [← Bool.not_eq_true, h.used, hboot, Bool.toNat_false, Nat.zero_add]
    intro hone
    obtain ⟨a, ha, hin⟩ := countP_pos_iff.mp (show 0 < holders b.live f by omega)
    exact hno (.inr ⟨a, ha, of_decide_eq_true hin⟩)

variable (hboot : Initialised map boot)

include hboot

theorem Balanced.beyond (hf : boot.frameLimit ≤ f) : b.pmm.used f = true := by
  have hone := h.one f
  have hset := hboot.beyond f hf
  rw [hset, Bool.toNat_true] at hone
  rw [h.used, hset, Bool.toNat_true]
  omega

/-- A run of clear frames is taken. -/
theorem Balanced.take (hn : n ≠ 0) (hrun : ∀ g, InRun f n g → b.pmm.used g = false) :
    Balanced boot ⟨b.pmm.takeRun f n, (f, n) :: b.live, b.shares⟩ := by
  have hzero : ∀ g, InRun f n g → (boot.used g).toNat + holders b.live g = 0 := fun g hg =>
    h.unused (hrun g hg)
  refine ⟨h.limit, ?_, fun g => ?_, fun g => ?_, h.refs, fun g hg => ?_, ?_⟩
  · exact h.counted.takeRun hrun (run_le_limit (fun g hg => h.beyond hboot hg) hn hrun)
  · show (boot.used g).toNat + holders ((f, n) :: b.live) g ≤ 1
    rw [holders_cons]
    have hone := h.one g
    split
    next hin =>
      have := hzero g hin
      omega
    · omega
  · show (if InRun f n g then true else b.pmm.used g) = true ↔
      (boot.used g).toNat + holders ((f, n) :: b.live) g = 1
    rw [holders_cons]
    split
    next hin =>
      have := hzero g hin
      exact ⟨fun _ => by omega, fun _ => rfl⟩
    · exact h.used g
  · obtain ⟨hready, hused, hpos, hlt⟩ := h.shared g hg
    refine ⟨hready, ?_, hpos, hlt⟩
    show (if InRun f n g then true else b.pmm.used g) = true
    split
    · rfl
    · exact hused
  · exact forall_mem_cons.mpr ⟨hn, h.nonempty⟩

/-- The frames of an allocation are managed frames in use. -/
theorem Balanced.of_live (hlive : (f, n) ∈ b.live) (hg : InRun f n g) :
    b.pmm.used g = true ∧ boot.used g = false ∧ g ≠ 0 ∧ g < boot.frameLimit := by
  have hone := h.one g
  have hpos := holders_pos hlive hg
  have hclear : boot.used g = false := by
    cases hu : boot.used g with
    | false => rfl
    | true =>
      rw [hu, Bool.toNat_true] at hone
      omega
  refine ⟨?_, hclear, ?_, ?_⟩
  · rw [h.used]
    omega
  · rintro rfl
    rw [hboot.zero] at hclear
    cases hclear
  · by_contra hge
    rw [hboot.beyond g (by omega)] at hclear
    cases hclear

/-- A page is given back by its last owner. -/
theorem Balanced.freePage (hf : b.shares f = 0) (hlive : (f, 1) ∈ b.live) :
    Balanced boot ⟨pmmFreePage b.pmm f, b.live.erase (f, 1), b.shares⟩ := by
  obtain ⟨hused, -, hpos, hlt⟩ := h.of_live hboot hlive (inRun_one.mpr rfl)
  have hcall : pmmFreePage b.pmm f = b.pmm.clear f := by
    unfold pmmFreePage clear
    rw [if_neg (by rw [h.limit]; simp [hpos, hused, hlt]), if_neg (by simp [h.refs, hf]),
      if_pos hused]
  rw [hcall]
  have hclear : b.pmm.clear f =
      { b.pmm with
        used := fun g => if g = f then false else b.pmm.used g
        freeFrames := b.pmm.freeFrames + 1
        allocationCursor := if f < b.pmm.allocationCursor then f else b.pmm.allocationCursor } :=
    if_pos hused
  have hcounted := h.counted.clear hlt
  rw [hclear] at hcounted ⊢
  refine h.give hlive (fun g hg => inRun_one.mp hg ▸ hf) rfl hcounted rfl rfl fun g => ?_
  simp only [inRun_one]

/-- A run is given back by its owner. -/
theorem Balanced.freeContiguous (hshares : ∀ k < n, b.shares (f + k) = 0)
    (hlive : (f, n) ∈ b.live) :
    Balanced boot ⟨pmmFreeContiguous b.pmm f n, b.live.erase (f, n), b.shares⟩ := by
  have hn := h.nonempty _ hlive
  obtain ⟨-, -, hpos, -⟩ := h.of_live hboot hlive (show InRun f n f by unfold InRun; omega)
  obtain ⟨-, -, -, hlast⟩ :=
    h.of_live hboot hlive (show InRun f n (f + n - 1) by unfold InRun; omega)
  have hcall : pmmFreeContiguous b.pmm f n =
      (range n).foldl (fun p off => p.clear (f + off)) b.pmm := by
    unfold pmmFreeContiguous
    rw [if_neg (by rw [h.limit]; simp [hn, hpos]; omega)]
  obtain ⟨-, hrefs, hready, hlimit, hused⟩ := clearRun_spec b.pmm f n
  rw [hcall]
  refine h.give hlive (fun g hg => ?_) hlimit (h.counted.clearRun (by omega)) hrefs hready hused
  have hk := hshares (g - f) (by unfold InRun at hg; omega)
  rwa [show f + (g - f) = g by unfold InRun at hg; omega] at hk

/-- Every permitted call keeps book and bitmap together. -/
theorem Balanced.step (c : PmmCall) (hc : Permitted b c) : Balanced boot (b.step c).1 := by
  cases c with
  | allocatePage =>
    rcases halloc : pmmAllocatePage b.pmm with ⟨p, _ | f⟩
    · simp only [Books.step, halloc, pmmAllocatePage_none halloc]
      exact h
    simp only [Books.step, halloc]
    obtain ⟨hu, rfl⟩ := pmmAllocatePage_some halloc
    have htake := h.take hboot Nat.one_ne_zero fun g hg => (inRun_one.mp hg).symm ▸ hu
    rwa [takeRun_one] at htake
  | allocateContiguous n =>
    rcases halloc : pmmAllocateContiguous b.pmm n with ⟨p, _ | f⟩
    · simp only [Books.step, halloc, pmmAllocateContiguous_none halloc]
      exact h
    · simp only [Books.step, halloc]
      obtain ⟨hn, hrun, rfl⟩ := pmmAllocateContiguous_some halloc
      exact h.take hboot hn hrun
  | frameRef f =>
    rcases href : pmmFrameRef b.pmm f with ⟨p, _ | _⟩
    · simp only [Books.step, href, pmmFrameRef_false href]
      exact h
    · simp only [Books.step, href]
      exact h.frameRef href
  | freePage f =>
    by_cases hf : b.shares f = 0
    · simp only [Books.step, hf, if_true]
      exact h.freePage hboot hf (hc.resolve_left fun hne => hne hf)
    · simp only [Books.step, hf, if_false]
      exact h.dropShare hf
  | freeContiguous f n => exact h.freeContiguous hboot hc.2 hc.1

/-- No call returns frame 0. -/
theorem Balanced.returned (c : PmmCall) : ∀ f ∈ (b.step c).2, f ≠ 0 := by
  have hzero : b.pmm.used 0 = true := by
    have hone := h.one 0
    rw [hboot.zero, Bool.toNat_true] at hone
    rw [h.used, hboot.zero, Bool.toNat_true]
    omega
  have hne : ∀ g, b.pmm.used g = false → g ≠ 0 := by
    rintro g hg rfl
    rw [hzero] at hg
    cases hg
  cases c with
  | allocatePage =>
    rcases halloc : pmmAllocatePage b.pmm with ⟨p, _ | f⟩
    · simp only [Books.step, halloc]
      exact nofun
    · simp only [Books.step, halloc]
      exact forall_mem_singleton.mpr (hne f (pmmAllocatePage_some halloc).1)
  | allocateContiguous n =>
    rcases halloc : pmmAllocateContiguous b.pmm n with ⟨p, _ | f⟩
    · simp only [Books.step, halloc]
      exact nofun
    · simp only [Books.step, halloc]
      obtain ⟨hn, hrun, -⟩ := pmmAllocateContiguous_some halloc
      exact forall_mem_singleton.mpr (hne f (hrun f (by unfold InRun; omega)))
  | frameRef f =>
    rcases href : pmmFrameRef b.pmm f with ⟨p, _ | _⟩
    · simp only [Books.step, href]
      exact nofun
    · simp only [Books.step, href]
      exact nofun
  | freePage f =>
    simp only [Books.step]
    split
    · exact nofun
    · exact nofun
  | freeContiguous f n => exact nofun

end Steps

/--
The allocator never hands out memory twice.  From any memory map, after any calls that free only
what is owned: the counter is the number of clear bits below the limit; allocations
that have not been freed share no frame and consist of usable frames that the allocator had to
give after boot; frame 0 was never returned; and a frame is free exactly if it was free after
boot and has no owner.
-/
theorem pmm_exclusive
    (mem : Nat → Page)
    (map : Option MemoryMap)
    (hhdm : Nat)
    (calls : List PmmCall)
    (h : Run.Along Books.step Permitted (Books.boot mem map hhdm) calls) :
    let r := Run.run Books.step (Books.boot mem map hhdm) calls
    r.1.pmm.freeFrames = (range r.1.pmm.frameLimit).countP (fun f => !r.1.pmm.used f) ∧
    r.1.live.Pairwise (fun a c => ∀ f, ¬(InRun a.1 a.2 f ∧ InRun c.1 c.2 f)) ∧
    (∀ a ∈ r.1.live, ∀ f, InRun a.1 a.2 f →
      UsableIn (map.getD []) f ∧ (pmmInit mem map hhdm).used f = false) ∧
    (∀ f ∈ r.2, f ≠ 0) ∧
    ∀ f, r.1.pmm.used f = false ↔ (pmmInit mem map hhdm).used f = false ∧ ¬r.1.Owner f := by
  have hboot := initialised_pmmInit mem map hhdm
  have hrun := Run.run_induction_of Books.step Permitted
    (fun returned b => Balanced (pmmInit mem map hhdm) b ∧ ∀ f ∈ returned, f ≠ 0)
    (fun returned b c hc hb => ⟨hb.1.step hboot c hc, fun f hf =>
      (mem_append.mp hf).elim (hb.2 f) (hb.1.returned hboot c f)⟩)
    ⟨Balanced.of_boot hboot, nofun⟩ h
  intro r
  have hbalanced : Balanced (pmmInit mem map hhdm) r.1 := hrun.1
  have hret : ∀ f ∈ r.2, f ≠ 0 := hrun.2
  refine ⟨?_, disjoint_of_holders fun f => ?_, fun a ha f hf => ?_, hret,
    fun f => hbalanced.free_iff⟩
  · rw [countP_range_eq_tally, hbalanced.limit]
    exact hbalanced.counted
  · have := hbalanced.one f
    omega
  · obtain ⟨-, hclear, -⟩ := hbalanced.of_live hboot ha hf
    exact ⟨hboot.usable f hclear, hclear⟩

/-- A memory map with two entries that overlap. -/
def overlapping : MemoryMap :=
  [some ⟨4096, 16 * 4096, limineMemmapUsable, by decide, by decide⟩, none,
    some ⟨8000, 5 * 4096, limineMemmapUsable, by decide, by decide⟩]

/-- A page that is shared and freed twice, and a run. -/
def shareAndFree : List PmmCall :=
  [.allocatePage, .frameRef 2, .freePage 2, .freePage 2, .allocateContiguous 3, .freeContiguous 2 3]

theorem pmm_exclusive_overlapping :
    let r := Run.run Books.step (Books.boot (fun _ _ => 0) (some overlapping) 1) shareAndFree
    r.2 = [2, 2] ∧
      r.1.pmm.freeFrames = (range r.1.pmm.frameLimit).countP (fun f => !r.1.pmm.used f) :=
  ⟨by decide,
    (pmm_exclusive (fun _ _ => 0) (some overlapping) 1 shareAndFree (by decide)).1⟩

end PureCOS.Mm
