import PureCOS.Mm.PmmOwners

/-!
# When a run is found

`pmm_allocate_contiguous` searches from the cursor to the limit and then from frame 1 to the cursor.
After any calls, frees of frames that nobody owns included, it finds a run exactly if one lies
wholly on one side of the cursor; `pmm_allocate_page` finds every free frame.
-/

namespace PureCOS.Mm

open List Books

/-- The `n` frames from `f` on are free, and neither frame 0 nor beyond the limit. -/
def FreeRun (p : Pmm) (f n : Nat) : Prop :=
  1 ≤ f ∧ f + n ≤ p.frameLimit ∧ ∀ g, InRun f n g → p.used g = false

/-! ## The two searches -/

section Searches

variable {used : Nat → Bool} {n stop rounds start f : Nat}

theorem scanFree_ne_none (hstart : start ≤ f) (hf : f < start + n) (hused : used f = false) :
    scanFree used n start ≠ none := by
  induction n generalizing start with
  | zero => omega
  | succ n ih =>
    rw [scanFree]
    split
    next hset =>
      have hne : start ≠ f := by
        rintro rfl
        rw [hused] at hset
        cases hset
      exact ih (by omega) (by omega)
    · exact Option.some_ne_none _

theorem scanRun_ne_none (hn : n ≠ 0) (hrounds : stop ≤ start + rounds) (hstart : start ≤ f)
    (hstop : f + n ≤ stop) (hrun : ∀ g, InRun f n g → used g = false) :
    scanRun used n stop rounds start ≠ none := by
  induction rounds generalizing start with
  | zero => omega
  | succ rounds ih =>
    rw [scanRun, if_pos (by omega)]
    cases hfirst : firstUsed used start n with
    | none => exact Option.some_ne_none _
    | some off =>
      -- the used frame is in front of the run
      have hset := find?_some (p := fun off => used (start + off)) hfirst
      have hoff : off < n := mem_range.mp (mem_of_find?_eq_some hfirst)
      have hbefore : start + off < f := by
        by_contra hge
        rw [hrun (start + off) (by unfold InRun; omega)] at hset
        cases hset
      exact ih (by omega) (by omega)

theorem scanRun_bounds (h : scanRun used n stop rounds start = some f) :
    start ≤ f ∧ f + n ≤ stop := by
  induction rounds generalizing start with
  | zero => cases h
  | succ rounds ih =>
    unfold scanRun at h
    split at h
    · split at h
      · cases h
        exact ⟨Nat.le_refl _, by assumption⟩
      · have := ih h
        omega
    · cases h

end Searches

/-! ## What holds after any calls -/

/-- The counter is right, and an allocator that is not ready has nothing to give. -/
structure Searchable (p : Pmm) : Prop where
  counted : Counted p.frameLimit p
  zero : p.used 0 = true
  beyond : ∀ f, p.frameLimit ≤ f → p.used f = true
  idle : p.ready = false → p.frameLimit ≤ 1

section Calls

variable {p : Pmm} {f n : Nat}

theorem Searchable.takeRun (h : Searchable p) (hn : n ≠ 0)
    (hrun : ∀ g, InRun f n g → p.used g = false) : Searchable (p.takeRun f n) := by
  exact ⟨h.counted.takeRun hrun (run_le_limit h.beyond hn hrun), used_takeRun h.zero,
    fun g hg => used_takeRun (h.beyond g hg), h.idle⟩

theorem Searchable.clear (h : Searchable p) (hf : f ≠ 0) (hlt : f < p.frameLimit) :
    Searchable (p.clear f) ∧ (p.clear f).frameLimit = p.frameLimit := by
  have hcounted := h.counted.clear hlt
  unfold Pmm.clear at hcounted ⊢
  split
  next hused =>
    rw [if_pos hused] at hcounted
    refine ⟨⟨hcounted, ?_, fun g hg => ?_, h.idle⟩, rfl⟩
    · exact (if_neg (Ne.symm hf)).trans h.zero
    · have hg : p.frameLimit ≤ g := hg
      exact (if_neg (by omega)).trans (h.beyond g hg)
  · exact ⟨h, rfl⟩

theorem Searchable.clearRun (h : Searchable p) (hf : f ≠ 0) (n : Nat) (hlt : f + n ≤ p.frameLimit) :
    Searchable ((range n).foldl (fun p off => p.clear (f + off)) p) := by
  induction n with
  | zero => exact h
  | succ n ih =>
    have hlimit := (clearRun_spec p f n).2.2.2.1
    rw [range_succ, foldl_append]
    exact ((ih (by omega)).clear (by omega) (by rw [hlimit]; omega)).1

theorem Searchable.step {b : Books} (h : Searchable b.pmm) (c : PmmCall) :
    Searchable (b.step c).1.pmm := by
  cases c with
  | allocatePage =>
    rcases halloc : pmmAllocatePage b.pmm with ⟨p, _ | f⟩
    · simp only [Books.step, halloc, pmmAllocatePage_none halloc]
      exact h
    simp only [Books.step, halloc]
    obtain ⟨hu, rfl⟩ := pmmAllocatePage_some halloc
    have htake := h.takeRun Nat.one_ne_zero fun g hg => (inRun_one.mp hg).symm ▸ hu
    rwa [takeRun_one] at htake
  | allocateContiguous n =>
    rcases halloc : pmmAllocateContiguous b.pmm n with ⟨p, _ | f⟩
    · simp only [Books.step, halloc, pmmAllocateContiguous_none halloc]
      exact h
    · simp only [Books.step, halloc]
      obtain ⟨hn, hrun, rfl⟩ := pmmAllocateContiguous_some halloc
      exact h.takeRun hn hrun
  | frameRef f =>
    have hstep : Searchable (pmmFrameRef b.pmm f).1 := by
      unfold pmmFrameRef
      split
      · exact ⟨h.counted, h.zero, h.beyond, h.idle⟩
      · exact h
    rcases href : pmmFrameRef b.pmm f with ⟨p, _ | _⟩ <;> rw [href] at hstep <;>
      simpa only [Books.step, href] using hstep
  | freePage f =>
    have hstep : Searchable (pmmFreePage b.pmm f) := by
      unfold pmmFreePage
      split
      · exact h
      next hc =>
      simp only [Bool.or_eq_true, beq_iff_eq, decide_eq_true_eq, Bool.not_eq_true', not_or,
        Nat.not_le, Bool.not_eq_false] at hc
      split
      · exact ⟨h.counted, h.zero, h.beyond, h.idle⟩
      · have hclear := (h.clear hc.1.1 hc.1.2).1
        rwa [Pmm.clear, if_pos hc.2] at hclear
    simp only [Books.step]
    split
    · exact hstep
    · exact hstep
  | freeContiguous f n =>
    show Searchable (pmmFreeContiguous b.pmm f n)
    unfold pmmFreeContiguous
    split
    · exact h
    next hc =>
      simp only [Bool.or_eq_true, beq_iff_eq, decide_eq_true_eq, not_or, Nat.not_le,
        Nat.not_lt] at hc
      exact h.clearRun hc.1.1.2 n (by omega)

end Calls

/-! ## After boot -/

section Boot

variable {map : MemoryMap} {p : Pmm} {f g : Nat}

/-- The last frame below the limit is free, unless it is frame 0. -/
def TopFree (p : Pmm) : Prop := 2 ≤ p.frameLimit → p.used (p.frameLimit - 1) = false

theorem release_used (hg : p.used g = false ∨ g = f ∧ f ≠ 0) : (p.release f).used g = false := by
  unfold Pmm.release
  split
  next hc =>
    rcases hg with hg | ⟨rfl, hf⟩
    · exact hg
    · simpa [hf] using hc
  · show (if g = f then false else p.used g) = false
    split
    · rfl
    next hne => exact hg.resolve_right fun heq => hne heq.1

theorem releases_used (n : Nat) (hg : p.used g = false ∨ InRun f n g ∧ g ≠ 0) :
    ((range n).foldl (fun p k => p.release (f + k)) p).used g = false := by
  induction n with
  | zero => exact hg.resolve_right fun h => by unfold InRun at h; omega
  | succ n ih =>
    rw [range_succ, foldl_append]
    refine release_used ?_
    by_cases hlast : g = f + n
    · exact hg.elim (fun h => .inl (ih (.inl h))) fun h => .inr ⟨hlast, hlast ▸ h.2⟩
    · exact .inl (ih (hg.imp_right fun h => ⟨by unfold InRun at h ⊢; omega, h.2⟩))

theorem releases_limit (p : Pmm) (f n : Nat) :
    ((range n).foldl (fun p k => p.release (f + k)) p).frameLimit = p.frameLimit := by
  refine foldlRecOn (motive := fun q : Pmm => q.frameLimit = p.frameLimit) _ _ rfl
    fun q hq k _ => ?_
  unfold Pmm.release
  split
  · exact hq
  · exact hq

theorem TopFree.initEntry (h : TopFree p) (slot : Option MemmapEntry) :
    TopFree (p.initEntry slot) := by
  fun_cases Pmm.initEntry p slot with
  | case6 e _ _ _ hsome =>
    intro hlimit
    rw [releases_limit] at hlimit ⊢
    refine releases_used _ ?_
    simp only at hlimit ⊢
    split
    next hraise =>
      rw [if_pos hraise] at hlimit
      exact .inr ⟨by unfold InRun; omega, by omega⟩
    next hkeep =>
      rw [if_neg hkeep] at hlimit
      exact .inl (h hlimit)
  | _ => exact h

theorem TopFree.idle (h : TopFree p) (hcounted : Counted p.frameLimit p)
    (hfree : p.freeFrames = 0) : p.frameLimit ≤ 1 := by
  by_contra hlimit
  have htop := h (by omega)
  have hnone := tally_eq_zero.mp (hcounted.symm.trans hfree) (p.frameLimit - 1) (by omega)
  rw [htop] at hnone
  cases hnone

theorem searchable_pmmInit (mem : Nat → Page) (map : Option MemoryMap) (hhdm : Nat) :
    Searchable (pmmInit mem map hhdm) := by
  obtain ⟨hcounted, hzero, hbeyond, -, -⟩ := initialised_pmmInit mem map hhdm
  refine ⟨hcounted, hzero, hbeyond, ?_⟩
  unfold pmmInit
  split
  · exact fun _ => Nat.zero_le 1
  next entries =>
  split
  · exact fun _ => Nat.zero_le 1
  have htop : TopFree (entries.foldl Pmm.initEntry (Pmm.blank mem)) :=
    foldlRecOn entries Pmm.initEntry nofun fun _ h slot _ => h.initEntry slot
  have hread := ((booting_blank entries mem).entries fun _ hs => hs).initialised
  generalize entries.foldl Pmm.initEntry (Pmm.blank mem) = p at htop hread
  dsimp only
  split
  next hfree => exact fun _ => htop.idle hread.counted hfree
  -- an allocation leaves the allocator ready
  rcases halloc : pmmAllocateContiguous { p with ready := true } p.refPages with ⟨q, _ | f⟩
  · rw [pmmAllocateContiguous_none halloc]
    exact nofun
  · obtain ⟨-, -, rfl⟩ := pmmAllocateContiguous_some halloc
    exact nofun

end Boot

/-! ## Success -/

section Success

variable {p : Pmm} {f n : Nat}

/-- Free frames are counted, so that the call gets to its search. -/
theorem Searchable.counts (h : Searchable p) (hn : n ≠ 0) (hrun : FreeRun p f n) :
    p.ready = true ∧ p.freeFrames ≠ 0 ∧ n ≤ p.freeFrames := by
  obtain ⟨hf, hlimit, hfree⟩ := hrun
  have htally := tally_takeRun hfree hlimit
  have hcounted : p.freeFrames = _ := h.counted
  have hready : p.ready = true := by
    cases hr : p.ready with
    | true => rfl
    | false =>
      have := h.idle hr
      omega
  exact ⟨hready, by omega, by omega⟩

theorem Searchable.allocatePage (h : Searchable p) (hrun : FreeRun p f 1) :
    (pmmAllocatePage p).2 ≠ none := by
  obtain ⟨hready, hfree, -⟩ := h.counts Nat.one_ne_zero hrun
  obtain ⟨hf, hlimit, hused⟩ := hrun
  have hused := hused f (inRun_one.mpr rfl)
  rw [pmmAllocatePage, if_neg (by simp [hready, hfree])]
  split
  · exact nofun
  next hfirst =>
  split
  · exact nofun
  next hsecond =>
    by_cases hcursor : p.allocationCursor ≤ f
    · exact absurd hfirst (scanFree_ne_none hcursor (by omega) hused)
    · exact absurd hsecond (scanFree_ne_none hf (by omega) hused)

/-- A run is found if and only if one lies on one side of the cursor. -/
theorem Searchable.allocateContiguous_iff (h : Searchable p) (hn : n ≠ 0) :
    (pmmAllocateContiguous p n).2 ≠ none ↔
      ∃ f, FreeRun p f n ∧ (p.allocationCursor ≤ f ∨ f + n ≤ p.allocationCursor) := by
  constructor
  · intro hsome
    obtain ⟨f, hf⟩ := Option.ne_none_iff_exists'.mp hsome
    have halloc : pmmAllocateContiguous p n = (_, some f) := Prod.ext rfl hf
    obtain ⟨-, hrun, -⟩ := pmmAllocateContiguous_some halloc
    have hpos : f ≠ 0 := by
      rintro rfl
      have hclear := hrun 0 (by unfold InRun; omega)
      rw [h.zero] at hclear
      cases hclear
    refine ⟨f, ⟨by omega, run_le_limit h.beyond hn hrun, hrun⟩, ?_⟩
    unfold pmmAllocateContiguous at hf
    repeat' split at hf
    any_goals cases hf
    · omega
    next hscan => exact .inl (scanRun_bounds hscan).1
    next hscan => exact .inr (scanRun_bounds hscan).2
  · rintro ⟨f, hrun, hside⟩
    obtain ⟨hready, hfree, hcount⟩ := h.counts hn hrun
    rw [pmmAllocateContiguous, if_neg (by simp [hready, hfree, hn])]
    split
    next hone => exact h.allocatePage (hone ▸ hrun)
    obtain ⟨hf, hlimit, hused⟩ := hrun
    rw [if_neg (by omega)]
    split
    · exact nofun
    next hfirst =>
    split
    · exact nofun
    next hsecond =>
      rcases hside with hside | hside
      · exact absurd hfirst (scanRun_ne_none hn (by omega) hside hlimit hused)
      · exact absurd hsecond (scanRun_ne_none hn (by omega) hf hside hused)

end Success

/--
After any calls: the allocator gives `n + 1` frames whenever that many usable ones in a row are
free, and a page whenever one is, if and only if in this case such a run does not have the cursor in
its middle.
-/
theorem allocation_complete_iff
    (mem : Nat → Page)
    (map : Option MemoryMap)
    (hhdm : Nat)
    (calls : List PmmCall)
    (n : Nat) :
    let p := (Run.run step (boot mem map hhdm) calls).1.pmm
    let usable := fun k => ∃ f, FreeRun p f k ∧ ∀ g, InRun f k g → UsableIn (map.getD []) g
    ((usable (n + 1) → (pmmAllocateContiguous p (n + 1)).2 ≠ none) ∧
      (usable 1 → (pmmAllocatePage p).2 ≠ none)) ↔
    (usable (n + 1) → ∃ f, FreeRun p f (n + 1) ∧
      (p.allocationCursor ≤ f ∨ f + (n + 1) ≤ p.allocationCursor)) := by
  intro p usable
  have hp : Searchable p :=
    Run.run_induction step (fun _ b => Searchable b.pmm) (fun _ _ c h => h.step c)
      (searchable_pmmInit mem map hhdm) calls
  rw [← hp.allocateContiguous_iff (Nat.succ_ne_zero n)]
  exact ⟨And.left, fun h => ⟨h, fun ⟨_, hrun, _⟩ => hp.allocatePage hrun⟩⟩

/--
Whatever has been called, frees of frames that nobody has included: the counter is the number of
free frames, and frames that are given were free, none of them frame 0 or beyond the limit.
-/
theorem allocated_frames_were_free
    (mem : Nat → Page)
    (map : Option MemoryMap)
    (hhdm : Nat)
    (calls : List PmmCall) :
    let p := (Run.run step (boot mem map hhdm) calls).1.pmm
    p.freeFrames = (range p.frameLimit).countP (fun f => !p.used f) ∧
    (∀ f, (pmmAllocatePage p).2 = some f → FreeRun p f 1) ∧
    ∀ n f, (pmmAllocateContiguous p n).2 = some f → FreeRun p f n := by
  intro p
  have hp : Searchable p :=
    Run.run_induction step (fun _ b => Searchable b.pmm) (fun _ _ c h => h.step c)
      (searchable_pmmInit mem map hhdm) calls
  have hgiven : ∀ n f, n ≠ 0 → (∀ g, InRun f n g → p.used g = false) → FreeRun p f n := by
    refine fun n f hn hrun => ⟨Nat.pos_of_ne_zero ?_, run_le_limit hp.beyond hn hrun, hrun⟩
    rintro rfl
    exact Bool.false_ne_true ((hrun 0 (by unfold InRun; omega)).symm.trans hp.zero)
  refine ⟨?_, fun f hf => ?_, fun n f hf => ?_⟩
  · rw [countP_range_eq_tally]
    exact hp.counted
  · obtain ⟨hused, -⟩ := pmmAllocatePage_some (Prod.ext rfl hf)
    exact hgiven 1 f Nat.one_ne_zero fun g hg => inRun_one.mp hg ▸ hused
  · obtain ⟨hn, hrun, -⟩ := pmmAllocateContiguous_some (Prod.ext rfl hf)
    exact hgiven n f hn hrun

/-- Five usable frames and a part of another one. -/
def fiveFrames : MemoryMap := [some ⟨4000, 20576, limineMemmapUsable, by decide, by decide⟩]

/-- Frames 2 to 5 are free again and the cursor is at 3. -/
def splitByCursor : List PmmCall :=
  [.allocatePage, .allocatePage, .freePage 2, .allocateContiguous 2, .freeContiguous 4 2,
    .freePage 3]

theorem allocation_misses_run :
    let b := (Run.run step (boot (fun _ _ => 0) (some fiveFrames) 1) splitByCursor).1
    (FreeRun b.pmm 2 4 ∧ ∀ g, InRun 2 4 g → UsableIn fiveFrames g) ∧
      (pmmAllocateContiguous b.pmm 4).2 = none := by
  refine ⟨⟨⟨by decide, by decide, fun g hg => ?_⟩, fun g hg => ?_⟩, by decide⟩
  · obtain rfl | rfl | rfl | rfl : g = 2 ∨ g = 3 ∨ g = 4 ∨ g = 5 := by
      unfold InRun at hg
      omega
    all_goals decide
  · unfold InRun at hg
    exact ⟨_, mem_singleton.mpr rfl, rfl, show 4000 ≤ g * 4096 by omega,
      show (g + 1) * 4096 ≤ 4000 + 20576 by omega⟩

end PureCOS.Mm
