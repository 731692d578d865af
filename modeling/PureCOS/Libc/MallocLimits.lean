import PureCOS.Libc.MallocSound

/-!
# Requests at the limits, and alignment

Two things that the heap does not do.  A request is rounded up to 16 bytes, and a header is added to
it, without a test whether the sums wrap.  So requests near 2^64 get blocks that are far too small,
unless there is nothing to be had.

Payloads are to be aligned to 16 bytes, and all sizes are, but the header in front of a payload has
24 bytes.  So the first block of every region is aligned to 8 bytes only.
-/

namespace PureCOS.Libc

open List Buffer Run Session Heap

/-! ## Requests of all sizes -/

/-- The system does not hand out the first page. -/
def Grow.Paged (grow : Grow) : Prop := ∀ request region, grow request = some region → 4096 ≤ region

def Heap.Paged (h : Heap) : Prop := ∀ r ∈ h.regions, 4096 ≤ r.1

/-- What programs and system may do: requests are any numbers of type `size_t`. -/
def Session.Asks (s : Session) : Event → Prop
  | .malloc size grow => size < 2 ^ 64 ∧ s.heap.Grows grow ∧ grow.Paged
  | .calloc count size grow => (count < 2 ^ 64 ∧ size < 2 ^ 64) ∧ s.heap.Grows grow ∧ grow.Paged
  | .realloc pointer size grow =>
    (pointer = 0 ∨ (s.live pointer).isSome) ∧ size < 2 ^ 64 ∧ s.heap.Grows grow ∧ grow.Paged
  | .free pointer => pointer = 0 ∨ (s.live pointer).isSome
  | .store a _ => s.live.Owns a ∨ ¬s.heap.Obtained a

/--
The result of a request for `n` bytes is null and nothing has changed, or a block that has them.
-/
def Honest (h : Heap) (r : Heap × Nat) (n : Nat) : Prop :=
  (r.2 = 0 → r.1 = h) ∧
  (r.2 ≠ 0 → ∃ blocks b, Tiles r.1 blocks ∧ b ∈ blocks ∧ b.free = false ∧
    r.2 = b.addr + headerSize ∧ n ≤ b.size)

def Session.Honest (s : Session) : Event → Prop
  | .malloc size grow => Libc.Honest s.heap (s.heap.malloc grow size) size
  | .calloc count size grow => Libc.Honest s.heap (s.heap.calloc grow count size) (count * size)
  | .realloc pointer size grow => Libc.Honest s.heap (s.heap.realloc grow pointer size) size
  | .free _ => True
  | .store _ _ => True

/-- Requests that are small enough, or get nothing.  `realloc` to no bytes frees the block. -/
def Session.Serves (s : Session) : Event → Prop
  | .malloc size grow => s.heap.Serves grow size
  | .calloc count size grow => 2 ^ 64 ≤ count * size ∨ s.heap.Serves grow (count * size)
  | .realloc pointer size grow =>
    if pointer = 0 then s.heap.Serves grow size
    else size ≠ 0 ∧ (size ≤ requestMax ∨ size ≤ 2 ^ 64 - 16 ∧ s.heap.Refuses grow size)
  | .free _ => True
  | .store _ _ => True

section Limits

variable {h : Heap} {blocks : List Block} {b : Block} {grow : Grow} {size : Nat} {s : Session}

/-- No block is as large as the address space. -/
theorem Tiles.size_le (ht : Tiles h blocks) (hpaged : h.Paged) (hb : b ∈ blocks) :
    4096 ≤ b.addr ∧ b.size ≤ requestMax := by
  have hlt := b.addr_lt_stop
  obtain ⟨r, hr, hlow, -⟩ := (ht.covers b.addr).mpr ⟨b, hb, Nat.le_refl _, by omega⟩
  have hpage := hpaged r hr
  have hsmall := ht.tidy.small b hb
  unfold Block.stop headerSize at hsmall
  unfold requestMax
  omega

theorem paged_malloc (hpaged : h.Paged) (hgrow : grow.Paged) (size : Nat) :
    (h.malloc grow size).1.Paged := by
  have hextend : ∀ need, (h.mallocExtend grow need).1.Paged := by
    intro need
    unfold mallocExtend
    cases hregion : grow (extendRequest need) with
    | none => exact hpaged
    | some region =>
      have hall : ∀ r ∈ h.regions ++ [(region, extendRequest need)], 4096 ≤ r.1 := by
        intro r hr
        rcases mem_append.mp hr with hr | hr
        · exact hpaged r hr
        · rw [mem_singleton.mp hr]
          exact hgrow _ _ hregion
      dsimp only
      split
      · exact hall
      · exact hall
  unfold malloc
  simp only
  generalize mallocAlignUp (if size = 0 then 1 else size) = aligned
  by_cases hfit : fitLoop h.passes h.mem h.head aligned = 0
  · rw [if_pos hfit]
    split
    · exact hextend aligned
    · exact hextend aligned
  · rw [if_neg hfit]
    split
    · exact hpaged
    · exact hpaged

theorem paged_free (hpaged : h.Paged) (p : Nat) : (h.free p).Paged := by
  unfold free
  split
  · exact hpaged
  · exact hpaged

theorem paged_calloc (hpaged : h.Paged) (hgrow : grow.Paged) (count size : Nat) :
    (h.calloc grow count size).1.Paged := by
  have hmalloc := paged_malloc hpaged hgrow (count * size)
  unfold calloc
  split
  · exact hpaged
  simp only
  split
  · exact hmalloc
  · exact hmalloc

theorem paged_relocate (hpaged : h.Paged) (hgrow : grow.Paged) (p size : Nat) :
    (h.relocate grow p size).1.Paged := by
  have hmalloc := paged_malloc hpaged hgrow size
  unfold relocate
  simp only
  split
  · exact hmalloc
  · refine paged_free ?_ p
    exact hmalloc

theorem paged_realloc (hpaged : h.Paged) (hgrow : grow.Paged) (p size : Nat) :
    (h.realloc grow p size).1.Paged := by
  unfold realloc
  split
  · exact paged_malloc hpaged hgrow size
  split
  · exact paged_free hpaged p
  simp only
  split
  · exact hpaged
  split
  · exact hpaged
  · exact paged_relocate hpaged hgrow p size

/-- A null pointer means that there was nothing to be had. -/
theorem refuses_of_malloc (hgrow : grow.Paged) (hnull : (h.malloc grow size).2 = 0) :
    h.Refuses grow size := by
  unfold malloc at hnull
  unfold Heap.Refuses
  simp only at hnull ⊢
  generalize mallocAlignUp (if size = 0 then 1 else size) = aligned at hnull ⊢
  by_cases hfit : fitLoop h.passes h.mem h.head aligned = 0
  · refine ⟨hfit, ?_⟩
    rw [if_pos hfit] at hnull
    cases hregion : grow (extendRequest aligned) with
    | none => rfl
    | some region =>
      have hpage := hgrow _ _ hregion
      have hblock : (h.mallocExtend grow aligned).2 = region := by
        unfold mallocExtend
        rw [hregion]
        by_cases hhead : h.head = 0
        · simp [hhead]
        · simp [hhead]
      rw [hblock, if_neg (by omega)] at hnull
      omega
  · rw [if_neg hfit] at hnull
    simp only [if_neg hfit] at hnull
    omega

/-- A request that is too large gets nothing, or too little. -/
theorem Honest.null {r : Heap × Nat} (hhonest : Honest h r size) (hpaged : r.1.Paged)
    (hsize : requestMax < size) : r.2 = 0 := by
  by_contra hne
  obtain ⟨blocks, b, ht, hb, -, -, hlarge⟩ := hhonest.2 hne
  have hle := (ht.size_le hpaged hb).2
  omega

theorem Gives.honest {P : Block → Prop} {r : Heap × Nat} {blocks' : List Block}
    (hgives : Gives P h blocks r size blocks' b) :
    Honest h r size := by
  have hptr := hgives.pointer
  unfold headerSize at hptr
  exact ⟨fun hnull => by omega,
    fun _ => ⟨blocks', b, hgives.tiles, hgives.mem, hgives.used, hgives.pointer, hgives.large⟩⟩

theorem honest_null (h : Heap) (size : Nat) : Honest h (h, 0) size :=
  ⟨fun _ => rfl, fun hne => absurd rfl hne⟩

theorem malloc_honest_iff (ht : Tiles h blocks) (hpaged : h.Paged) (hgrows : h.Grows grow)
    (hgrow : grow.Paged) : Honest h (h.malloc grow size) size ↔ h.Serves grow size := by
  constructor
  · intro hhonest
    by_cases hsize : size ≤ requestMax
    · exact .inl hsize
    · have hnull := hhonest.null (paged_malloc hpaged hgrow size) (by omega)
      exact .inr (refuses_of_malloc hgrow hnull)
  · intro hserves
    rcases malloc_spec ht hgrows hserves with hfail | ⟨blocks', b, hgives⟩
    · rw [hfail]
      exact honest_null h size
    · exact hgives.honest

theorem calloc_honest_iff {count : Nat} (ht : Tiles h blocks) (hpaged : h.Paged)
    (hgrows : h.Grows grow) (hgrow : grow.Paged) :
    Honest h (h.calloc grow count size) (count * size) ↔ 2 ^ 64 ≤ count * size ∨
      h.Serves grow (count * size) := by
  constructor
  · intro hhonest
    by_cases hsize : count * size ≤ requestMax
    · exact .inr (.inl hsize)
    have hnull := hhonest.null (paged_calloc hpaged hgrow count size) (by omega)
    unfold calloc at hnull
    split at hnull
    next hlarge =>
      left
      have hlt := (Nat.div_lt_iff_lt_mul (Nat.pos_of_ne_zero hlarge.1)).mp hlarge.2
      rw [Nat.mul_comm] at hlt
      omega
    · right
      right
      refine refuses_of_malloc hgrow ?_
      simp only at hnull
      split at hnull
      · exact hnull
      · exact hnull
  · intro hserves
    rcases calloc_spec ht hgrows hserves with hfail | ⟨blocks', b, hgives, -⟩
    · rw [hfail]
      exact honest_null h _
    · exact hgives.honest

/-- `free` does change a block. -/
theorem free_ne (ht : Tiles h blocks) (hb : b ∈ blocks) (hused : b.free = false) :
    h.free (b.addr + headerSize) ≠ h := by
  intro hsame
  obtain ⟨blocks', ht', -, hfree⟩ := free_spec ht hb
  rw [hsame] at ht'
  have hcell : ∀ x y : Block, blockCells.holds h.mem x → blockCells.holds h.mem y →
      x.addr = y.addr → x = y := by
    rintro ⟨a, n, f⟩ ⟨a', n', f'⟩ ⟨hn, hf⟩ ⟨hn', hf'⟩ rfl
    rw [show n = n' from hn.symm.trans hn', show f = f' from hf.symm.trans hf']
  have heq := ht.linked.unique hcell ht'.linked
  rw [hfree b (heq ▸ hb) rfl] at hused
  cases hused

/-- Where a request wraps, `realloc` gives back the block as it is. -/
theorem realloc_wrapped (hsize : 2 ^ 64 - 16 < size) (hlt : size < 2 ^ 64) :
    h.realloc grow (b.addr + headerSize) size = (h, b.addr + headerSize) := by
  have haligned : mallocAlignUp size = 0 := by
    unfold mallocAlignUp mallocAlign
    omega
  unfold realloc
  rw [if_neg (by unfold headerSize; omega), if_neg (by omega)]
  simp only [haligned]
  rw [if_pos (Nat.zero_le _)]

/-- Too large for any block, but not for the sums: `realloc` does what `malloc` does. -/
theorem realloc_huge (ht : Tiles h blocks) (hpaged : h.Paged) (hb : b ∈ blocks)
    (hsize : requestMax < size) (hle : size ≤ 2 ^ 64 - 16) :
    h.realloc grow (b.addr + headerSize) size = h.relocate grow (b.addr + headerSize) size := by
  have haligned := (mallocAlignUp_bounds hle).1
  have hfits := ht.size_le hpaged hb
  have hholds := ht.holds hb
  unfold realloc
  rw [if_neg (by unfold headerSize; omega), if_neg (by omega)]
  simp only [Nat.add_sub_cancel, hholds.1]
  rw [if_neg (by omega), if_neg]
  rintro ⟨hnext, -, hend, hroom⟩
  obtain ⟨xs, c, ys, rfl, hc⟩ := ht.next_of_mem hb hnext
  have hmem : c ∈ xs ++ ([b, c] ++ ys) :=
    mem_append_right _ (mem_append_left _ (mem_cons_of_mem _ mem_cons_self))
  rw [hc] at hend hroom
  rw [(ht.holds hmem).1] at hroom
  have hsmall := ht.tidy.small c hmem
  unfold Block.stop requestMax headerSize at *
  omega

theorem relocate_refused (hrefuses : h.Refuses grow size) (p : Nat) :
    h.relocate grow p size = (h, 0) := by
  simp only [relocate, malloc_refused hrefuses, if_true]

theorem realloc_honest_iff (ht : Tiles h blocks) (hpaged : h.Paged) (hgrows : h.Grows grow)
    (hgrow : grow.Paged) (hb : b ∈ blocks) (hused : b.free = false) (hlt : size < 2 ^ 64) :
    Honest h (h.realloc grow (b.addr + headerSize) size) size ↔ size ≠ 0 ∧
      (size ≤ requestMax ∨ size ≤ 2 ^ 64 - 16 ∧ h.Refuses grow size) := by
  have hne : b.addr + headerSize ≠ 0 := by
    unfold headerSize
    omega
  by_cases hzero : size = 0
  · subst hzero
    refine iff_of_false (fun hhonest => ?_) fun hserves => hserves.1 rfl
    have hfree : h.realloc grow (b.addr + headerSize) 0 = (h.free (b.addr + headerSize), 0) := by
      unfold realloc
      rw [if_neg hne, if_pos rfl]
    rw [hfree] at hhonest
    exact free_ne ht hb hused (hhonest.1 rfl)
  by_cases hsize : size ≤ requestMax
  · refine iff_of_true ?_ ⟨hzero, .inl hsize⟩
    rcases realloc_spec ht hgrows hb hused hzero hsize with hfail | ⟨blocks', c, hgives, -⟩
    · rw [hfail]
      exact honest_null h size
    · exact hgives.honest
  by_cases hwraps : size ≤ 2 ^ 64 - 16
  · rw [realloc_huge ht hpaged hb (by omega) hwraps]
    constructor
    · intro hhonest
      refine ⟨hzero, .inr ⟨hwraps, refuses_of_malloc hgrow ?_⟩⟩
      have hnull := hhonest.null (paged_relocate hpaged hgrow _ size) (by omega)
      unfold relocate at hnull
      simp only at hnull
      split at hnull
      · exact hnull
      · exact hnull
    · rintro ⟨-, hsmall | ⟨-, hrefuses⟩⟩
      · exact absurd hsmall hsize
      rw [relocate_refused hrefuses]
      exact honest_null h size
  · rw [realloc_wrapped (by omega) hlt]
    refine iff_of_false (fun hhonest => ?_) fun hserves => ?_
    · exact hne (hhonest.null hpaged (by omega))
    · rcases hserves.2 with hsmall | ⟨hle, -⟩
      · exact hsize hsmall
      · exact hwraps hle

end Limits

/-! ## Runs -/

section Runs

variable {s : Session} {e : Event}

/-- What holds in a run whose requests are served. -/
structure Session.Regular (s : Session) : Prop where
  valid : s.Valid
  paged : s.heap.Paged

/-- A call is honest just if it is served. -/
theorem honest_iff (hs : s.Regular) (he : s.Asks e) : s.Honest e ↔ s.Serves e := by
  obtain ⟨⟨blocks, ht, hlive⟩, hpaged⟩ := hs
  cases e with
  | malloc size grow => exact malloc_honest_iff ht hpaged he.2.1 he.2.2
  | calloc count size grow => exact calloc_honest_iff ht hpaged he.2.1 he.2.2
  | realloc pointer size grow =>
    obtain ⟨hptr, hlt, hgrows, hgrow⟩ := he
    simp only [Session.Honest, Session.Serves]
    by_cases hnull : pointer = 0
    · subst hnull
      rw [if_pos rfl]
      exact malloc_honest_iff ht hpaged hgrows hgrow
    rw [if_neg hnull]
    obtain ⟨bytes, hp⟩ := Option.isSome_iff_exists.mp (hptr.resolve_left hnull)
    obtain ⟨b, hb, hused, rfl, -⟩ := hlive pointer bytes hp
    exact realloc_honest_iff ht hpaged hgrows hgrow hb hused hlt
  | free pointer => exact Iff.rfl
  | store a v => exact Iff.rfl

theorem step_realloc_heap (s : Session) (pointer size : Nat) (grow : Grow) :
    (s.step (.realloc pointer size grow)).1.heap = (s.heap.realloc grow pointer size).1 := by
  simp only [step]
  split
  · rfl
  · split
    · rfl
    · rfl

/-- A call that is served keeps what holds. -/
theorem regular_step (hs : s.Regular) (he : s.Asks e) (hserves : s.Serves e) :
    (s.step e).1.Regular := by
  obtain ⟨hvalid, hpaged⟩ := hs
  cases e with
  | malloc size grow =>
    exact ⟨(keeping_malloc hvalid he.2.1 hserves).2, paged_malloc hpaged he.2.2 size⟩
  | calloc count size grow =>
    exact ⟨(keeping_calloc hvalid he.2.1 hserves).2, paged_calloc hpaged he.2.2 count size⟩
  | realloc pointer size grow =>
    obtain ⟨hptr, hlt, hgrows, hgrow⟩ := he
    obtain ⟨blocks, ht, hlive⟩ := hvalid
    refine ⟨?_, by rw [step_realloc_heap]; exact paged_realloc hpaged hgrow pointer size⟩
    simp only [Session.Serves] at hserves
    by_cases hnull : pointer = 0
    · subst hnull
      rw [if_pos rfl] at hserves
      rw [step_realloc_null hlive.zero]
      exact (keeping_malloc ⟨blocks, ht, hlive⟩ hgrows hserves).2
    rw [if_neg hnull] at hserves
    obtain ⟨hsize, hsmall | ⟨hle, hrefuses⟩⟩ := hserves
    · exact (keeping_realloc ⟨blocks, ht, hlive⟩ hptr hgrows hsmall).2
    obtain ⟨bytes, hp⟩ := Option.isSome_iff_exists.mp (hptr.resolve_left hnull)
    obtain ⟨b, hb, hused, rfl, -⟩ := hlive pointer bytes hp
    by_cases hsmall : size ≤ requestMax
    · exact (keeping_realloc ⟨blocks, ht, hlive⟩ hptr hgrows hsmall).2
    have hfail : s.heap.realloc grow (b.addr + headerSize) size = (s.heap, 0) := by
      rw [realloc_huge ht hpaged hb (by omega) hle, relocate_refused hrefuses]
    have hsame : (s.step (.realloc (b.addr + headerSize) size grow)).1 = s := by
      simp [step, hfail, hp, hsize]
    rw [hsame]
    exact ⟨blocks, ht, hlive⟩
  | free pointer =>
    exact ⟨(keeping_free hvalid he).2, paged_free hpaged pointer⟩
  | store a v => exact ⟨(keeping_store hvalid he).2, hpaged⟩

/--
Requests of every size.  In every run whose calls so far were served, the next call with any numbers
of type `size_t` has an honest result exactly if it is served: the rounded request with its header
does not wrap, that is, at most 2^64 - 48 bytes are requested, or nothing is handed out.
-/
theorem requests_honest_iff
    {m : Buffer}
    {events : List Event}
    {e : Event}
    (hrun : Run.Along step (fun s e => s.Asks e ∧ s.Serves e) (start m) events)
    (he : (run step (start m) events).1.Asks e) :
    (run step (start m) events).1.Honest e ↔
      (run step (start m) events).1.Serves e := by
  have hregular :=
    run_induction_of step (fun s e => s.Asks e ∧ s.Serves e) (fun _ s => s.Regular)
      (fun _ _ _ he hs => regular_step hs he.1 he.2) ⟨valid_start m, nofun⟩ hrun
  exact honest_iff hregular he

/-- A system with one region of 64 kB. -/
def oneRegion : Grow := fun request => if request ≤ 65536 then some 65536 else none

theorem oneRegion_grows (m : Buffer) : (start m).heap.Grows oneRegion ∧ oneRegion.Paged := by
  constructor
  · intro request region hregion
    unfold oneRegion at hregion
    split at hregion
    · cases hregion
      exact ⟨by decide, by omega, nofun⟩
    · cases hregion
  · intro request region hregion
    unfold oneRegion at hregion
    split at hregion
    · cases hregion
      decide
    · cases hregion

/-- A thousand bytes, when ten have been handed out and the system has no more. -/
theorem requests_honest_iff_thousand :
    (run step (start zero) [.malloc 10 oneRegion]).1.Honest
      (.malloc 1000 fun _ => none) := by
  have hrun : Run.Along step (fun s e => s.Asks e ∧ s.Serves e)
      (start zero) [.malloc 10 oneRegion] :=
    ⟨⟨⟨by decide, oneRegion_grows _⟩, .inl (by decide)⟩, trivial⟩
  have hasks : (run step (start zero) [.malloc 10 oneRegion]).1.Asks
      (.malloc 1000 fun _ => none) := ⟨by decide, nofun, nofun⟩
  exact (requests_honest_iff hrun hasks).mpr (.inl (by decide))

/-- 2^64 - 1 bytes: the request is rounded up to 0, and a block of 0 bytes is handed out. -/
theorem malloc_hands_out_nothing :
    let r := (start zero).heap.malloc oneRegion (2 ^ 64 - 1)
    r.2 = 65560 ∧ blockSize r.1.mem (r.2 - headerSize) = 0 := by
  decide

end Runs

/-! ## Alignment -/

/-- The system hands out regions that are aligned to 16 bytes; programs give back what they have. -/
def Session.Aligns (s : Session) : Event → Prop
  | .malloc _ grow => ∀ request region, grow request = some region → 0 < region ∧ 16 ∣ region
  | .calloc _ _ grow => ∀ request region, grow request = some region → 0 < region ∧ 16 ∣ region
  | .realloc pointer _ grow => (pointer = 0 ∨ (s.live pointer).isSome) ∧
      ∀ request region, grow request = some region → 0 < region ∧ 16 ∣ region
  | .free pointer => pointer = 0 ∨ (s.live pointer).isSome
  | .store _ _ => True

/-- The system has no region for a request. -/
def Grow.Refuses (grow : Grow) (size : Nat) : Prop :=
  grow (extendRequest (mallocAlignUp (if size = 0 then 1 else size))) = none

/-- An event that gets no block: the system refuses, or the product of `calloc` is too large. -/
def Event.Refused : Event → Prop
  | .malloc size grow => grow.Refuses size
  | .calloc count size grow =>
    (count ≠ 0 ∧ (2 ^ 64 - 1) / count < size) ∨ grow.Refuses (count * size)
  | .realloc _ size grow => grow.Refuses size
  | .free _ => True
  | .store _ _ => True

/-- No block has been handed out. -/
structure Session.Untouched (s : Session) : Prop where
  head : s.heap.head = 0
  live : ∀ p, s.live p = none

section Alignment

variable {s : Session} {e : Event} {grow : Grow}

/-- The first block is at the start of a region, and its payload 24 bytes behind. -/
theorem malloc_untouched (hs : s.Untouched)
    (hgrow : ∀ request region, grow request = some region → 0 < region ∧ 16 ∣ region)
    (size : Nat) :
    (grow.Refuses size ∧ s.heap.malloc grow size = (s.heap, 0)) ∨
      (¬grow.Refuses size ∧ ¬16 ∣ (s.heap.malloc grow size).2) := by
  have hfit : ∀ aligned, fitLoop s.heap.passes s.heap.mem s.heap.head aligned = 0 := by
    intro aligned
    rw [hs.head, passes, fitLoop, if_pos rfl]
  unfold malloc Grow.Refuses
  simp only [hfit, if_true]
  generalize mallocAlignUp (if size = 0 then 1 else size) = aligned
  unfold mallocExtend
  cases hregion : grow (extendRequest aligned) with
  | none => exact .inl ⟨rfl, rfl⟩
  | some region =>
    obtain ⟨hpos, haligned⟩ := hgrow _ _ hregion
    refine .inr ⟨Option.some_ne_none _, ?_⟩
    simp only [hs.head, if_true]
    rw [if_neg (by omega)]
    simp only [headerSize]
    omega

/-- A refused event changes nothing and returns null; any other returns a misaligned pointer. -/
theorem step_untouched (hs : s.Untouched) (he : s.Aligns e) :
    (e.Refused ∧ (s.step e).1.Untouched ∧ ∀ p ∈ (s.step e).2, 16 ∣ p) ∨
      (¬e.Refused ∧ ∃ p ∈ (s.step e).2, ¬16 ∣ p) := by
  have hmalloc : ∀ size grow, s.Aligns (.malloc size grow) →
      (grow.Refuses size ∧ (s.step (.malloc size grow)).1.Untouched ∧
          ∀ p ∈ (s.step (.malloc size grow)).2, 16 ∣ p) ∨
        (¬grow.Refuses size ∧ ∃ p ∈ (s.step (.malloc size grow)).2, ¬16 ∣ p) := by
    intro size grow hgrow
    rcases malloc_untouched hs hgrow size with ⟨hrefuses, hfail⟩ | ⟨hserves, hbad⟩
    · refine .inl ⟨hrefuses, ?_⟩
      simp only [step, hfail]
      exact ⟨⟨hs.head, by simp [Ledger.add, hs.live]⟩, by simp⟩
    · exact .inr ⟨hserves, _, mem_singleton.mpr rfl, hbad⟩
  cases e with
  | malloc size grow => exact hmalloc size grow he
  | calloc count size grow =>
    by_cases hover : count ≠ 0 ∧ (2 ^ 64 - 1) / count < size
    · refine .inl ⟨.inl hover, ?_⟩
      simp only [step, calloc, if_pos hover]
      exact ⟨⟨hs.head, by simp [Ledger.add, hs.live]⟩, by simp⟩
    rcases malloc_untouched hs he (count * size) with ⟨hrefuses, hfail⟩ | ⟨hserves, hbad⟩
    · refine .inl ⟨.inr hrefuses, ?_⟩
      simp only [step, calloc, if_neg hover, hfail, if_true]
      exact ⟨⟨hs.head, by simp [Ledger.add, hs.live]⟩, by simp⟩
    have hne : (s.heap.malloc grow (count * size)).2 ≠ 0 := by
      intro hzero
      exact hbad (hzero ▸ Nat.dvd_zero 16)
    refine .inr ⟨fun hrefused => hrefused.elim hover hserves, _, ?_, hbad⟩
    simp only [step, calloc, if_neg hover, if_neg hne, mem_singleton]
  | realloc pointer size grow =>
    have hnull : pointer = 0 := by simpa [hs.live] using he.1
    subst hnull
    rw [step_realloc_null (hs.live 0)]
    exact hmalloc size grow he.2
  | free pointer =>
    have hnull : pointer = 0 := by simpa [Session.Aligns, hs.live] using he
    subst hnull
    refine .inl ⟨trivial, ⟨hs.head, ?_⟩, by simp [step]⟩
    simp [step, Ledger.drop, Function.update_apply, hs.live]
  | store a v =>
    refine .inl ⟨trivial, ⟨hs.head, ?_⟩, by simp [step]⟩
    simp [step, Ledger.store, hs.live]

/--
Alignment.  In every run in which the system hands out regions at multiples of 16, all pointers
are multiples of 16 exactly if every request is refused: the system has no region for it, or the
product of `calloc` is too large.
-/
theorem pointers_aligned_iff
    {m : Buffer}
    {events : List Event}
    (hrun : Run.Along step Session.Aligns (start m) events) :
    (∀ p ∈ (run step (start m) events).2, 16 ∣ p) ↔
      ∀ e ∈ events, e.Refused := by
  have hstart : (start m).Untouched := ⟨rfl, fun _ => rfl⟩
  generalize start m = s at hrun hstart
  induction events generalizing s with
  | nil => simp [run]
  | cons e events ih =>
    simp only [run, forall_mem_append, forall_mem_cons]
    rcases step_untouched hstart hrun.1 with ⟨hrefused, hs, haligned⟩ | ⟨hserved, p, hp, hbad⟩
    · exact and_congr (iff_of_true haligned hrefused) (ih _ hrun.2 hs)
    · exact iff_of_false (fun h => hbad (h.1 p hp)) fun h => hserved h.1

/-- The system refuses a request, and the product of the other is too large. -/
theorem pointers_aligned_iff_refused :
    let events : List Event := [.malloc 100 fun _ => none, .calloc (2 ^ 63) 2 oneRegion]
    (∀ e ∈ events, e.Refused) ∧
      ∀ p ∈ (run step (start zero) events).2, 16 ∣ p := by
  intro events
  have hregion : ∀ request region, oneRegion request = some region → 0 < region ∧ 16 ∣ region := by
    intro request region hregion
    unfold oneRegion at hregion
    split at hregion <;> cases hregion
    decide
  have hrun : Run.Along step Session.Aligns (start zero) events :=
    ⟨nofun, hregion, trivial⟩
  have hrefused : ∀ e ∈ events, e.Refused :=
    forall_mem_cons.mpr ⟨rfl, forall_mem_singleton.mpr (.inl (by decide))⟩
  exact ⟨hrefused, (pointers_aligned_iff hrun).mpr hrefused⟩

/-- The first block of a region at 65536 is at 65560. -/
theorem first_pointer_misaligned :
    16 ∣ 65536 ∧ (run step (start zero) [.malloc 100 oneRegion]).2 = [65560] ∧
      ¬16 ∣ 65560 := by
  decide

end Alignment

end PureCOS.Libc
