import PureCOS.Libc.MallocBlocks

/-!
# The heap is sound

Every call keeps the list of blocks in order and leaves all live blocks but its own as they are.
So whatever a program does with its pointers, the blocks of the list tile what the system has handed
out, and live blocks have the contents that their owners have given them.
-/

namespace PureCOS.Libc

open Buffer List Function Session Heap

section Calls

variable {h : Heap} {m' : Buffer} {blocks xs ys : List Block} {b c : Block} {grow : Grow}
  {need size p : Nat}

theorem mallocAlignUp_bounds {value : Nat} (h : value ≤ 2 ^ 64 - 16) : value ≤ mallocAlignUp value ∧
    mallocAlignUp value ≤ value + 15 ∧ mallocAlignUp value % 16 = 0 := by
  unfold mallocAlignUp mallocAlign
  rw [Nat.mod_eq_of_lt (by omega)]
  omega

theorem extendRequest_bounds (hneed : need ≤ requestMax) :
    need + headerSize ≤ extendRequest need := by
  unfold requestMax at hneed
  unfold extendRequest headerSize mallocArena
  rw [Nat.mod_eq_of_lt (show need + 24 < 2 ^ 64 by omega)]
  have halign := (mallocAlignUp_bounds (show max (need + 24) 65536 ≤ 2 ^ 64 - 16 by omega)).1
  omega

/-- A change that leaves the headers alone. -/
theorem Tiles.of_sameHeader (ht : Tiles h blocks)
    (hsame : ∀ b ∈ blocks, SameHeader h.mem m' b.addr) : Tiles { h with mem := m' } blocks :=
  ⟨linked_of_sameHeader ht.linked hsame, ht.tidy, ht.covers, ht.space⟩

/-- Blocks lie below a new region. -/
theorem Tiles.stop_le (ht : Tiles h blocks) {region : Nat}
    (hbelow : ∀ r ∈ h.regions, r.1 + r.2 ≤ region) (hb : b ∈ blocks) : b.stop ≤ region := by
  have hlt := b.addr_lt_stop
  obtain ⟨r, hr, -, hend⟩ := (ht.covers (b.stop - 1)).mpr ⟨b, hb, by omega, by omega⟩
  have hregion := hbelow r hr
  omega

/-- The header that `malloc_extend` writes. -/
theorem linked_newBlock {m : Buffer} {region size : Nat} (hregion : 0 < region)
    (hsize : size < 2 ^ 64) :
    blockCells.Linked (setFree (setNext (setSize m region size) region 0) region true) region
      [⟨region, size, true⟩] 0 := by
  refine ⟨rfl, by omega, ⟨?_, ?_⟩, ?_⟩
  · exact (blockSize_setFree.trans blockSize_setNext).trans (blockSize_setSize hsize)
  · exact blockFree_setFree
  · exact blockNext_setFree.trans (blockNext_setNext (by decide))

/-- A link is set behind the last block. -/
theorem linked_setNext_last {m : Buffer} {r : Nat} (hordered : ∀ x ∈ xs, x.stop ≤ b.addr)
    (hr : r < 2 ^ 64) (hlinked : blockCells.Linked m p (xs ++ [b]) 0) :
    blockCells.Linked (setNext m b.addr r) p (xs ++ [b]) r := by
  refine hlinked.relink (fun x hx => ?_) (fun hholds => ⟨?_, ?_⟩) (blockNext_setNext hr)
  · have hstop := hordered x hx
    have hlt := x.addr_lt_stop
    have hsame : SameHeader m (setNext m b.addr r) x.addr := sameHeader_setNext (by omega)
    exact ⟨fun hholds => ⟨hsame.size.trans hholds.1, hsame.free.trans hholds.2⟩, hsame.next⟩
  · exact blockSize_setNext.trans hholds.1
  · exact blockFree_setNext.trans hholds.2

/-- `malloc_extend` adds a free block behind all others. -/
theorem mallocExtend_spec (ht : Tiles h blocks) (hgrow : h.Grows grow) (hreq : need ≤ requestMax) :
    h.mallocExtend grow need = (h, 0) ∨
      ∃ b, b.free = true ∧ need ≤ b.size ∧ (h.mallocExtend grow need).2 = b.addr ∧ b.addr ≠ 0 ∧
        Tiles (h.mallocExtend grow need).1 (blocks ++ [b]) ∧
        Keeps (fun _ => True) h.mem blocks (h.mallocExtend grow need).1.mem (blocks ++ [b]) := by
  unfold mallocExtend
  cases hregion : grow (extendRequest need) with
  | none => exact .inl rfl
  | some region =>
    right
    obtain ⟨hpos, hspace, hbelow⟩ := hgrow _ _ hregion
    have hneed := extendRequest_bounds hreq
    generalize extendRequest need = request at hspace hneed
    unfold headerSize at hneed
    have hstops : ∀ c ∈ blocks, c.stop ≤ region := fun c hc => ht.stop_le hbelow hc
    have hwrap : setSize h.mem region (request + 2 ^ 64 - headerSize) =
        setSize h.mem region (request - headerSize) :=
      setSize_wrapped (by unfold headerSize; omega)
    simp only [hwrap]
    generalize hm :
      setFree (setNext (setSize h.mem region (request - headerSize)) region 0) region true = m
    have hnew : blockCells.Linked m region [⟨region, request - headerSize, true⟩] 0 :=
      hm ▸ linked_newBlock hpos (by omega)
    have hsame : ∀ a < region, m a = h.mem a := by
      intro a ha
      rw [← hm, setFree_of_outside (by omega), setNext_of_outside (by omega),
        setSize_of_outside (by omega)]
    have hold : blockCells.Linked m h.head blocks 0 := by
      refine linked_of_sameHeader ht.linked fun c hc k hk => hsame _ ?_
      have hstop := hstops c hc
      have hlt := c.addr_lt_stop
      omega
    have hstop : (⟨region, request - headerSize, true⟩ : Block).stop = region + request := by
      unfold Block.stop headerSize
      simp only
      omega
    -- the list of all blocks, whatever the memory is that links the new one in
    have hall : ∀ m₂ head,
        blockCells.Linked m₂ head (blocks ++ [⟨region, request - headerSize, true⟩]) 0 →
        Tiles ⟨m₂, head, h.regions ++ [(region, request)]⟩
          (blocks ++ [⟨region, request - headerSize, true⟩]) := by
      intro m₂ head hlinked
      refine ⟨hlinked, ⟨?_, ?_⟩, fun a => ?_, ?_⟩
      · rw [pairwise_append]
        refine ⟨ht.tidy.ordered, pairwise_singleton _ _, fun c hc d hd => ?_⟩
        rw [mem_singleton.mp hd]
        exact hstops c hc
      · intro c hc
        rcases mem_append.mp hc with hc | hc
        · exact ht.tidy.small c hc
        · rw [mem_singleton.mp hc, hstop]
          exact hspace
      · have hcovers := ht.covers a
        unfold Heap.Obtained at hcovers ⊢
        simp only [mem_append, or_and_right, exists_or, hcovers, mem_singleton, exists_eq_left]
        unfold Block.Has
        rw [hstop]
      · have hspaces := ht.space
        rw [spaceOf_append, hspaces, map_append, sum_append]
        unfold spaceOf headerSize
        simp only [map_cons, map_nil, sum_cons, sum_nil]
        omega
    by_cases hhead : h.head = 0
    · rw [if_pos hhead]
      have hnil : blocks = [] := Cells.Linked.eq_nil (hhead ▸ ht.linked)
      subst hnil
      exact ⟨⟨region, request - headerSize, true⟩, rfl,
        by unfold headerSize; simp only; omega, rfl, by
        simp only; omega, hall m region hnew, nofun⟩
    rw [if_neg hhead]
    have hne : blocks ≠ [] := by
      rintro rfl
      exact hhead ht.linked
    obtain ⟨xs, last, rfl⟩ : ∃ xs last, blocks = xs ++ [last] :=
      ⟨_, _, (dropLast_concat_getLast hne).symm⟩
    have htail : tailLoop h.passes m h.head = last.addr := by
      refine tailLoop_spec h.passes hold ?_
      have hlt := ht.length_lt
      rw [length_append] at hlt
      omega
    have hpair := ht.tidy.ordered
    rw [pairwise_append] at hpair
    have hbefore : ∀ x ∈ xs, x.stop ≤ last.addr := fun x hx => hpair.2.2 x hx last mem_cons_self
    have hlast := hstops last (mem_append_right _ mem_cons_self)
    have hlastLt := last.addr_lt_stop
    have hlinked : blockCells.Linked (setNext m last.addr region) h.head (xs ++ [last]) region :=
      linked_setNext_last hbefore (by omega) hold
    have hnew' : blockCells.Linked (setNext m last.addr region) region
        [⟨region, request - headerSize, true⟩] 0 := by
      refine linked_of_sameHeader hnew fun c hc => sameHeader_setNext ?_
      rw [mem_singleton.mp hc]
      simp only
      omega
    rw [htail]
    refine ⟨⟨region, request - headerSize, true⟩, rfl,
      by unfold headerSize; simp only; omega, rfl, by
      simp only; omega, hall _ _ (Cells.linked_append.mpr ⟨region, hlinked, hnew'⟩),
        fun c hc _ _ => ?_⟩
    refine ⟨mem_append_left _ hc, fun a hlo hhi => ?_⟩
    have hcstop := hstops c hc
    show setNext m last.addr region a = h.mem a
    rw [setNext_of_outside, hsame a (by omega)]
    -- the payload of a block does not meet the header of the last one
    by_cases heq : c = last
    · subst heq
      unfold headerSize at hlo
      omega
    · have hapart := ht.tidy.apart hc (mem_append_right _ mem_cons_self) heq
      omega

theorem mem_middle : b ∈ xs ++ ([b] ++ ys) := mem_append_right _ mem_cons_self

/-- The first of the blocks that a split leaves is at the same place. -/
theorem Block.split_eq (b : Block) (hsize : size ≤ b.size) :
    ∃ n rest, b.split size = ⟨b.addr, n, b.free⟩ :: rest ∧ size ≤ n := by
  unfold Block.split
  split
  · exact ⟨size, _, rfl, Nat.le_refl _⟩
  · exact ⟨b.size, [], rfl, hsize⟩

/-- A free block is cut to size and given away. -/
theorem Tiles.give (ht : Tiles h (xs ++ ([b] ++ ys)))
    (hreq : size ≤ requestMax) (hfree : b.free = true) (hsize : size ≤ b.size) :
    ∃ blocks' n,
      Tiles { h with mem := Libc.setFree (splitBlock h.mem b.addr size) b.addr false } blocks' ∧
      Keeps (fun _ => True) h.mem (xs ++ ([b] ++ ys))
        (Libc.setFree (splitBlock h.mem b.addr size) b.addr false) blocks' ∧
      ⟨b.addr, n, false⟩ ∈ blocks' ∧ size ≤ n := by
  obtain ⟨n, rest, hsplit, hn⟩ := b.split_eq hsize
  have hcut := ht.split hreq
  have hkeepCut : Keeps (fun _ => True) h.mem (xs ++ ([b] ++ ys)) (splitBlock h.mem b.addr size)
      (xs ++ (b.split size ++ ys)) := by
    refine ht.keeps_replace (cons_ne_nil _ _) (fills_one b)
      (confined_splitBlock hreq (ht.holds mem_middle).1 (ht.tidy.small b mem_middle)) ?_
    intro z hz hused
    rw [mem_singleton.mp hz, hfree] at hused
    cases hused
  rw [hsplit] at hcut hkeepCut
  have hfirst : Tiles { h with mem := splitBlock h.mem b.addr size }
      (xs ++ ([⟨b.addr, n, b.free⟩] ++ (rest ++ ys))) := hcut
  refine ⟨_, n, hfirst.setFree false, hkeepCut.trans ?_, mem_middle, hn⟩
  refine hfirst.keeps_replace (cons_ne_nil _ _) (fills_one _) (confined_setFree false) ?_
  intro z hz hused
  rw [mem_singleton.mp hz] at hused
  exact absurd (hused.symm.trans hfree) Bool.false_ne_true

/--
A call has returned a block.  Allocated blocks that satisfy `P` are as before, and the block is none
of them.
-/
structure Gives (P : Block → Prop) (h : Heap) (blocks : List Block) (r : Heap × Nat) (size : Nat)
    (blocks' : List Block) (b : Block) : Prop where
  tiles : Tiles r.1 blocks'
  keeps : Keeps P h.mem blocks r.1.mem blocks'
  mem : b ∈ blocks'
  used : b.free = false
  large : size ≤ b.size
  pointer : r.2 = b.addr + headerSize
  new : ∀ c ∈ blocks, c.free = false → P c → c.addr ≠ b.addr

theorem malloc_refused (hrefuses : h.Refuses grow size) : h.malloc grow size = (h, 0) := by
  obtain ⟨hnone, hgrow⟩ := hrefuses
  simp only [malloc, hnone, mallocExtend, hgrow, if_true]

/-- A request is rounded up to one that is not too large either. -/
theorem mallocAlignUp_request (hsize : size ≤ requestMax) :
    size ≤ mallocAlignUp (if size = 0 then 1 else size) ∧
      mallocAlignUp (if size = 0 then 1 else size) ≤ requestMax := by
  unfold requestMax at *
  have hsome : size ≤ (if size = 0 then 1 else size) ∧
      (if size = 0 then 1 else size) ≤ 2 ^ 64 - 48 := by
    split <;> omega
  have hbounds := mallocAlignUp_bounds (show (if size = 0 then 1 else size) ≤ 2 ^ 64 - 16 by omega)
  omega

theorem malloc_spec (ht : Tiles h blocks) (hgrow : h.Grows grow) (hserves : h.Serves grow size) :
    h.malloc grow size = (h, 0) ∨
      ∃ blocks' b, Gives (fun _ => True) h blocks (h.malloc grow size) size blocks' b := by
  rcases hserves with hsize | hrefuses
  swap
  · exact .inl (malloc_refused hrefuses)
  unfold malloc
  simp only
  obtain ⟨hlarge, hreq⟩ := mallocAlignUp_request hsize
  generalize mallocAlignUp (if size = 0 then 1 else size) = aligned at hlarge hreq
  -- a free block is given away, whether it was there or is new
  have hgive : ∀ h₁ blocks₁ b, Tiles h₁ blocks₁ →
      Keeps (fun _ => True) h.mem blocks h₁.mem blocks₁ → b ∈ blocks₁ → b.free = true →
      aligned ≤ b.size → ∃ blocks' c, Gives (fun _ => True) h blocks
        ({ h₁ with mem := setFree (splitBlock h₁.mem b.addr aligned) b.addr false },
          b.addr + headerSize) size blocks' c := by
    intro h₁ blocks₁ b ht₁ hkeeps hb hfree hfit
    obtain ⟨xs, ys, rfl⟩ := append_of_mem hb
    obtain ⟨blocks', n, htiles, hkeeps', hmem, hn⟩ := Tiles.give ht₁ hreq hfree hfit
    refine ⟨blocks', ⟨b.addr, n, false⟩, htiles, hkeeps.trans hkeeps', hmem, rfl,
      Nat.le_trans hlarge hn, rfl, ?_⟩
    intro c hc hused _ heq
    have hcb := ht₁.tidy.eq_of_addr (hkeeps c hc hused trivial).1 hb heq
    rw [hcb, hfree] at hused
    cases hused
  rcases fitLoop_spec aligned h.passes ht.linked ht.length_lt with hnone |
    ⟨b, hb, hfree, hfit, hfound⟩
  · rw [if_pos hnone]
    rcases mallocExtend_spec ht hgrow hreq with hfail | ⟨b, hfree, hfit, hfound, hne,
      htiles, hkeeps⟩
    · rw [hfail]
      exact .inl rfl
    · rw [if_neg (hfound ▸ hne), hfound]
      exact .inr (hgive _ _ b htiles hkeeps (mem_append_right _ mem_cons_self) hfree hfit)
  · have hne : b.addr ≠ 0 := ht.linked.addr_ne_zero hb
    rw [hfound, if_neg hne]
    rw [if_neg hne]
    exact .inr (hgive h blocks b ht Keeps.refl hb hfree hfit)

/-- `free` leaves all other live blocks as they are. -/
theorem free_spec (ht : Tiles h blocks) (hb : b ∈ blocks) :
    ∃ blocks', Tiles (h.free (b.addr + headerSize)) blocks' ∧
      Keeps (fun c => c.addr ≠ b.addr) h.mem blocks (h.free (b.addr + headerSize)).mem blocks' ∧
      ∀ c ∈ blocks', c.addr = b.addr → c.free = true := by
  obtain ⟨xs, ys, rfl⟩ := append_of_mem hb
  have hfreed := Tiles.setFree ht true
  have hkeeps : Keeps (fun c => c.addr ≠ b.addr) h.mem (xs ++ ([b] ++ ys))
      (setFree h.mem b.addr true) (xs ++ ([{ b with free := true }] ++ ys)) := by
    refine Tiles.keeps_replace ht (cons_ne_nil _ _) (fills_one b) (confined_setFree true) ?_
    intro z hz _ hne
    exact hne (by rw [mem_singleton.mp hz])
  have hwhole : Tiles _ ([] ++ (xs ++ ([{ b with free := true }] ++ ys))) := hfreed
  obtain ⟨htiles, hkeeps'⟩ := coalesceLoop_spec _ hwhole hfreed.linked hfreed.length_lt
  have heq : h.free (b.addr + headerSize) =
      ({ h with mem := setFree h.mem b.addr true } : Heap).mallocCoalesce := by
    unfold free
    rw [if_neg (by unfold headerSize; omega), Nat.add_sub_cancel]
  rw [heq]
  refine ⟨_, htiles, hkeeps.trans (hkeeps'.mono fun _ _ => trivial), fun c hc haddr => ?_⟩
  obtain ⟨d, hd, hdaddr, hdfree⟩ := exists_of_mem_coalesceBlocks hc
  have hsame := hfreed.tidy.eq_of_addr hd mem_middle (hdaddr.trans haddr)
  rw [← hdfree, hsame]

/-- A write into the payload of a block. -/
theorem Tiles.payload (ht : Tiles h blocks) (hb : b ∈ blocks)
    (hconf : Confined h.mem m' (b.addr + headerSize) b.stop) : Tiles { h with mem := m' } blocks ∧
    Keeps (fun c => c.addr ≠ b.addr) h.mem blocks m' blocks := by
  constructor
  · refine ht.of_sameHeader fun c hc k hk => hconf _ ?_
    unfold headerSize
    by_cases heq : c = b
    · subst heq
      omega
    · have hapart := ht.tidy.apart hc hb heq
      have hlt := c.addr_lt_stop
      omega
  · intro c hc _ hne
    refine ⟨hc, fun a hlo hhi => hconf a ?_⟩
    have hapart := ht.tidy.apart hc hb fun heq => hne (by rw [heq])
    omega

theorem confined_splice {m source : Buffer} {n : Nat} (hn : n ≤ b.size) :
    Confined m (m.splice (b.addr + headerSize) n source) (b.addr + headerSize) b.stop := by
  intro a ha
  unfold Block.stop at ha
  exact splice_of_outside (by omega)

/-- A write into the payload of the block that a call returns. -/
theorem Gives.write {P : Block → Prop} {r : Heap × Nat} {blocks' : List Block} {n : Nat}
    {source : Buffer} (hgives : Gives P h blocks r size blocks' b) (hn : n ≤ size) :
    Gives P h blocks ({ r.1 with mem := r.1.mem.splice r.2 n source }, r.2) size blocks' b := by
  have hlarge := hgives.large
  have hconf : Confined r.1.mem (r.1.mem.splice r.2 n source) (b.addr + headerSize) b.stop := by
    rw [hgives.pointer]
    exact confined_splice (by omega)
  obtain ⟨htiles, hkeeps⟩ := hgives.tiles.payload hgives.mem hconf
  refine ⟨htiles, ?_, hgives.mem, hgives.used, hgives.large, hgives.pointer, hgives.new⟩
  intro c hc hused hP
  obtain ⟨hc', hsame⟩ := hgives.keeps c hc hused hP
  obtain ⟨hc'', hsame'⟩ := hkeeps c hc' hused (hgives.new c hc hused hP)
  exact ⟨hc'', fun a hlo hhi => (hsame' a hlo hhi).trans (hsame a hlo hhi)⟩

/-- The test of `calloc` is that for the product. -/
theorem calloc_fits {count : Nat} (hfits : ¬(count ≠ 0 ∧ (2 ^ 64 - 1) / count < size)) :
    count * size < 2 ^ 64 := by
  by_cases hcount : count = 0
  · subst hcount
    simp
  · have hdiv := Nat.not_lt.mp fun hlt => hfits ⟨hcount, hlt⟩
    rw [Nat.le_div_iff_mul_le (Nat.pos_of_ne_zero hcount), Nat.mul_comm] at hdiv
    omega

theorem calloc_spec {count : Nat} (ht : Tiles h blocks) (hgrow : h.Grows grow)
    (hserves : 2 ^ 64 ≤ count * size ∨ h.Serves grow (count * size)) :
    h.calloc grow count size = (h, 0) ∨ ∃ blocks' b, Gives (fun _ =>
      True) h blocks (h.calloc grow count size) (count * size) blocks' b ∧ ∀ i < count * size,
      (h.calloc grow count size).1.mem ((h.calloc grow count size).2 + i) = 0 := by
  unfold calloc
  split
  · exact .inl rfl
  next hfits =>
  rcases malloc_spec ht hgrow
    (hserves.resolve_left (Nat.not_le_of_gt (calloc_fits hfits))) with hfail | ⟨blocks', b, hgives⟩
  · rw [hfail]
    exact .inl rfl
  have hne : (h.malloc grow (count * size)).2 ≠ 0 := by
    rw [hgives.pointer]
    unfold headerSize
    omega
  rw [if_neg hne]
  exact .inr ⟨blocks', b, hgives.write (Nat.le_refl _), fun i hi => splice_apply hi⟩

/-- What a block contains after `realloc`. -/
def Carries (h : Heap) (b : Block) (r : Heap × Nat) (size : Nat) : Prop :=
  ∀ i < min b.size size, r.1.mem (r.2 + i) = h.mem (b.addr + headerSize + i)

/-- The block moves. -/
theorem relocate_spec (ht : Tiles h blocks) (hgrow : h.Grows grow) (hb : b ∈ blocks)
    (hused : b.free = false) (hserves : h.Serves grow size) :
    h.relocate grow (b.addr + headerSize) size = (h, 0) ∨ ∃ blocks' c, Gives (fun d => d.addr ≠
      b.addr) h blocks (h.relocate grow (b.addr + headerSize) size) size blocks' c ∧
      Carries h b (h.relocate grow (b.addr + headerSize) size) size := by
  unfold relocate
  simp only
  rcases malloc_spec ht hgrow hserves with hfail | ⟨blocks₁, c, hgives⟩
  · rw [hfail]
    exact .inl rfl
  right
  generalize h.malloc grow size = r at hgives
  have hne : r.2 ≠ 0 := by
    rw [hgives.pointer]
    unfold headerSize
    omega
  obtain ⟨hb₁, hsame⟩ := hgives.keeps b hb hused trivial
  rw [if_neg hne, Nat.add_sub_cancel, (hgives.tiles.holds hb₁).1]
  generalize hm :
    r.1.mem.splice r.2 (min b.size size) (fun i => r.1.mem (b.addr + headerSize + i)) = m
  have hwrite : Gives (fun _ => True) h blocks ({ r.1 with mem := m }, r.2) size blocks₁ c :=
    hm ▸ hgives.write (Nat.min_le_right _ _)
  obtain ⟨blocks₂, htiles, hkeeps, -⟩ := free_spec hwrite.tiles hb₁
  have hcb : c.addr ≠ b.addr := (hwrite.new b hb hused trivial).symm
  obtain ⟨hc, hkept⟩ := hkeeps c hwrite.mem hwrite.used hcb
  refine ⟨blocks₂, c, ⟨htiles, (hwrite.keeps.mono fun _ _ => trivial).trans hkeeps, hc,
    hwrite.used, hwrite.large, hwrite.pointer, fun d hd hdused _ => hwrite.new d hd hdused trivial⟩,
    fun i hi => ?_⟩
  have hlarge := hwrite.large
  have hptr := hgives.pointer
  calc (free { r.1 with mem := m } (b.addr + headerSize)).mem (r.2 + i)
      = m (r.2 + i) := hkept _ (by omega) (by unfold Block.stop; omega)
    _ = r.1.mem (b.addr + headerSize + i) := by rw [← hm, splice_apply hi]
    _ = h.mem (b.addr + headerSize + i) := hsame _ (by omega) (by unfold Block.stop; omega)

/-- The block behind a block in the list. -/
theorem Tiles.next_of_mem (ht : Tiles h blocks) (hb : b ∈ blocks)
    (hnext : blockNext h.mem b.addr ≠ 0) :
    ∃ xs c ys, blocks = xs ++ ([b, c] ++ ys) ∧ blockNext h.mem b.addr = c.addr := by
  obtain ⟨xs, ys, rfl⟩ := append_of_mem hb
  obtain ⟨p, -, hlinked⟩ := Cells.linked_append.mp ht.linked
  obtain ⟨rfl, -, -, hrest⟩ := hlinked
  cases ys with
  | nil => exact absurd hrest hnext
  | cons c ys => exact ⟨xs, c, ys, rfl, hrest.1⟩

/-- Nothing but headers changes when a block takes in the next one and gives back the rest. -/
theorem expand_apply {m : Buffer} {a : Nat}
    (hreq : size ≤ requestMax) (hjoin : blockSize (absorbNext m b.addr) b.addr = (b.absorb c).size)
    (hsmall : (b.absorb c).stop ≤ 2 ^ 64) (hsize : b.size ≤ size) (hlo : b.addr + headerSize ≤ a)
    (hhi : a < b.stop) : splitBlock (absorbNext m b.addr) b.addr size a = m a := by
  have habsorb : absorbNext m b.addr a = m a := by
    unfold absorbNext headerSize at *
    rw [setNext_of_outside (by omega), setSize_of_outside (by omega)]
  have haddr : (b.absorb c).addr = b.addr := rfl
  have hcut := splitBlock_eq hreq hjoin hsmall
  rw [haddr] at hcut
  rw [hcut]
  split
  · unfold Block.stop headerSize at *
    rw [setNext_of_outside (by omega), setSize_of_outside (by omega), setFree_of_outside (by omega),
      setNext_of_outside (by omega), setSize_of_outside (by omega), habsorb]
  · exact habsorb

/-- The block grows where it is. -/
theorem Tiles.expand (ht : Tiles h (xs ++ ([b, c] ++ ys))) (hreq : size ≤ requestMax)
    (hused : b.free = false) (hfree : c.free = true) (hend : b.stop = c.addr)
    (hsize : b.size ≤ size) (hfit : size ≤ b.size + headerSize + c.size) :
    ∃ blocks' d, Gives (fun d => d.addr ≠ b.addr) h (xs ++ ([b, c] ++ ys))
      ({ h with mem := splitBlock (absorbNext h.mem b.addr) b.addr size }, b.addr + headerSize)
      size blocks' d := by
  have hjoin := ht.absorb hend
  have hkeepJoin : Keeps (fun d => d.addr ≠ b.addr) h.mem (xs ++ ([b, c] ++ ys))
      (absorbNext h.mem b.addr) (xs ++ ([b.absorb c] ++ ys)) := by
    refine ht.keeps_replace (cons_ne_nil _ _) (fills_two hend) (confined_absorbNext hend) ?_
    intro z hz hzused hne
    rcases mem_cons.mp hz with rfl | hz
    · exact hne rfl
    · rw [mem_singleton.mp hz, hfree] at hzused
      cases hzused
  have hcut : Tiles { h with mem := splitBlock (absorbNext h.mem b.addr) b.addr size }
      (xs ++ ((b.absorb c).split size ++ ys)) := hjoin.split hreq
  have hkeepCut : Keeps (fun d => d.addr ≠ b.addr) (absorbNext h.mem b.addr)
      (xs ++ ([b.absorb c] ++ ys)) (splitBlock (absorbNext h.mem b.addr) b.addr size)
      (xs ++ ((b.absorb c).split size ++ ys)) := by
    refine hjoin.keeps_replace (cons_ne_nil _ _) (fills_one _)
      (confined_splitBlock hreq (hjoin.holds mem_middle).1 (hjoin.tidy.small _ mem_middle)) ?_
    intro z hz _ hne
    rw [mem_singleton.mp hz] at hne
    exact hne rfl
  have habsorb : size ≤ (b.absorb c).size := by
    unfold Block.absorb
    simp only
    omega
  obtain ⟨n, rest, hsplit, hn⟩ := (b.absorb c).split_eq habsorb
  refine ⟨_, ⟨b.addr, n, b.free⟩, hcut, hkeepJoin.trans hkeepCut, ?_, hused, hn, rfl,
    fun d _ _ hne => hne⟩
  rw [hsplit]
  exact mem_append_right _ mem_cons_self

theorem realloc_spec (ht : Tiles h blocks) (hgrow : h.Grows grow) (hb : b ∈ blocks)
    (hused : b.free = false) (hsize : size ≠ 0) (hreq : size ≤ requestMax) :
    h.realloc grow (b.addr + headerSize) size = (h, 0) ∨ ∃ blocks' c, Gives (fun d =>
      d.addr ≠ b.addr) h blocks (h.realloc grow (b.addr + headerSize) size) size blocks' c ∧
      Carries h b (h.realloc grow (b.addr + headerSize) size) size := by
  have hne : b.addr + headerSize ≠ 0 := by
    unfold headerSize
    omega
  unfold realloc
  simp only
  rw [if_neg hne, if_neg hsize, Nat.add_sub_cancel, (ht.holds hb).1]
  have haligned := mallocAlignUp_request hreq
  rw [if_neg hsize] at haligned
  generalize mallocAlignUp size = aligned at haligned
  obtain ⟨haligned, hmax⟩ := haligned
  by_cases hfits : aligned ≤ b.size
  · rw [if_pos hfits]
    exact .inr ⟨blocks, b, ⟨ht, Keeps.refl, hb, hused, Nat.le_trans haligned hfits, rfl,
      fun _ _ _ hne => hne⟩, fun _ _ => rfl⟩
  rw [if_neg hfits]
  split
  next hroom =>
    right
    obtain ⟨hnext, hfree, hend, hfit⟩ := hroom
    obtain ⟨xs, c, ys, rfl, hc⟩ := ht.next_of_mem hb hnext
    rw [hc] at hfree hend hfit
    have hmem : c ∈ xs ++ ([b, c] ++ ys) :=
      mem_append_right _ (mem_append_left _ (mem_cons_of_mem _ mem_cons_self))
    obtain ⟨hcsize, hcfree⟩ := ht.holds hmem
    rw [hcsize] at hfit
    obtain ⟨blocks', d, hgives⟩ :=
      ht.expand hmax hused (hcfree.symm.trans hfree) hend (by omega) hfit
    refine ⟨blocks', d, ⟨hgives.tiles, hgives.keeps, hgives.mem, hgives.used,
      Nat.le_trans haligned hgives.large, hgives.pointer, hgives.new⟩, fun i hi => ?_⟩
    have hjoin := ht.absorb hend
    exact expand_apply hmax (hjoin.holds mem_middle).1 (hjoin.tidy.small _ mem_middle) (by omega)
      (by omega) (by unfold Block.stop; omega)
  · exact relocate_spec ht hgrow hb hused (.inl hreq)

end Calls

/-! ## Contents -/

section Contents

variable {m m' : Buffer} {p n k : Nat}

@[simp] theorem length_bytesOf : (bytesOf m p n).length = n := by
  simp [bytesOf]

theorem bytesOf_congr {q : Nat} (h : ∀ i < n, m' (q + i) = m (p + i)) :
    bytesOf m' q n = bytesOf m p n := by
  exact map_congr_left fun i hi => h i (mem_range.mp hi)

theorem bytesOf_add : bytesOf m p (n + k) = bytesOf m p n ++ bytesOf m (p + n) k := by
  simp [bytesOf, range_add, Nat.add_assoc, comp_def]

theorem take_bytesOf : (bytesOf m p n).take k = bytesOf m p (min k n) := by
  simp [bytesOf, ← map_take, take_range]

theorem bytesOf_eq_replicate {v : Byte} (h : ∀ i < n, m (p + i) = v) :
    bytesOf m p n = replicate n v := by
  refine eq_replicate_iff.mpr ⟨length_bytesOf, fun w hw => ?_⟩
  obtain ⟨i, hi, rfl⟩ := mem_map.mp hw
  exact h i (mem_range.mp hi)

/-- A byte changes. -/
theorem bytesOf_store (a : Nat) (v : Byte) :
    bytesOf (fun x => if x = a then v else m x) p n =
      if p ≤ a ∧ a < p + n then (bytesOf m p n).set (a - p) v else bytesOf m p n := by
  split
  next hin =>
    refine ext_getElem (by simp) fun i hi _ => ?_
    rw [getElem_set]
    simp only [bytesOf, getElem_map, getElem_range]
    by_cases heq : a - p = i
    · rw [if_pos heq, if_pos (by omega)]
    · rw [if_neg heq, if_neg (by omega)]
  next hout =>
    refine bytesOf_congr fun i hi => if_neg ?_
    omega

end Contents

/-! ## Whole runs -/

section Sessions

variable {h : Heap} {m m' : Buffer} {blocks blocks' : List Block} {b : Block} {live live' : Ledger}
  {p : Nat} {bytes : List Byte}

/-- Live pointers are those of allocated blocks, which have the contents. -/
def Backed (m : Buffer) (blocks : List Block) (live : Ledger) : Prop :=
  ∀ p bytes, live p = some bytes → ∃ b ∈ blocks, b.free = false ∧ p = b.addr + headerSize ∧
    bytes.length ≤ b.size ∧ bytesOf m p bytes.length = bytes

/-- Blocks stay backed where they are kept. -/
theorem Backed.keeps {P : Block → Prop} (hlive : Backed m blocks live)
    (hkeeps : Keeps P m blocks m' blocks') (hsub : ∀ p bytes, live' p = some bytes →
      live p = some bytes ∧ ∀ b : Block, p = b.addr + headerSize → P b) :
    Backed m' blocks' live' := by
  intro p bytes hp
  obtain ⟨hold, hP⟩ := hsub p bytes hp
  obtain ⟨b, hb, hused, hptr, hlarge, hbytes⟩ := hlive p bytes hold
  obtain ⟨hb', hsame⟩ := hkeeps b hb hused (hP b hptr)
  refine ⟨b, hb', hused, hptr, hlarge, ?_⟩
  rw [bytesOf_congr fun i hi => hsame (p + i) (by omega) (by unfold Block.stop; omega), hbytes]

/-- One more block is backed. -/
theorem Backed.add (hlive : Backed m blocks live) (hb : b ∈ blocks)
    (hused : b.free = false) (hlarge : bytes.length ≤ b.size) (hp : p = b.addr + headerSize)
    (hbytes : bytesOf m p bytes.length = bytes) : Backed m blocks (live.add p bytes) := by
  have hne : p ≠ 0 := by
    unfold headerSize at hp
    omega
  intro q bytes' hq
  rw [Ledger.add, if_neg hne, update_apply] at hq
  split at hq
  next heq =>
    cases hq
    exact ⟨b, hb, hused, heq.trans hp, hlarge, heq ▸ hbytes⟩
  · exact hlive q bytes' hq

theorem Ledger.drop_eq_some {q : Nat} (h : live.drop p q = some bytes) :
    q ≠ p ∧ live q = some bytes := by
  rw [Ledger.drop, update_apply] at h
  split at h
  · cases h
  next hne => exact ⟨hne, h⟩

/-- The invariant of a session. -/
def Session.Valid (s : Session) : Prop :=
  ∃ blocks, Tiles s.heap blocks ∧ Backed s.heap.mem blocks s.live

variable {s : Session}

/-- A call has returned a block beside those that are live. -/
theorem Gives.valid {P : Block → Prop} {r : Heap × Nat}
    {size : Nat} (hgives : Gives P h blocks r size blocks' b) (hlive : Backed h.mem blocks live)
    (hsub : ∀ p bytes, live' p = some bytes → live p = some bytes ∧
      ∀ b : Block, p = b.addr + headerSize → P b) (hbytes : bytesOf r.1.mem r.2 size = bytes) :
    Session.Valid ⟨r.1, live'.add r.2 bytes⟩ := by
  have hkept := hlive.keeps hgives.keeps hsub
  have hlen : bytes.length = size := by rw [← hbytes, length_bytesOf]
  refine ⟨blocks', hgives.tiles, hkept.add hgives.mem hgives.used ?_ hgives.pointer ?_⟩
  · rw [hlen]
    exact hgives.large
  · rw [hlen]
    exact hbytes

/-- The pointer is new. -/
theorem Gives.not_live {P : Block → Prop} {r : Heap × Nat}
    {size : Nat} (hgives : Gives P h blocks r size blocks' b) (hlive : Backed h.mem blocks live)
    (hP : ∀ c : Block, r.2 = c.addr + headerSize → P c) : live r.2 = none := by
  cases hp : live r.2 with
  | none => rfl
  | some bytes =>
    obtain ⟨c, hc, hused, hptr, -⟩ := hlive _ _ hp
    have hb := hgives.pointer
    exact absurd (by omega) (hgives.new c hc hused (hP c hptr))

theorem Backed.zero (hlive : Backed m blocks live) : live 0 = none := by
  cases hzero : live 0 with
  | none => rfl
  | some bytes =>
    obtain ⟨b, -, -, hptr, -⟩ := hlive 0 bytes hzero
    unfold headerSize at hptr
    omega

/-- What a step does. -/
def Session.Keeping (s : Session) (e : Event) : Prop := s.Unshared e ∧ (s.step e).1.Valid

section Steps

variable {grow : Grow} {size : Nat}

theorem keeping_malloc (hs : s.Valid) (hgrow : s.heap.Grows grow)
    (hserves : s.heap.Serves grow size) : s.Keeping (.malloc size grow) := by
  obtain ⟨blocks, htiles, hlive⟩ := hs
  unfold Session.Keeping Session.Unshared step
  simp only [mem_singleton, forall_eq]
  rcases malloc_spec htiles hgrow hserves with hfail | ⟨blocks', b, hgives⟩
  · rw [hfail]
    exact ⟨.inl rfl, blocks, htiles, hlive⟩
  · refine ⟨.inr (.inl (hgives.not_live hlive fun _ _ => trivial)), ?_⟩
    exact hgives.valid hlive (fun _ _ hp => ⟨hp, fun _ _ => trivial⟩) rfl

theorem keeping_calloc {count : Nat} (hs : s.Valid) (hgrow : s.heap.Grows grow)
    (hserves : 2 ^ 64 ≤ count * size ∨ s.heap.Serves grow (count * size)) :
    s.Keeping (.calloc count size grow) := by
  obtain ⟨blocks, htiles, hlive⟩ := hs
  unfold Session.Keeping Session.Unshared step
  simp only [mem_singleton, forall_eq]
  rcases calloc_spec htiles hgrow hserves with hfail | ⟨blocks', b, hgives, hzero⟩
  · rw [hfail]
    exact ⟨.inl rfl, blocks, htiles, hlive⟩
  · refine ⟨.inr (.inl (hgives.not_live hlive fun _ _ => trivial)), ?_⟩
    exact hgives.valid hlive (fun _ _ hp => ⟨hp, fun _ _ => trivial⟩) (bytesOf_eq_replicate hzero)

/-- The block of a live pointer goes. -/
theorem Backed.free (htiles : Tiles h blocks) (hlive : Backed h.mem blocks live)
    (hp : live p = some bytes) : Session.Valid ⟨h.free p, live.drop p⟩ := by
  obtain ⟨b, hb, -, rfl, -⟩ := hlive p bytes hp
  obtain ⟨blocks', htiles', hkeeps, -⟩ := free_spec htiles hb
  refine ⟨blocks', htiles', hlive.keeps hkeeps fun q bytes' hq => ?_⟩
  obtain ⟨hne, hold⟩ := Ledger.drop_eq_some hq
  exact ⟨hold, fun c hc heq => hne (by rw [hc, heq])⟩

theorem keeping_free (hs : s.Valid) (hp : p = 0 ∨ (s.live p).isSome) : s.Keeping (.free p) := by
  obtain ⟨blocks, htiles, hlive⟩ := hs
  refine ⟨nofun, ?_⟩
  show Session.Valid ⟨s.heap.free p, s.live.drop p⟩
  rcases hp with rfl | hp
  · have hsame : s.live.drop 0 = s.live := by
      rw [Ledger.drop, ← hlive.zero, update_eq_self]
    rw [hsame]
    exact ⟨blocks, htiles, hlive⟩
  · obtain ⟨bytes, hp⟩ := Option.isSome_iff_exists.mp hp
    exact hlive.free htiles hp

/-- What a block has after `realloc`: what it had, as far as that goes. -/
theorem bytesOf_carried {r : Heap × Nat}
    (hcarries : Carries h b r size) (hlarge : bytes.length ≤ b.size)
    (hbytes : bytesOf h.mem (b.addr + headerSize) bytes.length = bytes) :
    bytesOf r.1.mem r.2 size = bytes.take size ++ bytesOf r.1.mem (r.2 + (bytes.take size).length)
      (size - (bytes.take size).length) := by
  have hlen : (bytes.take size).length = min size bytes.length := length_take
  have hkept : bytesOf r.1.mem r.2 (bytes.take size).length = bytes.take size := by
    calc bytesOf r.1.mem r.2 (bytes.take size).length
        = bytesOf h.mem (b.addr + headerSize) (bytes.take size).length :=
          bytesOf_congr fun i hi => hcarries i (by omega)
      _ = (bytesOf h.mem (b.addr + headerSize) bytes.length).take size := by rw [take_bytesOf, hlen]
      _ = bytes.take size := by rw [hbytes]
  have hsum : size = (bytes.take size).length + (size - (bytes.take size).length) := by omega
  calc bytesOf r.1.mem r.2 size
      = bytesOf r.1.mem r.2 ((bytes.take size).length + (size - (bytes.take size).length)) :=
        by rw [← hsum]
    _ = _ := by rw [bytesOf_add, hkept]

theorem step_realloc_null (hzero : s.live 0 = none) (grow : Grow) (size : Nat) :
    s.step (.realloc 0 size grow) = s.step (.malloc size grow) := by
  dsimp only [step]
  rw [hzero]
  rfl

theorem keeping_realloc (hs : s.Valid) (hp : p = 0 ∨ (s.live p).isSome) (hgrow : s.heap.Grows grow)
    (hreq : size ≤ requestMax) :
    s.Keeping (.realloc p size grow) := by
  rcases hp with rfl | hp
  · obtain ⟨blocks, htiles, hlive⟩ := hs
    have heq := step_realloc_null hlive.zero grow size
    obtain ⟨hnew, hvalid⟩ : s.Keeping (.malloc size grow) :=
      keeping_malloc ⟨blocks, htiles, hlive⟩ hgrow (.inl hreq)
    refine ⟨fun q hq => ?_, heq ▸ hvalid⟩
    rcases hnew q (heq ▸ hq) with h | h | ⟨_, _, h⟩
    · exact .inl h
    · exact .inr (.inl h)
    · cases h
  obtain ⟨bytes, hp⟩ := Option.isSome_iff_exists.mp hp
  obtain ⟨blocks, htiles, hlive⟩ := hs
  obtain ⟨b, hb, hused, rfl, hlarge, hbytes⟩ := hlive p bytes hp
  unfold Session.Keeping Session.Unshared
  dsimp only [step]
  rw [hp]
  dsimp only
  by_cases hsize : size = 0
  · subst hsize
    have hfree : s.heap.realloc grow (b.addr + headerSize) 0 =
        (s.heap.free (b.addr + headerSize), 0) := by
      unfold realloc
      rw [if_neg (by unfold headerSize; omega), if_pos rfl]
    rw [hfree, if_neg fun hne => hne.2 rfl]
    refine ⟨fun q hq => .inl (mem_singleton.mp hq), ?_⟩
    exact hlive.free htiles hp
  rcases realloc_spec htiles hgrow hb hused hsize hreq with hfail | ⟨blocks', c, hgives, hcarries⟩
  · rw [hfail, if_pos ⟨rfl, hsize⟩]
    exact ⟨fun q hq => .inl (mem_singleton.mp hq), blocks, htiles, hlive⟩
  generalize s.heap.realloc grow (b.addr + headerSize) size = r at hgives hcarries
  have hptr := hgives.pointer
  have hne : r.2 ≠ 0 := by
    unfold headerSize at hptr
    omega
  rw [if_neg fun h => hne h.1]
  have hcarried := bytesOf_carried hcarries hlarge hbytes
  constructor
  · intro q hq
    obtain rfl := mem_singleton.mp hq
    by_cases hsame : r.2 = b.addr + headerSize
    · exact .inr (.inr ⟨size, grow, by rw [hsame]⟩)
    · exact .inr (.inl (hgives.not_live hlive fun d hd heq => hsame (by rw [hd, heq])))
  · refine hgives.valid hlive (fun q bytes' hq => ?_) hcarried
    obtain ⟨hneq, hold⟩ := Ledger.drop_eq_some hq
    exact ⟨hold, fun d hd heq => hneq (by rw [hd, heq])⟩

theorem keeping_store {a : Nat} {v : Byte} (hs : s.Valid)
    (ha : s.live.Owns a ∨ ¬s.heap.Obtained a) : s.Keeping (.store a v) := by
  obtain ⟨blocks, htiles, hlive⟩ := hs
  refine ⟨nofun, blocks, ?_, ?_⟩
  · -- the byte is not in a header
    refine htiles.of_sameHeader fun c hc k hk => if_neg fun heq => ?_
    have hstop := c.addr_lt_stop
    rcases ha with ⟨p, bytes, hp, hlo, hhi⟩ | hout
    · obtain ⟨b, hb, -, hptr, hlarge, -⟩ := hlive p bytes hp
      unfold headerSize at hptr
      by_cases hcb : c = b
      · subst hcb
        omega
      · have hapart := htiles.tidy.apart hc hb hcb
        unfold Block.stop headerSize at hapart
        omega
    · exact hout ((htiles.covers a).mpr ⟨c, hc, by omega, by omega⟩)
  · intro p bytes hp
    obtain ⟨old, hold, rfl⟩ := Option.map_eq_some_iff.mp hp
    obtain ⟨b, hb, hused, hptr, hlarge, hbytes⟩ := hlive p old hold
    have hlen : (if p ≤ a ∧ a < p + old.length then old.set (a - p) v else old).length =
        old.length := by
      split
      · exact length_set
      · rfl
    refine ⟨b, hb, hused, hptr, ?_, ?_⟩
    · rw [hlen]
      exact hlarge
    · rw [hlen]
      refine (bytesOf_store a v).trans ?_
      rw [hbytes]

theorem le_requestMax (h : size < 2 ^ 63) : size ≤ requestMax := by
  unfold requestMax
  omega

/-- A step that is allowed keeps the invariant. -/
theorem keeping_of_allowed {e : Event} (he : s.Allowed e) (hs : s.Valid) : s.Keeping e := by
  cases e with
  | malloc size grow => exact keeping_malloc hs he.2 (.inl (le_requestMax he.1))
  | calloc count size grow => exact keeping_calloc hs he.2 (.inr (.inl (le_requestMax he.1)))
  | realloc pointer size grow => exact keeping_realloc hs he.1 he.2.2 (le_requestMax he.2.1)
  | free pointer => exact keeping_free hs he
  | store a v => exact keeping_store hs he

end Steps

/-- The invariant says that the heap is sound. -/
theorem Session.Valid.sound (hs : s.Valid) : ∃ blocks, s.Sound blocks := by
  obtain ⟨blocks, htiles, hlive⟩ := hs
  refine ⟨blocks, htiles.linked, htiles.tidy.ordered, htiles.covers, ?_, ?_, ?_, ?_⟩
  · intro p bytes hp
    obtain ⟨b, hb, -, hptr, hlarge, -⟩ := hlive p bytes hp
    exact ⟨b, hb, hptr, hlarge⟩
  · intro p q bytes bytes' hne hp hq
    obtain ⟨b, hb, -, hpb, hlarge, -⟩ := hlive p bytes hp
    obtain ⟨c, hc, -, hqc, hlarge', -⟩ := hlive q bytes' hq
    have hapart := htiles.tidy.apart hb hc fun heq => hne (by rw [hpb, hqc, heq])
    unfold Block.stop at hapart
    omega
  · intro p bytes hp c hc
    obtain ⟨b, hb, -, hpb, hlarge, -⟩ := hlive p bytes hp
    by_cases heq : b = c
    · subst heq
      exact .inr (Nat.le_of_eq hpb.symm)
    · have hapart := htiles.tidy.apart hb hc heq
      unfold Block.stop at hapart
      omega
  · intro p bytes hp
    obtain ⟨b, -, -, -, -, hbytes⟩ := hlive p bytes hp
    exact hbytes

/-- The heap of a program that starts. -/
def Session.start (m : Buffer) : Session := ⟨⟨m, 0, []⟩, fun _ => none⟩

theorem valid_start (m : Buffer) : (start m).Valid := by
  refine ⟨[], ⟨rfl, ⟨List.Pairwise.nil, nofun⟩, fun a => ?_, rfl⟩, nofun⟩
  exact ⟨fun ⟨r, hr, _⟩ => absurd hr not_mem_nil, fun ⟨b, hb, _⟩ => absurd hb not_mem_nil⟩

/--
In every run the blocks tile what the system has handed out, live blocks are apart and have the
contents that their owners gave them, and a block that is handed out was not live.
-/
theorem heap_sound (m : Buffer) (events : List Event)
    (hok : Run.Along step Session.Allowed (start m) events) :
    (∃ blocks, (Run.run step (start m) events).1.Sound blocks) ∧
      Run.Along step Session.Unshared (start m) events := by
  constructor
  · have hvalid := Run.run_induction_of step Session.Allowed (fun _ s => s.Valid)
      (fun _ _ _ he hs => (keeping_of_allowed he hs).2) (valid_start m) hok
    exact hvalid.sound
  · exact Run.along_induction_of step Session.Allowed Session.Unshared Session.Valid
      (fun _ _ => keeping_of_allowed) (valid_start m) hok

/-- Two blocks are allocated and written to; the first moves when it grows, the second is freed. -/
def twoBlocks : List Event :=
  [.malloc 10 fun request => if request ≤ 65536 then some 65536 else none, .malloc 20 fun _ => none,
    .store 65561 7, .store 65600 9, .realloc 65560 200 fun _ => none, .free 65600]

theorem heap_sound_twoBlocks :
    Run.Along step Session.Allowed (start zero) twoBlocks ∧
      (∃ blocks, (Run.run step (start zero) twoBlocks).1.Sound blocks) ∧
      Run.Along step Session.Unshared (start zero) twoBlocks := by
  have hok : Run.Along step Session.Allowed (start zero) twoBlocks := by
    refine ⟨⟨by decide, ?_⟩, ⟨by decide, nofun⟩,
      .inl ⟨65560, replicate 10 0, by decide, by decide, by decide⟩,
      .inl ⟨65600, replicate 20 0, by decide, by decide, by decide⟩,
      ⟨.inr (by decide), by decide, nofun⟩, .inr (by decide +kernel), trivial⟩
    intro request region hregion
    dsimp only at hregion
    split at hregion
    · cases hregion
      exact ⟨by decide, by omega, nofun⟩
    · cases hregion
  exact ⟨hok, heap_sound zero twoBlocks hok⟩

end Sessions

end PureCOS.Libc
