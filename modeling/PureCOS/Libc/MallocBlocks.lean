import PureCOS.Libc.Malloc

/-!
# The list of blocks

What the loops and updates of the heap do to the list of blocks.  Every update is made in the header
of a block, or in the payload of a free one, so that allocated blocks keep their place and contents.
-/

namespace PureCOS.Libc

open Buffer List

/-! ## Headers -/

section Headers

variable {m m' : Buffer} {b c v : Nat} {flag : Bool} {a : Nat}

theorem setSize_of_outside (h : a < b ∨ b + 24 ≤ a) : setSize m b v a = m a :=
  writeU64_of_outside (by omega)

theorem setNext_of_outside (h : a < b ∨ b + 24 ≤ a) : setNext m b v a = m a :=
  writeU64_of_outside (by omega)

theorem setFree_of_outside (h : a < b ∨ b + 24 ≤ a) : setFree m b flag a = m a :=
  splice_of_outside (by omega)

/-- The 24 bytes of a header are the same. -/
def SameHeader (m m' : Buffer) (b : Nat) : Prop := ∀ k < 24, m' (b + k) = m (b + k)

theorem SameHeader.size (h : SameHeader m m' b) : blockSize m' b = blockSize m b := by
  unfold blockSize
  rw [readU64_congr fun k hk => h k (by omega)]

theorem SameHeader.next (h : SameHeader m m' b) : blockNext m' b = blockNext m b := by
  unfold blockNext
  rw [readU64_congr fun k hk => ?_]
  rw [Nat.add_assoc]
  exact h (8 + k) (by omega)

theorem SameHeader.free (h : SameHeader m m' b) : blockFree m' b = blockFree m b := by
  unfold blockFree
  rw [h 16 (by omega)]

theorem SameHeader.trans {m₁ : Buffer} (h : SameHeader m m₁ b) (h' : SameHeader m₁ m' b) :
    SameHeader m m' b :=
  fun k hk => (h' k hk).trans (h k hk)

theorem sameHeader_setSize (h : c + 24 ≤ b ∨ b + 24 ≤ c) : SameHeader m (setSize m b v) c :=
  fun _ _ => setSize_of_outside (by omega)

theorem sameHeader_setNext (h : c + 24 ≤ b ∨ b + 24 ≤ c) : SameHeader m (setNext m b v) c :=
  fun _ _ => setNext_of_outside (by omega)

theorem sameHeader_setFree (h : c + 24 ≤ b ∨ b + 24 ≤ c) : SameHeader m (setFree m b flag) c :=
  fun _ _ => setFree_of_outside (by omega)

@[simp] theorem blockSize_setSize (h : v < 2 ^ 64) : blockSize (setSize m b v) b = v := by
  rw [blockSize, setSize, readU64_writeU64, BitVec.toNat_ofNat, Nat.mod_eq_of_lt h]

theorem setSize_wrapped {w : Nat} (h : v % 2 ^ 64 = w % 2 ^ 64) :
    setSize m b v = setSize m b w := by
  have hword : BitVec.ofNat 64 v = BitVec.ofNat 64 w := BitVec.eq_of_toNat_eq (by
    rw [BitVec.toNat_ofNat, BitVec.toNat_ofNat, h])
  unfold setSize
  rw [hword]

@[simp] theorem blockNext_setSize : blockNext (setSize m b v) b = blockNext m b := by
  unfold blockNext setSize
  rw [readU64_congr fun k _ => writeU64_of_outside (by omega)]

@[simp] theorem blockFree_setSize : blockFree (setSize m b v) b = blockFree m b := by
  unfold blockFree setSize
  rw [writeU64_of_outside (by omega)]

@[simp] theorem blockSize_setNext : blockSize (setNext m b v) b = blockSize m b := by
  unfold blockSize setNext
  rw [readU64_congr fun k _ => writeU64_of_outside (by omega)]

@[simp] theorem blockNext_setNext (h : v < 2 ^ 64) : blockNext (setNext m b v) b = v := by
  rw [blockNext, setNext, readU64_writeU64, BitVec.toNat_ofNat, Nat.mod_eq_of_lt h]

@[simp] theorem blockFree_setNext : blockFree (setNext m b v) b = blockFree m b := by
  unfold blockFree setNext
  rw [writeU64_of_outside (by omega)]

@[simp] theorem blockSize_setFree : blockSize (setFree m b flag) b = blockSize m b := by
  unfold blockSize setFree
  rw [readU64_congr fun k _ => splice_of_outside (by omega)]

@[simp] theorem blockNext_setFree : blockNext (setFree m b flag) b = blockNext m b := by
  unfold blockNext setFree
  rw [readU64_congr fun k _ => splice_of_outside (by omega)]

@[simp] theorem blockFree_setFree : blockFree (setFree m b flag) b = flag := by
  have happly : setFree m b flag (b + 16 + 0) = if flag then 1 else 0 :=
    splice_apply Nat.zero_lt_one
  unfold blockFree
  rw [Nat.add_zero] at happly
  rw [happly]
  cases flag <;> rfl

end Headers

/-! ## Lists of blocks -/

/-- Blocks in address order, without overlaps, in the address space. -/
structure Tidy (blocks : List Block) : Prop where
  ordered : blocks.Pairwise fun b c => b.stop ≤ c.addr
  small : ∀ b ∈ blocks, b.stop ≤ 2 ^ 64

/-- Memory and list in which the allocated blocks that satisfy `P` are as before. -/
def Keeps (P : Block → Prop) (m : Buffer) (blocks : List Block) (m' : Buffer)
    (blocks' : List Block) : Prop :=
  ∀ b ∈ blocks, b.free = false → P b →
    b ∈ blocks' ∧ ∀ a, b.addr + headerSize ≤ a → a < b.stop → m' a = m a

section Lists

variable {m m' : Buffer} {p q : Nat} {b c : Block} {blocks xs ys : List Block}

/-- Two blocks of a tidy list. -/
theorem Tidy.apart (h : Tidy blocks) (hb : b ∈ blocks) (hc : c ∈ blocks) (hne : b ≠ c) :
    b.stop ≤ c.addr ∨ c.stop ≤ b.addr := by
  have hpair := h.ordered
  clear h
  induction blocks with
  | nil => cases hb
  | cons d blocks ih =>
    obtain ⟨hd, hrest⟩ := pairwise_cons.mp hpair
    rcases mem_cons.mp hb with rfl | hb'
    · rcases mem_cons.mp hc with rfl | hc'
      · exact absurd rfl hne
      · exact .inl (hd c hc')
    · rcases mem_cons.mp hc with rfl | hc'
      · exact .inr (hd b hb')
      · exact ih hb' hc' hrest

theorem Tidy.eq_of_addr (h : Tidy blocks) (hb : b ∈ blocks) (hc : c ∈ blocks)
    (heq : b.addr = c.addr) : b = c := by
  by_contra hne
  have happart := h.apart hb hc hne
  unfold Block.stop headerSize at happart
  omega

/-- The list is the same where the headers are. -/
theorem linked_of_sameHeader (h : blockCells.Linked m p blocks q)
    (hsame : ∀ b ∈ blocks, SameHeader m m' b.addr) : blockCells.Linked m' p blocks q := by
  refine h.congr fun b hb => ⟨fun hholds => ⟨?_, ?_⟩, (hsame b hb).next⟩
  · rw [(hsame b hb).size]
    exact hholds.1
  · rw [(hsame b hb).free]
    exact hholds.2

/-- The search finds a free block that is large enough, or nothing. -/
theorem fitLoop_spec (size passes : Nat) (h : blockCells.Linked m p blocks 0)
    (hpasses : blocks.length < passes) : fitLoop passes m p size = 0 ∨ ∃ b ∈ blocks, b.free = true ∧
    size ≤ b.size ∧ fitLoop passes m p size = b.addr := by
  induction blocks generalizing p passes with
  | nil =>
    obtain rfl : p = 0 := h
    cases passes <;> exact .inl rfl
  | cons b blocks ih =>
    obtain ⟨rfl, hne, hholds, hrest⟩ := h
    cases passes with
    | zero => exact absurd hpasses (Nat.not_lt_zero _)
    | succ passes =>
      rw [fitLoop, if_neg hne]
      split
      next hfit =>
        refine .inr ⟨b, mem_cons_self, hholds.2 ▸ hfit.1, hholds.1 ▸ hfit.2, rfl⟩
      next hno =>
        rcases ih passes hrest (Nat.lt_of_succ_lt_succ hpasses) with hzero | ⟨c, hc, hfit⟩
        · exact .inl hzero
        · exact .inr ⟨c, mem_cons_of_mem _ hc, hfit⟩

/-- The last block. -/
theorem tailLoop_spec (passes : Nat) (h : blockCells.Linked m p (xs ++ [b]) 0)
    (hpasses : xs.length < passes) : tailLoop passes m p = b.addr := by
  induction xs generalizing p passes with
  | nil =>
    obtain ⟨rfl, -, -, hnext⟩ := h
    cases passes with
    | zero => exact absurd hpasses (Nat.not_lt_zero _)
    | succ passes =>
      have hzero : blockNext m b.addr = 0 := hnext
      rw [tailLoop]
      exact if_pos hzero
  | cons c xs ih =>
    obtain ⟨rfl, -, -, hrest⟩ := h
    cases passes with
    | zero => exact absurd hpasses (Nat.not_lt_zero _)
    | succ passes =>
      have hne : blockNext m c.addr ≠ 0 := by
        intro hzero
        have hnil := Cells.Linked.eq_nil (hzero ▸ hrest : blockCells.Linked m 0 (xs ++ [b]) 0)
        exact absurd hnil (by simp)
      rw [tailLoop]
      exact (if_neg hne).trans (ih passes hrest (Nat.lt_of_succ_lt_succ hpasses))

/-! ### Replacing some blocks -/

/-- Blocks that fill a range without gaps. -/
def Fills : Nat → List Block → Nat → Prop
  | lo, [], hi => lo = hi
  | lo, b :: blocks, hi => b.addr = lo ∧ Fills b.stop blocks hi

/-- Nothing changes outside of a range. -/
def Confined (m m' : Buffer) (lo hi : Nat) : Prop := ∀ a, a < lo ∨ hi ≤ a → m' a = m a

/-- A block holds this address. -/
def Block.Has (b : Block) (a : Nat) : Prop := b.addr ≤ a ∧ a < b.stop

variable {lo hi : Nat} {zs mid : List Block}

theorem Block.addr_lt_stop (b : Block) : b.addr + 24 ≤ b.stop := by
  unfold Block.stop headerSize
  omega

theorem Fills.le (h : Fills lo zs hi) : lo ≤ hi := by
  induction zs generalizing lo with
  | nil => exact Nat.le_of_eq h
  | cons b zs ih =>
    have hrest := ih h.2
    have hstop := b.addr_lt_stop
    have haddr := h.1
    omega

theorem Fills.bounds (h : Fills lo zs hi) (hb : b ∈ zs) : lo ≤ b.addr ∧ b.stop ≤ hi := by
  induction zs generalizing lo with
  | nil => cases hb
  | cons c zs ih =>
    have hstop := c.addr_lt_stop
    have haddr := h.1
    have hle := h.2.le
    rcases mem_cons.mp hb with rfl | hb
    · omega
    · have hrest := ih h.2 hb
      omega

theorem Fills.has_iff (h : Fills lo zs hi) {a : Nat} : (∃ b ∈ zs, b.Has a) ↔ lo ≤ a ∧ a < hi := by
  constructor
  · rintro ⟨b, hb, hlo, hhi⟩
    have hbounds := h.bounds hb
    omega
  intro ha
  induction zs generalizing lo with
  | nil =>
    have heq : lo = hi := h
    omega
  | cons b zs ih =>
    by_cases hstop : a < b.stop
    · exact ⟨b, mem_cons_self, by rw [h.1]; exact ha.1, hstop⟩
    · obtain ⟨c, hc, hhas⟩ := ih h.2 ⟨by omega, ha.2⟩
      exact ⟨c, mem_cons_of_mem _ hc, hhas⟩

theorem Fills.ordered (h : Fills lo zs hi) : zs.Pairwise fun b c => b.stop ≤ c.addr := by
  induction zs generalizing lo with
  | nil => exact List.Pairwise.nil
  | cons b zs ih => exact pairwise_cons.mpr ⟨fun c hc => (h.2.bounds hc).1, ih h.2⟩

/-- The bytes of some blocks, with their headers. -/
def spaceOf (blocks : List Block) : Nat := (blocks.map fun b => headerSize + b.size).sum

theorem spaceOf_append (xs ys : List Block) : spaceOf (xs ++ ys) = spaceOf xs + spaceOf ys := by
  simp [spaceOf]

theorem Fills.space (h : Fills lo zs hi) : lo + spaceOf zs = hi := by
  induction zs generalizing lo with
  | nil => exact h
  | cons b zs ih =>
    have hrest := ih h.2
    have haddr := h.1
    unfold spaceOf at hrest ⊢
    rw [map_cons, sum_cons]
    unfold Block.stop at hrest
    omega

theorem length_le_space (blocks : List Block) : blocks.length ≤ spaceOf blocks := by
  induction blocks with
  | nil => exact Nat.le_refl _
  | cons b blocks ih =>
    unfold spaceOf headerSize at ih ⊢
    rw [map_cons, sum_cons, length_cons]
    omega

end Lists

/-- The heap consists of these blocks. -/
structure Tiles (h : Heap) (blocks : List Block) : Prop where
  linked : blockCells.Linked h.mem h.head blocks 0
  tidy : Tidy blocks
  covers : ∀ a, h.Obtained a ↔ ∃ b ∈ blocks, b.Has a
  space : spaceOf blocks = (h.regions.map Prod.snd).sum

section Tiles

variable {h : Heap} {m' : Buffer} {blocks xs ys zs mid : List Block} {lo hi : Nat} {b : Block}

theorem Tiles.length_lt (ht : Tiles h blocks) : blocks.length < h.passes := by
  have hle := length_le_space blocks
  rw [ht.space] at hle
  exact Nat.lt_succ_of_le hle

/-- What comes before and behind some blocks that fill a range. -/
theorem Tidy.around (ht : Tidy (xs ++ (zs ++ ys))) (hne : zs ≠ []) (hold : Fills lo zs hi) :
    (∀ b ∈ xs, b.stop ≤ lo) ∧ ∀ b ∈ ys, hi ≤ b.addr := by
  have hpair := ht.ordered
  rw [pairwise_append, pairwise_append] at hpair
  obtain ⟨-, ⟨-, -, hzy⟩, hxz⟩ := hpair
  constructor
  · intro b hb
    cases zs with
    | nil => exact absurd rfl hne
    | cons z zs =>
      rw [← hold.1]
      exact hxz b hb z (mem_append_left _ mem_cons_self)
  intro b hb
  have hstop : ∃ z ∈ zs, z.stop = hi := by
    clear hzy hxz ht
    induction zs generalizing lo with
    | nil => exact absurd rfl hne
    | cons z zs ih =>
      cases zs with
      | nil => exact ⟨z, mem_cons_self, hold.2⟩
      | cons z' zs =>
        obtain ⟨y, hy, hstop⟩ := ih (cons_ne_nil _ _) hold.2
        exact ⟨y, mem_cons_of_mem _ hy, hstop⟩
  obtain ⟨z, hz, rfl⟩ := hstop
  exact hzy z hz b hb

/-- Blocks that fill a range are replaced by others that fill it. -/
theorem Tiles.replace (ht : Tiles h (xs ++ (zs ++ ys))) (hne : zs ≠ []) (hold : Fills lo zs hi)
    (hnew : Fills lo mid hi) (hconf : Confined h.mem m' lo hi)
    (hmid : ∀ r r', blockCells.Linked h.mem r zs r' → blockCells.Linked m' r mid r') :
    Tiles { h with mem := m' } (xs ++ (mid ++ ys)) := by
  obtain ⟨hbefore, hbehind⟩ := ht.tidy.around hne hold
  obtain ⟨r, hxs, hrest⟩ := Cells.linked_append.mp ht.linked
  obtain ⟨r', hzs, hys⟩ := Cells.linked_append.mp hrest
  have hpair := ht.tidy.ordered
  rw [pairwise_append, pairwise_append] at hpair
  obtain ⟨hxx, ⟨-, hyy, -⟩, hxzy⟩ := hpair
  have hhi : hi ≤ 2 ^ 64 := by
    cases zs with
    | nil => exact absurd rfl hne
    | cons z zs =>
      by_contra hlarge
      have hlt : hi - 1 < hi := by
        have := hold.le
        omega
      obtain ⟨b, hb, -, hb'⟩ := hold.has_iff.mpr ⟨by
        have := (hold.bounds mem_cons_self).2
        have := z.addr_lt_stop
        have := hold.1
        omega, hlt⟩
      have hsmall := ht.tidy.small b (mem_append_right _ (mem_append_left _ hb))
      omega
  refine ⟨?_, ⟨?_, ?_⟩, fun a => ?_, ?_⟩
  · refine Cells.linked_append.mpr ⟨r, ?_, Cells.linked_append.mpr ⟨r', hmid r r' hzs, ?_⟩⟩
    · refine linked_of_sameHeader hxs fun b hb k hk => hconf _ ?_
      have hstop := hbefore b hb
      have haddr := b.addr_lt_stop
      omega
    · refine linked_of_sameHeader hys fun b hb k hk => hconf _ ?_
      have haddr := hbehind b hb
      omega
  · rw [pairwise_append, pairwise_append]
    refine ⟨hxx, ⟨hnew.ordered, hyy, fun b hb c hc => ?_⟩, fun b hb c hc => ?_⟩
    · exact Nat.le_trans (hnew.bounds hb).2 (hbehind c hc)
    · rcases mem_append.mp hc with hc | hc
      · exact Nat.le_trans (hbefore b hb) (hnew.bounds hc).1
      · exact hxzy b hb c (mem_append_right _ hc)
  · intro b hb
    rcases mem_append.mp hb with hb | hb
    · exact ht.tidy.small b (mem_append_left _ hb)
    · rcases mem_append.mp hb with hb | hb
      · exact Nat.le_trans (hnew.bounds hb).2 hhi
      · exact ht.tidy.small b (mem_append_right _ (mem_append_right _ hb))
  · rw [show Heap.Obtained { h with mem := m' } a ↔ h.Obtained a from Iff.rfl, ht.covers a]
    simp only [mem_append, or_and_right, exists_or, hold.has_iff, hnew.has_iff]
  have hspace := ht.space
  have h₁ := hold.space
  have h₂ := hnew.space
  rw [spaceOf_append, spaceOf_append] at hspace ⊢
  show _ = (h.regions.map Prod.snd).sum
  omega

/-- The other blocks keep their contents. -/
theorem Tiles.keeps_replace (ht : Tiles h (xs ++ (zs ++ ys))) (hne : zs ≠ [])
    (hold : Fills lo zs hi) (hconf : Confined h.mem m' lo hi) {P : Block → Prop}
    (hzs : ∀ z ∈ zs, z.free = false → ¬P z) :
    Keeps P h.mem (xs ++ (zs ++ ys)) m' (xs ++ (mid ++ ys)) := by
  obtain ⟨hbefore, hbehind⟩ := ht.tidy.around hne hold
  intro b hb hfree hP
  rcases mem_append.mp hb with hb | hb
  · refine ⟨mem_append_left _ hb, fun a _ ha => hconf a ?_⟩
    have := hbefore b hb
    omega
  rcases mem_append.mp hb with hb | hb
  · exact absurd hP (hzs b hb hfree)
  · refine ⟨mem_append_right _ (mem_append_right _ hb), fun a ha _ => hconf a ?_⟩
    have := hbehind b hb
    omega

theorem Keeps.refl {P : Block → Prop} {m : Buffer} : Keeps P m blocks m blocks :=
  fun _ hb _ _ => ⟨hb, fun _ _ _ => rfl⟩

theorem Keeps.trans {P : Block → Prop} {m m₁ m₂ : Buffer} {blocks₁ blocks₂ : List Block}
    (h₁ : Keeps P m blocks m₁ blocks₁) (h₂ : Keeps P m₁ blocks₁ m₂ blocks₂) :
    Keeps P m blocks m₂ blocks₂ := by
  intro b hb hfree hP
  obtain ⟨hb₁, hsame₁⟩ := h₁ b hb hfree hP
  obtain ⟨hb₂, hsame₂⟩ := h₂ b hb₁ hfree hP
  exact ⟨hb₂, fun a hlo hhi => (hsame₂ a hlo hhi).trans (hsame₁ a hlo hhi)⟩

theorem Keeps.mono {P Q : Block → Prop} {m m₁ : Buffer} {blocks₁ : List Block}
    (h : Keeps P m blocks m₁ blocks₁) (hPQ : ∀ b, Q b → P b) : Keeps Q m blocks m₁ blocks₁ :=
  fun b hb hfree hQ => h b hb hfree (hPQ b hQ)

end Tiles

/-! ## Updates -/

section Updates

variable {m : Buffer} {b c : Block} {r r' size : Nat}

theorem linked_one : blockCells.Linked m r [b] r' ↔ r = b.addr ∧ r ≠ 0 ∧
    (blockSize m b.addr = b.size ∧ blockFree m b.addr = b.free) ∧ blockNext m r = r' :=
  Iff.rfl

theorem fills_one (b : Block) : Fills b.addr [b] b.stop := ⟨rfl, rfl⟩

/-- The flag of a block is set. -/
theorem linked_setFree (flag : Bool) (h : blockCells.Linked m r [b] r') :
    blockCells.Linked (setFree m b.addr flag) r [{ b with free := flag }] r' := by
  obtain ⟨rfl, hne, ⟨hsize, -⟩, hnext⟩ := linked_one.mp h
  refine ⟨rfl, hne, ⟨?_, ?_⟩, ?_⟩
  · exact blockSize_setFree.trans hsize
  · exact blockFree_setFree
  · exact blockNext_setFree.trans hnext

theorem confined_setFree (flag : Bool) : Confined m (setFree m b.addr flag) b.addr b.stop := by
  intro a ha
  have hstop := b.addr_lt_stop
  exact setFree_of_outside (by omega)

/-- What `splitBlock` makes of a block. -/
def Block.split (b : Block) (size : Nat) : List Block :=
  if size + headerSize + mallocAlign ≤ b.size then
    [⟨b.addr, size, b.free⟩, ⟨b.addr + headerSize + size, b.size - size - headerSize, true⟩]
  else [b]

theorem fills_split (b : Block) (size : Nat) : Fills b.addr (b.split size) b.stop := by
  unfold Block.split
  split
  next hroom =>
    refine ⟨rfl, rfl, ?_⟩
    show b.addr + headerSize + size + headerSize + (b.size - size - headerSize) =
      b.addr + headerSize + b.size
    omega
  · exact fills_one b

/-- Nothing wraps when the request is small enough. -/
theorem splitBlock_eq
    (hreq : size ≤ requestMax) (hsize : blockSize m b.addr = b.size) (hsmall : b.stop ≤ 2 ^ 64) :
    splitBlock m b.addr size = if size + headerSize + mallocAlign ≤ b.size then
        let rest := b.addr + headerSize + size
        let m' := setSize m rest (b.size - size - headerSize)
        let m' := setNext m' rest (blockNext m' b.addr)
        let m' := setFree m' rest true
        let m' := setSize m' b.addr size
        setNext m' b.addr rest
      else m := by
  unfold requestMax Block.stop at *
  unfold splitBlock headerSize mallocAlign at *
  rw [hsize, Nat.mod_eq_of_lt (show size + 24 + 16 < 2 ^ 64 by omega)]
  split
  next hroom =>
    have hwrap : ∀ rest, setSize m rest (b.size + 2 ^ 65 - size - 24) =
        setSize m rest (b.size - size - 24) :=
      fun rest => setSize_wrapped (by omega)
    simp only [Nat.mod_eq_of_lt (show b.addr + 24 + size < 2 ^ 64 by omega), hwrap]
  · rfl

theorem confined_splitBlock (hreq : size ≤ requestMax) (hsize : blockSize m b.addr = b.size)
    (hsmall : b.stop ≤ 2 ^ 64) :
    Confined m (splitBlock m b.addr size) b.addr b.stop := by
  intro a ha
  rw [splitBlock_eq hreq hsize hsmall]
  split
  next hroom =>
    unfold Block.stop headerSize mallocAlign at *
    simp (disch := omega) only [setNext_of_outside, setSize_of_outside, setFree_of_outside]
  · rfl

theorem linked_splitBlock (hreq : size ≤ requestMax) (hsmall : b.stop ≤ 2 ^ 64)
    (h : blockCells.Linked m r [b] r') :
    blockCells.Linked (splitBlock m b.addr size) r (b.split size) r' := by
  obtain ⟨rfl, hne, ⟨hsize, hfree⟩, hnext⟩ := linked_one.mp h
  have hr' : r' < 2 ^ 64 := hnext ▸ BitVec.isLt _
  rw [splitBlock_eq hreq hsize hsmall]
  unfold Block.split
  split
  next hroom =>
    unfold Block.stop headerSize mallocAlign at *
    dsimp only
    generalize hrest : b.addr + 24 + size = rest
    have hapart : b.addr + 24 ≤ rest := by omega
    generalize hm₁ : setSize m rest (b.size - size - 24) = m₁
    generalize hm₂ : setNext m₁ rest (blockNext m₁ b.addr) = m₂
    generalize hm₃ : setFree m₂ rest true = m₃
    generalize hm₄ : setSize m₃ b.addr size = m₄
    have hold : SameHeader m m₃ b.addr := by
      rw [← hm₃, ← hm₂, ← hm₁]
      exact ((sameHeader_setSize (by omega)).trans (sameHeader_setNext (by omega))).trans
        (sameHeader_setFree (by omega))
    have hold₁ : SameHeader m m₁ b.addr := hm₁ ▸ sameHeader_setSize (by omega)
    have hnew : SameHeader m₃ (setNext m₄ b.addr rest) rest := by
      rw [← hm₄]
      exact (sameHeader_setSize (by omega)).trans (sameHeader_setNext (by omega))
    refine ⟨rfl, hne, ⟨?_, ?_⟩, ?_, ?_, ⟨?_, ?_⟩, ?_⟩
    · show blockSize (setNext m₄ b.addr rest) b.addr = size
      rw [blockSize_setNext, ← hm₄, blockSize_setSize (by omega)]
    · show blockFree (setNext m₄ b.addr rest) b.addr = b.free
      rw [blockFree_setNext, ← hm₄, blockFree_setSize, hold.free, hfree]
    · show blockNext (setNext m₄ b.addr rest) b.addr = rest
      exact blockNext_setNext (by omega)
    · show blockNext (setNext m₄ b.addr rest) b.addr ≠ 0
      rw [blockNext_setNext (by omega)]
      omega
    · show blockSize (setNext m₄ b.addr rest) rest = _
      rw [hnew.size, ← hm₃, blockSize_setFree, ← hm₂, blockSize_setNext, ← hm₁,
        blockSize_setSize (by omega)]
    · show blockFree (setNext m₄ b.addr rest) rest = true
      rw [hnew.free, ← hm₃, blockFree_setFree]
    · show blockNext (setNext m₄ b.addr rest) (blockNext (setNext m₄ b.addr rest) b.addr) = r'
      rw [blockNext_setNext (by omega), hnew.next, ← hm₃, blockNext_setFree, ← hm₂, hold₁.next,
        hnext, blockNext_setNext hr']
  · exact h

/-- Two neighbours become one block. -/
def Block.absorb (b c : Block) : Block := ⟨b.addr, b.size + (headerSize + c.size), b.free⟩

variable (hend : b.stop = c.addr)

include hend

theorem Block.stop_absorb : (b.absorb c).stop = c.stop := by
  unfold Block.stop Block.absorb at *
  simp only
  omega

theorem fills_two : Fills b.addr [b, c] c.stop := ⟨rfl, hend.symm, rfl⟩

theorem fills_absorb : Fills b.addr [b.absorb c] c.stop :=
  ⟨rfl, Block.stop_absorb hend⟩

theorem confined_absorbNext : Confined m (absorbNext m b.addr) b.addr c.stop := by
  intro a ha
  have hb := b.addr_lt_stop
  have hc := c.addr_lt_stop
  unfold absorbNext
  rw [setNext_of_outside (by omega), setSize_of_outside (by omega)]

theorem linked_absorbNext (hsmall : c.stop ≤ 2 ^ 64) (h : blockCells.Linked m r [b, c] r') :
    blockCells.Linked (absorbNext m b.addr) r [b.absorb c] r' := by
  obtain ⟨rfl, hne, ⟨hsize, hfree⟩, hnext, -, ⟨hsize', -⟩, hnext'⟩ := h
  have hnext : blockNext m b.addr = c.addr := hnext
  have hnext' : blockNext m (blockNext m b.addr) = r' := hnext'
  have hr' : r' < 2 ^ 64 := hnext' ▸ BitVec.isLt _
  rw [hnext] at hnext'
  have hb := b.addr_lt_stop
  have hsum : b.size + (headerSize + c.size) < 2 ^ 64 := by
    unfold Block.stop headerSize at *
    omega
  have hsame : SameHeader m (setSize m b.addr (b.size + (headerSize + c.size))) c.addr :=
    sameHeader_setSize (by omega)
  have hsize : blockSize m b.addr = b.size := hsize
  have hsize' : blockSize m c.addr = c.size := hsize'
  have habsorb : absorbNext m b.addr =
      setNext (setSize m b.addr (b.size + (headerSize + c.size))) b.addr r' := by
    unfold absorbNext
    dsimp only
    rw [hsize, hnext, hsize', blockNext_setSize, hnext, hsame.next, hnext']
  rw [habsorb]
  refine ⟨rfl, hne, ⟨?_, ?_⟩, ?_⟩
  · exact blockSize_setNext.trans (blockSize_setSize hsum)
  · exact (blockFree_setNext.trans blockFree_setSize).trans hfree
  · exact blockNext_setNext hr'

end Updates

/-! ## Blocks of the heap -/

section Operations

variable {h : Heap} {blocks xs ys : List Block} {b c : Block} {p : Nat}

theorem Tiles.setFree (ht : Tiles h (xs ++ ([b] ++ ys))) (flag : Bool) : Tiles
    { h with mem := Libc.setFree h.mem b.addr flag } (xs ++ ([{ b with free := flag }] ++ ys)) :=
  ht.replace (cons_ne_nil _ _) (fills_one b) (fills_one { b with free := flag })
    (confined_setFree flag) fun _ _ => linked_setFree flag

theorem Tiles.holds (ht : Tiles h blocks) (hb : b ∈ blocks) :
    blockSize h.mem b.addr = b.size ∧ blockFree h.mem b.addr = b.free :=
  ht.linked.holds_of_mem hb

theorem Tiles.split (ht : Tiles h (xs ++ ([b] ++ ys))) {size : Nat} (hreq : size ≤ requestMax) :
    Tiles { h with mem := splitBlock h.mem b.addr size } (xs ++ (b.split size ++ ys)) := by
  have hb : b ∈ xs ++ ([b] ++ ys) := mem_append_right _ (mem_append_left _ mem_cons_self)
  have hsmall := ht.tidy.small b hb
  exact ht.replace (cons_ne_nil _ _) (fills_one b) (fills_split b size)
    (confined_splitBlock hreq (ht.holds hb).1 hsmall) fun _ _ => linked_splitBlock hreq hsmall

theorem Tiles.absorb (ht : Tiles h (xs ++ ([b, c] ++ ys))) (hend : b.stop = c.addr) :
    Tiles { h with mem := absorbNext h.mem b.addr } (xs ++ ([b.absorb c] ++ ys)) := by
  have hc : c ∈ xs ++ ([b, c] ++ ys) :=
    mem_append_right _ (mem_append_left _ (mem_cons_of_mem _ mem_cons_self))
  exact ht.replace (cons_ne_nil _ _) (fills_two hend) (fills_absorb hend) (confined_absorbNext hend)
    fun _ _ => linked_absorbNext hend (ht.tidy.small c hc)

/-- What `malloc_coalesce` makes of the list. -/
def coalesceBlocks : List Block → List Block
  | [] => []
  | [b] => [b]
  | b :: c :: blocks =>
    if b.free = true ∧ c.free = true ∧ b.stop = c.addr then coalesceBlocks (b.absorb c :: blocks)
    else b :: coalesceBlocks (c :: blocks)
termination_by blocks => blocks.length

/-- Blocks that are left have their flag. -/
theorem exists_of_mem_coalesceBlocks {c : Block} {blocks : List Block}
    (hc : c ∈ coalesceBlocks blocks) : ∃ d ∈ blocks, d.addr = c.addr ∧ d.free = c.free := by
  fun_induction coalesceBlocks blocks with
  | case1 => cases hc
  | case2 b => exact ⟨c, hc, rfl, rfl⟩
  | case3 b d blocks hmerge ih =>
    obtain ⟨e, he, haddr, hfree⟩ := ih hc
    rcases mem_cons.mp he with rfl | he
    · exact ⟨b, mem_cons_self, haddr, hfree⟩
    · exact ⟨e, mem_cons_of_mem _ (mem_cons_of_mem _ he), haddr, hfree⟩
  | case4 b d blocks hmerge ih =>
    rcases mem_cons.mp hc with rfl | hc
    · exact ⟨c, mem_cons_self, rfl, rfl⟩
    · obtain ⟨e, he, hsame⟩ := ih hc
      exact ⟨e, mem_cons_of_mem _ he, hsame⟩

/-- Free neighbours are merged from a block on; allocated blocks are not touched. -/
theorem coalesceLoop_spec (passes : Nat) (ht : Tiles h (xs ++ blocks))
    (hp : blockCells.Linked h.mem p blocks 0) (hpasses : blocks.length < passes) :
    Tiles { h with mem := coalesceLoop passes h.mem p } (xs ++ coalesceBlocks blocks) ∧
      Keeps (fun _ => True) h.mem (xs ++ blocks) (coalesceLoop passes h.mem p)
        (xs ++ coalesceBlocks blocks) := by
  induction passes generalizing h xs blocks p with
  | zero => exact absurd hpasses (Nat.not_lt_zero _)
  | succ passes ih =>
    match blocks, ht, hp, hpasses with
    | [], ht, hp, _ =>
      obtain rfl : p = 0 := hp
      rw [coalesceLoop, if_pos rfl, coalesceBlocks]
      exact ⟨ht, .refl⟩
    | [b], ht, hp, _ =>
      obtain ⟨-, hne, -, hnext⟩ := hp
      have hnext : blockNext h.mem p = 0 := hnext
      rw [coalesceLoop, if_neg hne]
      simp only [hnext, if_true]
      rw [coalesceBlocks]
      exact ⟨ht, .refl⟩
    | b :: c :: blocks, ht, hp, hpasses =>
      have hlinked := hp
      obtain ⟨rfl, hne, hb, hrest⟩ := hp
      have hne : b.addr ≠ 0 := hne
      obtain ⟨hnext, hne', hc, -⟩ := hrest
      have hnext : blockNext h.mem b.addr = c.addr := hnext
      have hne' : c.addr ≠ 0 := hnext ▸ hne'
      have hiff : (blockFree h.mem b.addr = true ∧ blockFree h.mem c.addr = true ∧
          b.addr + headerSize + blockSize h.mem b.addr = c.addr) ↔
          b.free = true ∧ c.free = true ∧ b.stop = c.addr := by
        rw [hb.1, hb.2, hc.2]
        rfl
      show Tiles { h with mem := coalesceLoop (passes + 1) h.mem b.addr } _ ∧
        Keeps _ _ _ (coalesceLoop (passes + 1) h.mem b.addr) _
      rw [coalesceLoop, if_neg hne, coalesceBlocks]
      simp only [hnext, if_neg hne']
      by_cases hmerge : b.free = true ∧ c.free = true ∧ b.stop = c.addr
      · rw [if_pos (hiff.mpr hmerge), if_pos hmerge]
        have ht : Tiles h (xs ++ ([b, c] ++ blocks)) := ht
        have hstep := ht.absorb hmerge.2.2
        obtain ⟨r, -, hr⟩ := Cells.linked_append.mp hstep.linked
        obtain rfl : r = b.addr := hr.1
        obtain ⟨htiles, hkeeps⟩ := ih hstep hr (by simpa using Nat.lt_of_succ_lt_succ hpasses)
        refine ⟨htiles, Keeps.trans ?_ hkeeps⟩
        refine ht.keeps_replace (cons_ne_nil _ _) (fills_two hmerge.2.2)
          (confined_absorbNext hmerge.2.2) ?_
        intro z hz hfree
        rcases mem_cons.mp hz with rfl | hz
        · exact absurd hfree (by rw [hmerge.1]; decide)
        · rw [mem_singleton.mp hz, hmerge.2.1] at hfree
          cases hfree
      · rw [if_neg fun hcond => hmerge (hiff.mp hcond), if_neg hmerge]
        have hassoc : xs ++ b :: c :: blocks = (xs ++ [b]) ++ c :: blocks := by simp
        rw [hassoc] at ht ⊢
        rw [show xs ++ b :: coalesceBlocks (c :: blocks) = (xs ++ [b]) ++ coalesceBlocks
          (c :: blocks) by simp]
        have hlinked' : blockCells.Linked h.mem c.addr (c :: blocks) 0 := by
          have hrest := hlinked.2.2.2
          rwa [show blockCells.next h.mem (blockCells.addr b) = c.addr from hnext] at hrest
        exact ih ht hlinked' (Nat.lt_of_succ_lt_succ hpasses)

end Operations

end PureCOS.Libc
