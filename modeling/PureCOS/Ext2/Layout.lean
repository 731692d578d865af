import PureCOS.Ext2.Format

/-!
# The layout of a new volume

What `ext2_format_at` leaves on the device, and for which partition sizes it is a
consistent volume.

The data it writes do not depend on what is on the device, so a run that succeeds is
the same as making a fixed list of writes (`Writes`).  Where the writes come one after
the other without overlap (`Serial`), each of them is found on the device afterwards.
-/

namespace PureCOS.Ext2

open Buffer List

section Lists

variable {α β : Type} {ws ws' : List Write} {w : Write} {x lo mid hi : Nat}
  {sectors : Nat → Buffer}

/-- Effect of a list of writes. -/
def applyAll (ws : List Write) (sectors : Nat → Buffer) : Nat → Buffer :=
  ws.foldl (fun s w => w.apply s) sectors

/-- When it succeeds, the program makes these writes. -/
def Writes (p : Proc Device α) (ws : List Write) : Prop :=
  ∀ d d' a, p d = (d', some a) →
    d'.sectors = applyAll ws d.sectors ∧ d'.log = d.log ++ ws.map fun w => (w.lba, w.count)

theorem Writes.pure (a : α) : Writes (Pure.pure a : Proc Device α) [] := by
  intro d d' b h
  obtain ⟨rfl, -⟩ := Prod.mk.inj h
  exact ⟨rfl, (append_nil _).symm⟩

theorem Writes.bind {p : Proc Device α} {f : α → Proc Device β}
    (hp : Writes p ws) (hf : ∀ a, Writes (f a) ws') : Writes (p >>= f) (ws ++ ws') := by
  intro d d' b h
  obtain ⟨d₁, a, hfirst, hsecond⟩ := Proc.bind_eq_some h
  obtain ⟨hs₁, hl₁⟩ := hp d d₁ a hfirst
  obtain ⟨hs₂, hl₂⟩ := hf a d₁ d' b hsecond
  constructor
  · rw [hs₂, hs₁]
    exact (foldl_append ..).symm
  · rw [hl₂, hl₁, map_append, append_assoc]

theorem writes_blockDeviceWriteSectors (lba count : Nat) (data : Buffer) :
    Writes (blockDeviceWriteSectors lba data count) [⟨lba, count, data⟩] := by
  intro d d' a h
  unfold blockDeviceWriteSectors at h
  split at h
  · obtain ⟨rfl, -⟩ := Prod.mk.inj h
    exact ⟨rfl, rfl⟩
  · simp at h

theorem Writes.cons {lba count : Nat} {data : Buffer} {f : Unit → Proc Device β}
    (hf : ∀ a, Writes (f a) ws) :
    Writes (blockDeviceWriteSectors lba data count >>= f) (⟨lba, count, data⟩ :: ws) :=
  Writes.bind (writes_blockDeviceWriteSectors lba count data) hf

theorem writes_blockDeviceFlush : Writes blockDeviceFlush [] := by
  intro d d' a h
  obtain ⟨rfl, -⟩ := Prod.mk.inj h
  exact ⟨rfl, (append_nil _).symm⟩

/-- The writes come one after the other between two sectors. -/
def Serial : List Write → Nat → Nat → Prop
  | [], lo, hi => lo ≤ hi
  | w :: ws, lo, hi => lo ≤ w.lba ∧ Serial ws (w.lba + w.count) hi

theorem Serial.le (h : Serial ws lo hi) : lo ≤ hi := by
  induction ws generalizing lo with
  | nil => exact h
  | cons w ws ih =>
    have := ih h.2
    have := h.1
    omega

theorem Serial.append (h : Serial ws lo mid) (h' : Serial ws' mid hi) :
    Serial (ws ++ ws') lo hi := by
  induction ws generalizing lo with
  | nil =>
    cases ws' with
    | nil => exact Nat.le_trans h h'
    | cons w ws' => exact ⟨Nat.le_trans h h'.1, h'.2⟩
  | cons w ws ih => exact ⟨h.1, ih h.2⟩

theorem Serial.bounds (h : Serial ws lo hi) (hw : w ∈ ws) : lo ≤ w.lba ∧ w.lba + w.count ≤ hi := by
  induction ws generalizing lo with
  | nil => simp at hw
  | cons v ws ih =>
    rcases mem_cons.mp hw with rfl | hw
    · exact ⟨h.1, h.2.le⟩
    · have := (ih h.2 hw).1
      have := h.1
      exact ⟨by omega, (ih h.2 hw).2⟩

theorem applyAll_of_not_covers (h : ∀ w ∈ ws, ¬ w.Covers x) :
    applyAll ws sectors x = sectors x := by
  induction ws generalizing sectors with
  | nil => rfl
  | cons w ws ih =>
    show applyAll ws (w.apply sectors) x = sectors x
    rw [ih fun v hv => h v (mem_cons_of_mem _ hv)]
    exact if_neg (h w mem_cons_self)

/-- A sector holds what the write that covers it put there. -/
theorem Serial.sector (h : Serial ws lo hi) (hw : w ∈ ws) (hx : w.Covers x) :
    applyAll ws sectors x = w.sector x := by
  induction ws generalizing lo sectors with
  | nil => simp at hw
  | cons v ws ih =>
    show applyAll ws (v.apply sectors) x = w.sector x
    rcases mem_cons.mp hw with rfl | hw
    · rw [applyAll_of_not_covers fun u hu hc => ?_]
      · exact if_pos hx
      · have hb := (h.2.bounds hu).1
        unfold Write.Covers at hx hc
        omega
    · exact ih h.2 hw

end Lists

section Program

variable {partLba : Nat}

/-- Writes of `write_zero_sectors`. -/
def zeroWrites : Nat → Nat → Nat → List Write
  | 0, _, _ => []
  | rounds + 1, lba, count =>
    if count = 0 then
      []
    else
      ⟨lba, min count 32, zero⟩ ::
        zeroWrites rounds (lba32 (lba + min count 32)) (count - min count 32)

theorem writes_writeZeroSectors (rounds lba count : Nat) :
    Writes (writeZeroSectors rounds lba count) (zeroWrites rounds lba count) := by
  induction rounds generalizing lba count with
  | zero => exact Writes.pure ()
  | succ rounds ih =>
    unfold writeZeroSectors zeroWrites
    split
    · exact Writes.pure ()
    · exact Writes.cons fun _ => ih _ _

/-- A block of the volume. -/
def fsBlockWrite (partLba block : Nat) (data : Buffer) : Write :=
  ⟨lba32 (partLba + block * 2), 2, data⟩

/-- Writes of the descriptor table. -/
def descriptorWrites (partLba total groups : Nat) : Nat → Nat → List Write
  | 0, _ => []
  | n + 1, b =>
    fsBlockWrite partLba (2 + b) (descriptorBlock total groups b 32) ::
      descriptorWrites partLba total groups n (b + 1)

theorem writes_writeDescriptors (partLba total groups n b : Nat) :
    Writes (writeDescriptors partLba total groups n b)
      (descriptorWrites partLba total groups n b) := by
  induction n generalizing b with
  | zero => exact Writes.pure ()
  | succ n ih =>
    have hlba : lba32 (partLba + 4 + b * 2) = lba32 (partLba + (2 + b) * 2) := by
      congr 1
      omega
    unfold writeDescriptors descriptorWrites fsBlockWrite
    rw [hlba]
    exact Writes.cons fun _ => ih _

/-- Writes for one of the groups after the first. -/
def groupWrites (partLba g : Nat) : List Write :=
  fsBlockWrite partLba (g * blocksPerGroup) (setFirst metaBlocksOther) ::
    zeroWrites ((1 + 128) * 2) (lba32 (partLba + (g * blocksPerGroup + 1) * 2)) ((1 + 128) * 2)

/-- Writes for `n` groups from `g` on. -/
def groupsWrites (partLba : Nat) : Nat → Nat → List Write
  | 0, _ => []
  | n + 1, g => groupWrites partLba g ++ groupsWrites partLba n (g + 1)

theorem writes_writeGroups (partLba n g : Nat) :
    Writes (writeGroups partLba n g) (groupsWrites partLba n g) := by
  induction n generalizing g with
  | zero => exact Writes.pure ()
  | succ n ih =>
    have h := Writes.bind (writes_blockDeviceWriteSectors
      (lba32 (partLba + g * blocksPerGroup * 2)) 2 (setFirst metaBlocksOther)) fun _ =>
        Writes.bind (writes_writeZeroSectors ((1 + 128) * 2)
          (lba32 (partLba + (g * blocksPerGroup + 1) * 2)) ((1 + 128) * 2)) fun _ => ih (g + 1)
    exact h

/-- Writes for the superblock, the descriptor table and the first group. -/
def headWrites (partLba total groups : Nat) : List Write :=
  fsBlockWrite partLba 1 (superBlock total groups) ::
    (descriptorWrites partLba total groups (gdBlocks groups) 0 ++
      fsBlockWrite partLba (bmb0 groups) (setFirst (metaG0Alloc groups)) ::
      fsBlockWrite partLba (imb0 groups) (setFirst 11) ::
      fsBlockWrite partLba (itb0 groups) (rootInodeBlock groups) ::
      (zeroWrites (127 * 2) (lba32 (partLba + (itb0 groups + 1) * 2)) (127 * 2) ++
        [fsBlockWrite partLba (rootDataBlock groups) rootDirectory]))

/-- All writes of a successful run. -/
def allWrites (partLba total groups : Nat) : List Write :=
  headWrites partLba total groups ++ groupsWrites partLba (groups - 1) 1

theorem writes_formatWrites (partLba total : Nat) :
    Writes (formatWrites partLba total) (allWrites partLba total (groupCount total)) := by
  have h : Writes (formatWrites partLba total) _ :=
    Writes.cons fun _ =>
    Writes.bind (writes_writeDescriptors _ _ _ _ _) fun _ =>
    Writes.cons fun _ =>
    Writes.cons fun _ =>
    Writes.cons fun _ =>
    Writes.bind (writes_writeZeroSectors _ _ _) fun _ =>
    Writes.cons fun _ =>
    Writes.bind (writes_writeGroups _ _ _) fun _ => writes_blockDeviceFlush
  simpa [allWrites, headWrites, fsBlockWrite] using h

end Program

section Placement

variable {partLba total groups lba count n b g : Nat} {ws : List Write} {w : Write}
  {x lo lo' hi hi' : Nat} {data : Buffer} {sectors : Nat → Buffer}

theorem lba32_of_lt (h : lba < 2 ^ 32) : lba32 lba = lba := Nat.mod_eq_of_lt h

theorem Serial.mono (h : Serial ws lo hi) (hlo : lo' ≤ lo) (hhi : hi ≤ hi') :
    Serial ws lo' hi' := by
  induction ws generalizing lo lo' with
  | nil => exact Nat.le_trans hlo (Nat.le_trans h hhi)
  | cons w ws ih => exact ⟨Nat.le_trans hlo h.1, ih h.2 (Nat.le_refl _)⟩

theorem zeroWrites_zero (rounds lba : Nat) : zeroWrites rounds lba 0 = [] := by
  cases rounds with
  | zero => rfl
  | succ rounds => rfl

/-- The sector after a chunk, as long as there is more to write. -/
theorem zeroWrites_next (rounds : Nat) (h : lba + count ≤ 2 ^ 32) (hn : n ≤ count) :
    zeroWrites rounds (lba32 (lba + n)) (count - n) = zeroWrites rounds (lba + n) (count - n) := by
  by_cases hc : count - n = 0
  · rw [hc, zeroWrites_zero, zeroWrites_zero]
  · rw [lba32_of_lt (by omega)]

theorem serial_zeroWrites (rounds : Nat) (hr : count ≤ rounds) (h : lba + count ≤ 2 ^ 32) :
    Serial (zeroWrites rounds lba count) lba (lba + count) := by
  induction rounds generalizing lba count with
  | zero =>
    obtain rfl : count = 0 := by omega
    exact Nat.le_refl _
  | succ rounds ih =>
    unfold zeroWrites
    split
    · exact Nat.le_add_right _ _
    have hn : min count 32 ≤ count := Nat.min_le_left _ _
    refine ⟨Nat.le_refl _, ?_⟩
    rw [zeroWrites_next rounds h hn]
    have hsum : lba + min count 32 + (count - min count 32) = lba + count := by omega
    rw [← hsum]
    exact ih (by omega) (by omega)

theorem fsBlockWrite_lba (h : partLba + (b + 1) * 2 ≤ 2 ^ 32) :
    (fsBlockWrite partLba b data).lba = partLba + b * 2 :=
  lba32_of_lt (by omega)

/-- One block, followed by further writes. -/
theorem Serial.cons_fsBlock (h : partLba + (b + 1) * 2 ≤ 2 ^ 32) (hlo : lo ≤ partLba + b * 2)
    (hws : Serial ws (partLba + (b + 1) * 2) hi) :
    Serial (fsBlockWrite partLba b data :: ws) lo hi := by
  have hend : partLba + b * 2 + 2 = partLba + (b + 1) * 2 := by omega
  refine ⟨?_, ?_⟩
  · rw [fsBlockWrite_lba h]
    exact hlo
  rw [fsBlockWrite_lba h]
  show Serial ws (partLba + b * 2 + 2) hi
  rw [hend]
  exact hws

theorem serial_descriptorWrites (n b : Nat) (h : partLba + (2 + b + n) * 2 ≤ 2 ^ 32) :
    Serial (descriptorWrites partLba total groups n b) (partLba + (2 + b) * 2)
      (partLba + (2 + b + n) * 2) := by
  induction n generalizing b with
  | zero => exact Nat.le_refl _
  | succ n ih =>
    refine Serial.cons_fsBlock (by omega) (Nat.le_refl _) ?_
    have := ih (b + 1) (by omega)
    rwa [show 2 + (b + 1) = 2 + b + 1 by omega,
      show 2 + b + 1 + n = 2 + b + (n + 1) by omega] at this

theorem mem_descriptorWrites (partLba total groups : Nat) {k : Nat} (b : Nat) (hk : k < n) :
    fsBlockWrite partLba (2 + (b + k)) (descriptorBlock total groups (b + k) 32) ∈
      descriptorWrites partLba total groups n b := by
  induction n generalizing b k with
  | zero => omega
  | succ n ih =>
    cases k with
    | zero => exact mem_cons_self
    | succ k =>
      have := ih (b + 1) (k := k) (by omega)
      rw [show b + 1 + k = b + (k + 1) by omega] at this
      exact mem_cons_of_mem _ this

theorem serial_headWrites (h : partLba + (rootDataBlock groups + 1) * 2 ≤ 2 ^ 32) :
    Serial (headWrites partLba total groups) (partLba + 2)
      (partLba + (rootDataBlock groups + 1) * 2) := by
  unfold rootDataBlock at h
  refine Serial.cons_fsBlock (by omega) (by omega) ?_
  refine (serial_descriptorWrites (gdBlocks groups) 0 (by omega)).append ?_
  refine Serial.cons_fsBlock (by unfold bmb0; omega) (by unfold bmb0; omega) ?_
  refine Serial.cons_fsBlock (by unfold imb0 bmb0; omega) (by unfold imb0; omega) ?_
  refine Serial.cons_fsBlock (by unfold itb0 imb0 bmb0; omega) (by unfold itb0; omega) ?_
  have hz : partLba + (itb0 groups + 1) * 2 + 127 * 2 ≤ 2 ^ 32 := by
    unfold itb0 imb0 bmb0
    omega
  rw [lba32_of_lt (by omega)]
  refine (serial_zeroWrites (127 * 2) (Nat.le_refl _) hz).append ?_
  refine Serial.cons_fsBlock (by unfold rootDataBlock; omega) ?_ (Nat.le_refl _)
  unfold rootDataBlock itb0 imb0 bmb0
  omega

theorem serial_groupWrites (h : partLba + (g * blocksPerGroup + 130) * 2 ≤ 2 ^ 32) :
    Serial (groupWrites partLba g) (partLba + g * blocksPerGroup * 2)
      (partLba + (g * blocksPerGroup + 130) * 2) := by
  refine Serial.cons_fsBlock (by omega) (Nat.le_refl _) ?_
  rw [lba32_of_lt (by omega)]
  exact (serial_zeroWrites ((1 + 128) * 2) (Nat.le_refl _) (by omega)).mono (Nat.le_refl _)
    (by omega)

theorem serial_groupsWrites
    (n g : Nat) (hlo : lo ≤ partLba + g * blocksPerGroup * 2) (hhi : lo ≤ hi) (h32 : hi ≤ 2 ^ 32)
    (h : n ≠ 0 → partLba + ((g + n - 1) * blocksPerGroup + 130) * 2 ≤ hi) :
    Serial (groupsWrites partLba n g) lo hi := by
  induction n generalizing g lo with
  | zero => exact hhi
  | succ n ih =>
    have hlast := h (by omega)
    rw [show g + (n + 1) - 1 = g + n by omega] at hlast
    have hle : g * blocksPerGroup ≤ (g + n) * blocksPerGroup := Nat.mul_le_mul_right _ (by omega)
    have hnext : (g + 1) * blocksPerGroup = g * blocksPerGroup + 8192 := Nat.succ_mul _ _
    refine ((serial_groupWrites (by omega)).mono hlo (Nat.le_refl _)).append ?_
    refine ih (g + 1) (by omega) (by omega) fun _ => ?_
    rw [show g + 1 + n - 1 = g + n by omega]
    exact hlast

theorem mem_groupsWrites {k : Nat} (g : Nat) (hk : k < n) (hw : w ∈ groupWrites partLba (g + k)) :
    w ∈ groupsWrites partLba n g := by
  induction n generalizing g k with
  | zero => omega
  | succ n ih =>
    cases k with
    | zero => exact mem_append_left _ hw
    | succ k =>
      refine mem_append_right _ (ih (g + 1) (k := k) (by omega) ?_)
      rwa [show g + 1 + k = g + (k + 1) by omega]

end Placement

section Contents

variable {partLba total groups n b i g : Nat} {ws : List Write} {lo hi : Nat} {data : Buffer}
  {sectors : Nat → Buffer}

/-- Block `b` of the volume on the partition. -/
def fsBlock (sectors : Nat → Buffer) (partLba b : Nat) : Buffer := fun i =>
  sectors (partLba + b * 2 + i / 512) (i % 512)

section Block

variable (h : Serial ws lo hi) (hw : fsBlockWrite partLba b data ∈ ws)
  (h32 : partLba + (b + 1) * 2 ≤ 2 ^ 32)

include h hw h32

theorem Serial.fsBlock_eq (hi' : i < 1024) :
    fsBlock (applyAll ws sectors) partLba b i = data i := by
  have hlba : (fsBlockWrite partLba b data).lba = partLba + b * 2 := fsBlockWrite_lba h32
  have hc : (fsBlockWrite partLba b data).Covers (partLba + b * 2 + i / 512) := by
    unfold Write.Covers
    rw [hlba]
    show _ ∧ _ < _ + 2
    omega
  unfold fsBlock
  rw [h.sector hw hc]
  unfold Write.sector
  rw [hlba]
  show data _ = _
  congr 1
  omega

theorem Serial.readU32_fsBlock (hi' : i + 4 ≤ 1024) :
    readU32 (fsBlock (applyAll ws sectors) partLba b) i = readU32 data i :=
  readU32_congr fun _ _ => h.fsBlock_eq hw h32 (by omega)

theorem Serial.readU16_fsBlock (hi' : i + 2 ≤ 1024) :
    readU16 (fsBlock (applyAll ws sectors) partLba b) i = readU16 data i :=
  readU16_congr fun _ _ => h.fsBlock_eq hw h32 (by omega)

theorem Serial.clearBits_fsBlock (hn : n ≤ 8192) :
    clearBits (fsBlock (applyAll ws sectors) partLba b) n = clearBits data n := by
  refine countP_congr fun i hi' => ?_
  have hlt := mem_range.mp hi'
  rw [bit, bit, h.fsBlock_eq hw h32 (by omega)]

end Block

/-- The descriptor stands at its place in the block. -/
structure Descriptor.At (d : Descriptor) (blk : Buffer) (off : Nat) : Prop where
  bmb : readU32 blk off = d.bmb
  imb : readU32 blk (off + 4) = d.imb
  itb : readU32 blk (off + 8) = d.itb
  freeB : readU16 blk (off + 12) = d.freeB
  freeI : readU16 blk (off + 14) = d.freeI
  usedDirs : readU16 blk (off + 16) = d.usedDirs

/-- The fields fit their widths. -/
structure Descriptor.Small (d : Descriptor) : Prop where
  bmb : d.bmb < 2 ^ 32
  imb : d.imb < 2 ^ 32
  itb : d.itb < 2 ^ 32
  freeB : d.freeB < 65536
  freeI : d.freeI < 65536
  usedDirs : d.usedDirs < 65536

theorem putDescriptor_at {blk : Buffer} {d : Descriptor} (hd : d.Small) (i : Nat) :
    d.At (putDescriptor blk i d) (i * 32) := by
  refine ⟨?_, ?_, ?_, ?_, ?_, ?_⟩
  · simp (disch := omega) only [putDescriptor, readU32_writeU16_of_ne, readU32_writeU32_of_ne]
    exact readU32_writeU32 hd.bmb
  · simp (disch := omega) only [putDescriptor, readU32_writeU16_of_ne, readU32_writeU32_of_ne]
    exact readU32_writeU32 hd.imb
  · simp (disch := omega) only [putDescriptor, readU32_writeU16_of_ne]
    exact readU32_writeU32 hd.itb
  · simp (disch := omega) only [putDescriptor, readU16_writeU16_of_ne]
    exact readU16_writeU16 hd.freeB
  · simp (disch := omega) only [putDescriptor, readU16_writeU16_of_ne]
    exact readU16_writeU16 hd.freeI
  · exact readU16_writeU16 hd.usedDirs

theorem Descriptor.At.put {blk : Buffer} {d e : Descriptor} {j : Nat} (h : e.At blk (j * 32))
    (hj : j < i) : e.At (putDescriptor blk i d) (j * 32) := by
  refine ⟨?_, ?_, ?_, ?_, ?_, ?_⟩ <;>
    simp (disch := omega) only [putDescriptor, readU32_writeU16_of_ne, readU32_writeU32_of_ne,
      readU16_writeU16_of_ne, readU16_writeU32_of_ne, h.bmb, h.imb, h.itb, h.freeB, h.freeI,
      h.usedDirs]

theorem descriptorBlock_at (hs : ∀ g < groups, (descriptor total groups g).Small) (hi' : i < n)
    (hg : b * 32 + i < groups) :
    (descriptor total groups (b * 32 + i)).At (descriptorBlock total groups b n) (i * 32) := by
  induction n with
  | zero => omega
  | succ n ih =>
    unfold descriptorBlock
    by_cases hin : i = n
    · subst hin
      rw [if_pos hg]
      exact putDescriptor_at (hs _ hg) i
    have hat := ih (by omega)
    split
    · exact hat.put (by omega)
    · exact hat

end Contents

section Consistency

variable {partLba partSectors total g : Nat} {d d' : Device}

/-- Every sector written lies in the partition. -/
def InPartition (partLba partSectors : Nat) (log : List (Nat × Nat)) : Prop :=
  ∀ w ∈ log, ∀ k < w.2, partLba ≤ w.1 + k ∧ w.1 + k < partLba + partSectors

/-- Bitmaps and inode table of a group: first block and number of blocks. -/
def groupRegions (total g : Nat) : List (Nat × Nat) :=
  let d := descriptor total (groupCount total) g
  [(d.bmb, 1), (d.imb, 1), (d.itb, 128)]

/-- Superblock, descriptor table, the first group's metadata and the root directory. -/
def headRegions (total : Nat) : List (Nat × Nat) :=
  (1, 1) :: (2, gdBlocks (groupCount total)) ::
    (groupRegions total 0 ++ [(rootDataBlock (groupCount total), 1)])

/-- All metadata of the volume. -/
def regions (total : Nat) : List (Nat × Nat) :=
  headRegions total ++
    (range (groupCount total - 1)).flatMap fun k => groupRegions total (k + 1)

/-- The blocks group `g` really has. -/
def realBlocks (total g : Nat) : Nat := min blocksPerGroup (total - g * blocksPerGroup)

variable {lo : Nat} (sectors : Nat → Buffer) {hi : Nat}

/-- Free-block count in the descriptor of a group. -/
def freeCount (partLba g : Nat) : Nat :=
  readU16 (fsBlock sectors partLba (2 + g / 32)) (g % 32 * 32 + 12)

/-- Bitmap block named by the descriptor of a group. -/
def bitmapBlock (partLba g : Nat) : Nat :=
  readU32 (fsBlock sectors partLba (2 + g / 32)) (g % 32 * 32)

/-- Descriptors and superblock count the free blocks the bitmaps show. -/
def CountsAgree (partLba total : Nat) : Prop :=
  (∀ g < groupCount total, freeCount sectors partLba g =
    clearBits (fsBlock sectors partLba (bitmapBlock sectors partLba g)) (realBlocks total g)) ∧
  readU32 (fsBlock sectors partLba 1) 12 =
    ((range (groupCount total)).map (freeCount sectors partLba)).sum

/-- The regions do not overlap. -/
def Apart (a b : Nat × Nat) : Prop := a.1 + a.2 ≤ b.1 ∨ b.1 + b.2 ≤ a.1

/-- A consistent volume inside its partition. -/
structure Consistent (partLba partSectors : Nat) (d : Device) : Prop where
  inside : InPartition partLba partSectors d.log
  disjoint : (regions (totalBlocks partSectors)).Pairwise Apart
  counts : CountsAgree d.sectors partLba (totalBlocks partSectors)

/-- The first group is complete, the last one holds its metadata, and the descriptor
table leaves room for the rest of the first group's metadata. -/
def Fits (total : Nat) : Prop :=
  blocksPerGroup ≤ total ∧
  (total % blocksPerGroup = 0 ∨ metaBlocksOther ≤ total % blocksPerGroup) ∧
  gdBlocks (groupCount total) ≤ 8059

instance (total : Nat) : Decidable (Fits total) := inferInstanceAs (Decidable (_ ∧ _ ∧ _))

theorem totalBlocks_lt (partSectors : Nat) : totalBlocks partSectors < 2 ^ 31 := by
  unfold totalBlocks
  omega

theorem groupCount_eq (h : 0 < total) (h31 : total < 2 ^ 31) :
    groupCount total = (total + 8191) / 8192 := by
  unfold groupCount blocksPerGroup
  omega

theorem realBlocks_eq (h : 0 < total) (h31 : total < 2 ^ 31) (hg : g < groupCount total) :
    realBlocks total g = grpBlocks total (groupCount total) g := by
  rw [groupCount_eq h h31] at hg ⊢
  unfold realBlocks grpBlocks blocksPerGroup
  split <;> omega

theorem descriptor_small (hg : g < groupCount total) :
    (descriptor total (groupCount total) g).Small := by
  have hgroups : groupCount total ≤ 300000 := Nat.min_le_right _ _
  unfold descriptor
  split
  · refine ⟨?_, ?_, ?_, Nat.mod_lt _ (by omega), ?_, ?_⟩ <;>
      simp only [itb0, imb0, bmb0, gdBlocks, inodesPerGroup] <;> omega
  · refine ⟨?_, ?_, ?_, Nat.mod_lt _ (by omega), ?_, ?_⟩ <;>
      simp only [blocksPerGroup, inodesPerGroup] <;> omega

theorem totalBlocks_mul_two_le (partSectors : Nat) : totalBlocks partSectors * 2 ≤ partSectors := by
  unfold totalBlocks
  omega

/-- A volume that fits is written in one ascending sweep. -/
theorem Fits.serial (hf : Fits total) (h31 : total < 2 ^ 31) (ht : total * 2 ≤ partSectors)
    (h32 : partLba + partSectors ≤ 2 ^ 32) :
    Serial (allWrites partLba total (groupCount total)) (partLba + 2) (partLba + partSectors) := by
  obtain ⟨hfull, hrem, hgd⟩ := hf
  simp only [blocksPerGroup, metaBlocksOther] at hfull hrem
  have hgroups := groupCount_eq (by omega) h31
  have hroot : rootDataBlock (groupCount total) + 1 ≤ 8192 := by
    unfold rootDataBlock
    omega
  refine (serial_headWrites (by omega)).append ?_
  refine serial_groupsWrites _ 1 ?_ (by omega) h32 fun hn => ?_
  · simp only [blocksPerGroup]
    omega
  · simp only [blocksPerGroup]
    omega

theorem Serial.inPartition {ws : List Write} (h : Serial ws lo hi)
    (hlo : partLba ≤ lo) (hhi : hi ≤ partLba + partSectors) :
    InPartition partLba partSectors (ws.map fun w => (w.lba, w.count)) := by
  intro v hv k hk
  obtain ⟨w, hw, rfl⟩ := mem_map.mp hv
  obtain ⟨h₁, h₂⟩ := h.bounds hw
  omega

theorem Fits.disjoint (hf : Fits total) (h31 : total < 2 ^ 31) :
    (regions total).Pairwise Apart := by
  obtain ⟨hfull, hrem, hgd⟩ := hf
  simp only [blocksPerGroup] at hfull
  have hgroups := groupCount_eq (by omega) h31
  have hlater : ∀ k, groupRegions total (k + 1) =
      [((k + 1) * 8192, 1), ((k + 1) * 8192 + 1, 1), ((k + 1) * 8192 + 2, 128)] := fun k => by
    simp [groupRegions, descriptor, blocksPerGroup]
  suffices hasc : (regions total).Pairwise fun a b => a.1 + a.2 ≤ b.1 from hasc.imp .inl
  refine pairwise_append.mpr ⟨?_, pairwise_flatMap.mpr ⟨fun k _ => ?_, ?_⟩, ?_⟩
  · simp only [headRegions, groupRegions, descriptor, if_true, bmb0, imb0, itb0, rootDataBlock,
      cons_append, nil_append, pairwise_cons, mem_cons, not_mem_nil, or_false, forall_eq_or_imp,
      forall_eq, IsEmpty.forall_iff, implies_true, List.Pairwise.nil, and_true]
    omega
  · rw [hlater]
    simp only [pairwise_cons, mem_cons, not_mem_nil, or_false, forall_eq_or_imp,
      forall_eq, IsEmpty.forall_iff, implies_true, List.Pairwise.nil, and_true]
    omega
  · refine pairwise_lt_range.imp fun {k l} hkl => ?_
    rw [hlater, hlater]
    simp only [mem_cons, not_mem_nil, or_false, forall_eq_or_imp, forall_eq]
    omega
  intro a ha c hc
  obtain ⟨k, -, hk⟩ := mem_flatMap.mp hc
  rw [hlater] at hk
  have ha' : a.1 + a.2 ≤ 8192 := by
    simp only [headRegions, groupRegions, descriptor, if_true, bmb0, imb0, itb0, rootDataBlock,
      cons_append, nil_append, mem_cons, not_mem_nil, or_false] at ha
    rcases ha with rfl | rfl | rfl | rfl | rfl | rfl <;> simp only <;> omega
  simp only [mem_cons, not_mem_nil, or_false] at hk
  rcases hk with rfl | rfl | rfl <;> simp only <;> omega

/-! ### Counts of a volume that fits -/

theorem grpBlocks_le (total groups g : Nat) : grpBlocks total groups g ≤ 8192 := by
  unfold grpBlocks blocksPerGroup
  split <;> omega

theorem freeBlocks_le (total groups n : Nat) : freeBlocks total groups n ≤ n * 8192 := by
  induction n with
  | zero => exact Nat.le_refl _
  | succ n ih =>
    have := grpBlocks_le total groups n
    unfold freeBlocks
    omega

theorem freeBlocks_eq (total groups n : Nat) :
    freeBlocks total groups n = ((range n).map fun g =>
      grpBlocks total groups g - if g = 0 then metaG0Alloc groups else metaBlocksOther).sum := by
  induction n with
  | zero => rfl
  | succ n ih => rw [freeBlocks, ih, range_succ, map_append, sum_append]; simp

/-- Descriptors are on the device, wherever their block is written. -/
theorem descriptor_on_device {ws : List Write}
    (hs : Serial ws lo hi) (hsub : headWrites partLba total (groupCount total) ⊆ ws)
    (h32 : partLba + (rootDataBlock (groupCount total) + 1) * 2 ≤ 2 ^ 32)
    (hg : g < groupCount total) :
    freeCount (applyAll ws sectors) partLba g = (descriptor total (groupCount total) g).freeB ∧
    bitmapBlock (applyAll ws sectors) partLba g = (descriptor total (groupCount total) g).bmb := by
  have hb : g / 32 < gdBlocks (groupCount total) := by
    unfold gdBlocks
    omega
  have hmem := mem_descriptorWrites partLba total (groupCount total) 0 hb
  rw [Nat.zero_add] at hmem
  have hmem' := hsub (mem_cons_of_mem _ (mem_append_left _ hmem))
  have hend : partLba + (2 + g / 32 + 1) * 2 ≤ 2 ^ 32 := by
    unfold rootDataBlock at h32
    omega
  have hat := descriptorBlock_at (n := 32) (b := g / 32) (i := g % 32)
    (fun _ hg' => descriptor_small (show _ < groupCount total from hg')) (by omega) (by omega)
  rw [show g / 32 * 32 + g % 32 = g by omega] at hat
  constructor
  · exact (hs.readU16_fsBlock hmem' hend (by omega)).trans hat.freeB
  · exact (hs.readU32_fsBlock hmem' hend (by omega)).trans hat.bmb

/-- The free-block count in the superblock. -/
theorem readU32_superBlock (total groups : Nat) :
    readU32 (superBlock total groups) 12 = min (freeBlocks total groups groups) (2 ^ 32 - 1) := by
  simp (disch := omega) only [superBlock, readU32_writeU32_of_ne, readU32_writeU16_of_ne]
  exact readU32_writeU32 (by omega)

theorem Fits.counts (hf : Fits total) (h31 : total < 2 ^ 31) (ht : total * 2 ≤ partSectors)
    (h32 : partLba + partSectors ≤ 2 ^ 32) (sectors : Nat → Buffer) :
    CountsAgree (applyAll (allWrites partLba total (groupCount total)) sectors) partLba total := by
  have hs := hf.serial h31 ht h32
  obtain ⟨hfull, hrem, hgd⟩ := hf
  simp only [blocksPerGroup, metaBlocksOther] at hfull hrem
  have hgroups := groupCount_eq (by omega) h31
  have hroot : rootDataBlock (groupCount total) = gdBlocks (groupCount total) + 132 := by
    unfold rootDataBlock
    omega
  have hsub : headWrites partLba total (groupCount total) ⊆
      allWrites partLba total (groupCount total) := subset_append_left _ _
  have hdesc := fun g (hg : g < groupCount total) =>
    descriptor_on_device sectors hs hsub (by omega) hg
  have hfree : ∀ g < groupCount total, (descriptor total (groupCount total) g).freeB =
      grpBlocks total (groupCount total) g -
        if g = 0 then metaG0Alloc (groupCount total) else metaBlocksOther := by
    intro g hg
    unfold descriptor
    split
    next h0 =>
      simp only [h0, grpBlocks, blocksPerGroup, metaG0Alloc]
      split <;> omega
    · have hle := grpBlocks_le total (groupCount total) g
      exact Nat.mod_eq_of_lt (by omega)
  constructor
  · intro g hg
    rw [(hdesc g hg).1, (hdesc g hg).2, hfree g hg, ← realBlocks_eq (by omega) h31 hg]
    have hreal : realBlocks total g ≤ 8192 := Nat.min_le_left _ _
    by_cases h0 : g = 0
    · subst h0
      have hmem : fsBlockWrite partLba (bmb0 (groupCount total))
          (setFirst (metaG0Alloc (groupCount total))) ∈
          allWrites partLba total (groupCount total) := hsub (by simp [headWrites])
      rw [if_pos rfl]
      refine Eq.symm ((hs.clearBits_fsBlock hmem ?_ hreal).trans (clearBits_setFirst _ _))
      unfold bmb0
      omega
    have hmem : fsBlockWrite partLba (g * blocksPerGroup) (setFirst metaBlocksOther) ∈
        allWrites partLba total (groupCount total) := by
      refine mem_append_right _ (mem_groupsWrites 1 (k := g - 1) (by omega) ?_)
      rw [show 1 + (g - 1) = g by omega]
      exact mem_cons_self
    rw [if_neg h0, descriptor, if_neg h0]
    refine Eq.symm ((hs.clearBits_fsBlock hmem ?_ hreal).trans (clearBits_setFirst _ _))
    simp only [blocksPerGroup]
    omega
  · have hmem : fsBlockWrite partLba 1 (superBlock total (groupCount total)) ∈
        allWrites partLba total (groupCount total) := mem_cons_self
    have hsum : ((range (groupCount total)).map
        (freeCount (applyAll (allWrites partLba total (groupCount total)) sectors) partLba)).sum =
        freeBlocks total (groupCount total) (groupCount total) := by
      rw [freeBlocks_eq]
      congr 1
      refine map_congr_left fun g hg => ?_
      rw [(hdesc g (mem_range.mp hg)).1, hfree g (mem_range.mp hg)]
    have hbound := freeBlocks_le total (groupCount total) (groupCount total)
    rw [hsum, hs.readU32_fsBlock hmem (by omega) (by omega), readU32_superBlock]
    omega

/-! ### What consistency asks of the size -/

/-- Zeroed sectors in range end in range: the sector number does not wrap. -/
theorem zeroWrites_inside {rounds : Nat} (lba count : Nat) (hr : count ≤ rounds) (hlba : lba ≤ hi)
    (h32 : hi ≤ 2 ^ 32) (hlo : lo = 0 → hi < 2 ^ 32)
    (h : ∀ w ∈ zeroWrites rounds (lba32 lba) count, ∀ k < w.count,
      lo ≤ w.lba + k ∧ w.lba + k < hi) :
    lba + count ≤ hi := by
  induction rounds generalizing lba count with
  | zero => omega
  | succ rounds ih =>
    by_cases hc : count = 0
    · omega
    unfold zeroWrites at h
    rw [if_neg hc] at h
    have hfirst := h _ mem_cons_self (min count 32 - 1) (by simp only; omega)
    have hwrap : lba32 lba = lba := by
      by_contra hne
      have : lba32 lba = 0 := by
        unfold lba32 at hne ⊢
        omega
      have h0 := h _ mem_cons_self 0 (by simp only; omega)
      simp only at h0
      have : lba = 2 ^ 32 := by
        by_contra hlt
        exact hne (lba32_of_lt (by omega))
      omega
    rw [hwrap] at h hfirst
    simp only at hfirst
    have := ih (lba + min count 32) (count - min count 32) (by omega)
      (by omega) fun w hw => h w (mem_cons_of_mem _ hw)
    omega

/-- A block written in range is where it should be. -/
theorem fsBlockWrite_inside {b : Nat} (data : Buffer) (hb : b * 2 < 2 ^ 32) (h32 : hi ≤ 2 ^ 32)
    (h : ∀ k < 2, partLba ≤ (fsBlockWrite partLba b data).lba + k ∧
      (fsBlockWrite partLba b data).lba + k < hi) :
    partLba + (b + 1) * 2 ≤ hi := by
  have h₀ := h 0 (by omega)
  have h₁ := h 1 (by omega)
  simp only [fsBlockWrite, lba32] at h₀ h₁
  omega

/-- In range, the root directory lies in the partition and so does everything before it. -/
theorem InPartition.root
    (h : InPartition partLba partSectors
      ((allWrites partLba total (groupCount total)).map fun w => (w.lba, w.count)))
    (h32 : partLba + partSectors ≤ 2 ^ 32) :
    (rootDataBlock (groupCount total) + 1) * 2 ≤ partSectors := by
  have hgroups : groupCount total ≤ 300000 := Nat.min_le_right _ _
  have hmem : fsBlockWrite partLba (rootDataBlock (groupCount total)) rootDirectory ∈
      allWrites partLba total (groupCount total) :=
    mem_append_left _ (by simp [headWrites])
  have hb : rootDataBlock (groupCount total) * 2 < 2 ^ 32 := by
    unfold rootDataBlock gdBlocks
    omega
  have := fsBlockWrite_inside rootDirectory hb h32 fun k hk => h _ (mem_map_of_mem hmem) k hk
  omega

/-- In range, the last group has room for its metadata. -/
theorem InPartition.last_group
    (h : InPartition partLba partSectors
      ((allWrites partLba total (groupCount total)).map fun w => (w.lba, w.count)))
    (h32 : partLba + partSectors ≤ 2 ^ 32) (hsmall : partSectors < 2 ^ 32)
    (h31 : total < 2 ^ 31) (hg : 1 < groupCount total) :
    ((groupCount total - 1) * 8192 + 130) * 2 ≤ partSectors := by
  have hgroups : groupCount total ≤ 300000 := Nat.min_le_right _ _
  have hpos : 0 < total := by
    by_contra h0
    obtain rfl : total = 0 := by omega
    exact absurd hg (by decide)
  have hcount := groupCount_eq hpos h31
  have hmem : ∀ w ∈ groupWrites partLba (groupCount total - 1), ∀ k < w.count,
      partLba ≤ w.lba + k ∧ w.lba + k < partLba + partSectors := by
    intro w hw
    refine h (w.lba, w.count) (mem_map_of_mem (mem_append_right _ ?_))
    refine mem_groupsWrites 1 (k := groupCount total - 2) (by omega) ?_
    rwa [show 1 + (groupCount total - 2) = groupCount total - 1 by omega]
  have hbmb := fsBlockWrite_inside (b := (groupCount total - 1) * blocksPerGroup)
    (setFirst metaBlocksOther) (by simp only [blocksPerGroup]; omega) h32
    (hmem _ mem_cons_self)
  have hzero := zeroWrites_inside _ _ (Nat.le_refl ((1 + 128) * 2)) hbmb h32 (by omega)
    fun w hw => hmem w (mem_cons_of_mem _ hw)
  simp only [blocksPerGroup] at hzero
  omega

/-- In a group that is not there, the descriptor counts blocks that do not exist. -/
theorem CountsAgree.full {sectors : Nat → Buffer}
    (h : CountsAgree (applyAll (allWrites partLba total (groupCount total)) sectors) partLba total)
    (hpos : 128 ≤ total) (h32 : partLba + (rootDataBlock (groupCount total) + 1) * 2 ≤ 2 ^ 32) :
    blocksPerGroup ≤ total := by
  by_contra hlt
  simp only [blocksPerGroup] at hlt
  have hone : groupCount total = 1 := by
    rw [groupCount_eq (by omega) (by omega)]
    omega
  have hs : Serial (allWrites partLba total (groupCount total)) (partLba + 2)
      (partLba + (rootDataBlock (groupCount total) + 1) * 2) := by
    refine (serial_headWrites h32).append ?_
    rw [hone]
    exact Nat.le_refl _
  have hsub : headWrites partLba total (groupCount total) ⊆
      allWrites partLba total (groupCount total) := subset_append_left _ _
  obtain ⟨hfree, hbmb⟩ := descriptor_on_device sectors hs hsub h32
    (show 0 < groupCount total by omega)
  have hmem : fsBlockWrite partLba (bmb0 (groupCount total))
      (setFirst (metaG0Alloc (groupCount total))) ∈
      allWrites partLba total (groupCount total) := hsub (by simp [headWrites])
  have hreal : realBlocks total 0 ≤ total := by
    unfold realBlocks
    omega
  have hend : partLba + (bmb0 (groupCount total) + 1) * 2 ≤ 2 ^ 32 := by
    unfold rootDataBlock at h32
    unfold bmb0
    omega
  have hcount := h.1 0 (by omega)
  rw [hfree, hbmb] at hcount
  have hcount' :=
    hcount.trans ((hs.clearBits_fsBlock hmem hend (by omega)).trans (clearBits_setFirst _ _))
  rw [hone] at hcount'
  have hbits : (descriptor total 1 0).freeB = 8058 := rfl
  have hmeta : metaG0Alloc 1 = 134 := rfl
  omega

/-- A descriptor table that reaches too far pushes metadata into the second group. -/
theorem gdBlocks_le_of_disjoint (h : (regions total).Pairwise Apart) (h31 : total < 2 ^ 31)
    (hpos : 0 < total) : gdBlocks (groupCount total) ≤ 8059 := by
  have hcount := groupCount_eq hpos h31
  by_contra hgd
  have hle : gdBlocks (groupCount total) ≤ 8192 := by
    unfold gdBlocks
    omega
  have hgroups : 1 < groupCount total := by
    unfold gdBlocks at hgd
    omega
  have hcross := (pairwise_append.mp h).2.2
  have hsecond : ∀ r ∈ groupRegions total 1, r ∈
      (range (groupCount total - 1)).flatMap fun k => groupRegions total (k + 1) :=
    fun r hr => mem_flatMap.mpr ⟨0, mem_range.mpr (by omega), hr⟩
  have hregions : groupRegions total 1 = [(8192, 1), (8193, 1), (8194, 128)] := by
    simp [groupRegions, descriptor, blocksPerGroup]
  rw [hregions] at hsecond
  have hroot := fun r hr => hcross (rootDataBlock (groupCount total), 1)
    (by simp [headRegions]) r (hsecond r hr)
  have htable := hcross (itb0 (groupCount total), 128)
    (by simp [headRegions, groupRegions, descriptor]) (8194, 128) (hsecond _ (by simp))
  have h₀ := hroot (8192, 1) (by simp)
  have h₁ := hroot (8193, 1) (by simp)
  have h₂ := hroot (8194, 128) (by simp)
  simp only [Apart, rootDataBlock, itb0, imb0, bmb0] at h₀ h₁ h₂ htable
  omega

/--
When `ext2_format_at` succeeds, it leaves a consistent volume inside its partition
exactly if the partition has a complete first group, a last group that can hold its own
metadata, and a descriptor table that leaves room for the first group's.
-/
theorem format_consistent
    (h32 : partLba + partSectors ≤ 2 ^ 32) (hsmall : partSectors < 2 ^ 32) (hlog : d.log = [])
    (hrun : ext2FormatAt partLba partSectors d = (d', 0)) :
    Consistent partLba partSectors d' ↔ Fits (totalBlocks partSectors) := by
  have h31 := totalBlocks_lt partSectors
  have htwo := totalBlocks_mul_two_le partSectors
  unfold ext2FormatAt at hrun
  split at hrun
  · simp at hrun
  next hmin =>
  split at hrun
  next d₁ hd =>
    obtain ⟨rfl, -⟩ := Prod.mk.inj hrun
    obtain ⟨hsec, hlog'⟩ := writes_formatWrites partLba (totalBlocks partSectors) d d₁ () hd
    rw [hlog, nil_append] at hlog'
    constructor
    · rintro ⟨hin, hdis, hcounts⟩
      rw [hlog'] at hin
      rw [hsec] at hcounts
      have hroot := hin.root h32
      have hfull := hcounts.full (by omega) (by omega)
      refine ⟨hfull, ?_, gdBlocks_le_of_disjoint hdis h31 (by omega)⟩
      by_contra hrem
      simp only [blocksPerGroup, metaBlocksOther, not_or] at hfull hrem
      have hgroups := groupCount_eq (by omega) h31
      have hlast := hin.last_group h32 hsmall h31 (by omega)
      have hbound : partSectors ≤ totalBlocks partSectors * 2 + 1 := by
        unfold totalBlocks at hrem ⊢
        omega
      omega
    · intro hf
      refine ⟨?_, hf.disjoint h31, ?_⟩
      · rw [hlog']
        exact (hf.serial h31 htwo h32).inPartition (by omega) (Nat.le_refl _)
      · rw [hsec]
        exact hf.counts h31 htwo h32 d.sectors
  · simp at hrun

/-- A device on which every transfer succeeds. -/
def blankDevice : Device := ⟨fun _ => zero, [], 0, fun _ => true⟩

/-- A partition of one complete group. -/
theorem format_consistent_one_group :
    (ext2FormatAt 0 16384 blankDevice).2 = 0 ∧
    Consistent 0 16384 (ext2FormatAt 0 16384 blankDevice).1 := by
  have hrun : (ext2FormatAt 0 16384 blankDevice).2 = 0 := by decide +kernel
  generalize hd : ext2FormatAt 0 16384 blankDevice = r at hrun
  obtain ⟨d', status⟩ := r
  obtain rfl : status = 0 := hrun
  exact ⟨rfl, (format_consistent (by decide) (by decide) rfl hd).mpr (by decide)⟩

/--
A partition of 8193 blocks: the second group has one block, and formatting writes its
inode bitmap and inode table behind the end of the partition.
-/
theorem format_consistent_fails :
    (ext2FormatAt 0 16386 blankDevice).2 = 0 ∧
    ¬ Consistent 0 16386 (ext2FormatAt 0 16386 blankDevice).1 := by
  have hlog : (16386, 32) ∈ (ext2FormatAt 0 16386 blankDevice).1.log := by decide +kernel
  refine ⟨by decide +kernel, fun h => ?_⟩
  have := h.inside _ hlog 0 (by decide)
  omega

end Consistency

end PureCOS.Ext2
