import PureCOS.Ext2.Volume

/-!
# The blocks of an inode

`fs/ext2/inode.c`: an inode names twelve data blocks directly and the others through
tables of block numbers of one, two and three levels.  A number of zero is a hole,
which reads as zeros.
-/

namespace PureCOS.Ext2

variable (v : Volume) (d : Disk)

/-- Numbers in one table. -/
def perTable : Nat := v.blockSize / 4

theorem perTable_pos {v : Volume} (hv : Mounted v) : 0 < perTable v := by
  unfold perTable
  rcases hv.blockSize with h | h | h <;> omega

/-- Entry `i` of the table in block `t`; a table that is missing or unreadable is empty. -/
def tableEntry (t i : Nat) : Nat :=
  if t = 0 then
    0
  else
    match readBlock v d t with
    | none => 0
    | some tmp => tmp.readU32 (i * 4)

theorem tableEntry_eq (t i : Nat) :
    tableEntry v d t i =
      if t ≠ 0 ∧ blockNumberValid v t = true then (d t).readU32 (i * 4) else 0 := by
  unfold tableEntry readBlock
  by_cases ht : t = 0
  · simp [ht]
  · by_cases hvalid : blockNumberValid v t = true
    · simp [ht, hvalid]
    · simp [ht, hvalid]

/-- Slot `i` of the block numbers in an inode. -/
def inodeSlot (inode : Buffer) (i : Nat) : Nat := inode.readU32 (40 + i * 4)

def inodeBlockPtr (inode : Buffer) (logical : Nat) : Nat :=
  let per := perTable v
  if logical < 12 then
    inodeSlot inode logical
  else if logical < 12 + per then
    tableEntry v d (inodeSlot inode 12) (logical - 12)
  else if logical < 12 + per + per * per then
    let rem := logical - (12 + per)
    tableEntry v d (tableEntry v d (inodeSlot inode 13) (rem / per)) (rem % per)
  else if logical < 12 + per + per * per + per * per * per then
    let rem := logical - (12 + per + per * per)
    let r := rem % (per * per)
    tableEntry v d
      (tableEntry v d (tableEntry v d (inodeSlot inode 14) (rem / (per * per))) (r / per))
      (r % per)
  else
    0

/-- Conversion of a `uint32_t` to `int32_t`. -/
def toInt32 (n : Nat) : Int := if n < 2 ^ 31 then n else n - 2 ^ 32

/-- The loop of `ext2_inode_read_data`; every round reads at least one byte. -/
def readDataLoop (inode : Buffer) (offset count : Nat) : Nat → Nat → Buffer → Int × Buffer
  | 0, total, buf => (toInt32 total, buf)
  | rounds + 1, total, buf =>
    if total < count then
      let cur := u32 (offset + total)
      let off := cur % v.blockSize
      let block := inodeBlockPtr v d inode (cur / v.blockSize)
      let chunk := min (v.blockSize - off) (count - total)
      if block = 0 then
        readDataLoop inode offset count rounds (total + chunk) (buf.splice total chunk Buffer.zero)
      else
        match readBlock v d block with
        | none => (-1, buf)
        | some tmp =>
          readDataLoop inode offset count rounds (total + chunk)
            (buf.splice total chunk fun i => tmp (off + i))
    else
      (toInt32 total, buf)

def inodeReadData (inode : Buffer) (offset : Nat) (buf : Buffer) (count : Nat) : Int × Buffer :=
  let size := inode.readU32 4
  if size ≤ offset then
    (0, buf)
  else
    let count := if size < u32 (offset + count) then size - offset else count
    readDataLoop v d inode offset count count 0 buf

/-! ## What is read -/

/-- Byte `pos` of the file. -/
def fileByte (inode : Buffer) (pos : Nat) : Byte :=
  if inodeBlockPtr v d inode (pos / v.blockSize) = 0 then
    0
  else
    d (inodeBlockPtr v d inode (pos / v.blockSize)) (pos % v.blockSize)

/-- The block that holds byte `pos` is a hole or a block of the volume. -/
def OnVolume (inode : Buffer) (pos : Nat) : Prop :=
  inodeBlockPtr v d inode (pos / v.blockSize) = 0 ∨
    blockNumberValid v (inodeBlockPtr v d inode (pos / v.blockSize)) = true

/-- The buffer with bytes `first, …, last - 1` taken from the file at `offset`. -/
def filled (inode : Buffer) (offset first last : Nat) (buf : Buffer) : Buffer := fun i =>
  if first ≤ i ∧ i < last then fileByte v d inode (offset + i) else buf i

variable {v d} {inode buf : Buffer} {offset count total rounds : Nat}

theorem filled_self : filled v d inode offset count count buf = buf := by
  funext i
  exact if_neg (by omega)

/-- Block and place in it of a byte a little further on in the same block. -/
theorem div_mod_add {cur k n : Nat} (h : cur % n + k < n) :
    (cur + k) / n = cur / n ∧ (cur + k) % n = cur % n + k := by
  have hsum : cur + k = n * (cur / n) + (cur % n + k) := by
    rw [← Nat.add_assoc, Nat.div_add_mod]
  rw [hsum, Nat.mul_add_div (by omega), Nat.mul_add_mod, Nat.div_eq_of_lt h, Nat.mod_eq_of_lt h]
  exact ⟨rfl, rfl⟩

/-- One round fills its part of the buffer. -/
theorem filled_splice {chunk : Nat} {source : Buffer} (hlo : total + chunk ≤ count)
    (hsource : ∀ k < chunk, source k = fileByte v d inode (offset + total + k)) :
    filled v d inode offset (total + chunk) count (buf.splice total chunk source) =
      filled v d inode offset total count buf := by
  funext i
  unfold filled
  by_cases hi : total + chunk ≤ i ∧ i < count
  · rw [if_pos hi, if_pos (by omega)]
  rw [if_neg hi]
  by_cases hin : total ≤ i ∧ i < total + chunk
  · obtain ⟨k, rfl⟩ := Nat.exists_eq_add_of_le hin.1
    rw [Buffer.splice_apply (by omega), if_pos (by omega), hsource k (by omega), Nat.add_assoc]
  · rw [Buffer.splice_of_outside (by omega), if_neg (by omega)]

/-- The bytes a round reads lie in one block, and there is at least one. -/
structure OneBlock (v : Volume) (cur left chunk : Nat) : Prop where
  pos : 0 < chunk
  le : chunk ≤ left
  at_ : ∀ k < chunk, (cur + k) / v.blockSize = cur / v.blockSize ∧
    (cur + k) % v.blockSize = cur % v.blockSize + k

theorem oneBlock_of_pos (cur : Nat) {left : Nat} (hsize : 0 < v.blockSize) (hleft : 0 < left) :
    OneBlock v cur left (min (v.blockSize - cur % v.blockSize) left) := by
  have hmod : cur % v.blockSize < v.blockSize := Nat.mod_lt _ hsize
  exact
    { pos := by omega
      le := Nat.min_le_right _ _
      at_ := fun k hk => div_mod_add (by omega) }

/-- Reading where every block is on the volume. -/
theorem readDataLoop_of_onVolume (hsize : 0 < v.blockSize) (hend : offset + count ≤ 2 ^ 32)
    (hon : ∀ pos, offset + total ≤ pos → pos < offset + count → OnVolume v d inode pos)
    (htotal : total ≤ count) (hrounds : count - total ≤ rounds) : readDataLoop v d inode offset
    count rounds total buf = (toInt32 count, filled v d inode offset total count buf) := by
  induction rounds generalizing total buf with
  | zero =>
    obtain rfl : total = count := by omega
    rw [readDataLoop, filled_self]
  | succ rounds ih =>
    rw [readDataLoop]
    split
    next hlt =>
      have hround := oneBlock_of_pos (offset + total) hsize (show 0 < count - total by omega)
      dsimp only
      rw [u32_of_lt (show offset + total < 2 ^ 32 by omega)]
      generalize min (v.blockSize - (offset + total) % v.blockSize) (count - total) = chunk
        at hround ⊢
      have hpos := hround.pos
      have hle := hround.le
      have hnext : ∀ buf, readDataLoop v d inode offset count rounds (total + chunk) buf =
          (toInt32 count, filled v d inode offset (total + chunk) count buf) := fun buf =>
        ih (fun pos h₁ h₂ => hon pos (by omega) h₂) (by omega) (by omega)
      split
      next hhole =>
        rw [hnext, filled_splice (by omega)]
        intro k hk
        rw [fileByte, (hround.at_ k hk).1, if_pos hhole]
        rfl
      next hblock =>
      have hvalid := (hon (offset + total) (Nat.le_refl _) (by omega)).resolve_left hblock
      rw [readBlock, if_pos hvalid]
      dsimp only
      rw [hnext, filled_splice (by omega)]
      intro k hk
      rw [fileByte, (hround.at_ k hk).1, (hround.at_ k hk).2, if_neg hblock]
    next hge =>
      obtain rfl : total = count := by omega
      rw [filled_self]

/-- A block number beyond the volume ends the read with an error. -/
theorem readDataLoop_of_wild (hsize : 0 < v.blockSize) (hend : offset + count ≤ 2 ^ 32) {pos : Nat}
    (hlo : offset + total ≤ pos) (hhi : pos < offset + count) (hwild : ¬ OnVolume v d inode pos)
    (hrounds : count - total ≤ rounds) :
    (readDataLoop v d inode offset count rounds total buf).1 = -1 := by
  induction rounds generalizing total buf with
  | zero => omega
  | succ rounds ih =>
    have hround := oneBlock_of_pos (offset + total) hsize (show 0 < count - total by omega)
    rw [readDataLoop, if_pos (by omega)]
    dsimp only
    rw [u32_of_lt (show offset + total < 2 ^ 32 by omega)]
    generalize min (v.blockSize - (offset + total) % v.blockSize) (count - total) = chunk
      at hround ⊢
    have hpos := hround.pos
    have hle := hround.le
    -- Either the wild number is the one of this round, or it comes later.
    by_cases hin : pos < offset + total + chunk
    · obtain ⟨k, rfl⟩ := Nat.exists_eq_add_of_le hlo
      rw [OnVolume, (hround.at_ k (by omega)).1, not_or] at hwild
      rw [if_neg hwild.1, readBlock, if_neg hwild.2]
    split
    · exact ih (by omega) (by omega)
    · split
      · rfl
      · exact ih (by omega) (by omega)

/-- A read returns an error or all that was asked for. -/
theorem readDataLoop_status (hsize : 0 < v.blockSize) (htotal : total ≤ count)
    (hrounds : count - total ≤ rounds) :
    (readDataLoop v d inode offset count rounds total buf).1 = -1 ∨
      (readDataLoop v d inode offset count rounds total buf).1 = toInt32 count := by
  induction rounds generalizing total buf with
  | zero =>
    obtain rfl : total = count := by omega
    exact .inr rfl
  | succ rounds ih =>
    rw [readDataLoop]
    split
    next hlt =>
      have hround := oneBlock_of_pos (u32 (offset + total)) hsize (show 0 < count - total by omega)
      dsimp only
      generalize min (v.blockSize - u32 (offset + total) % v.blockSize) (count - total) = chunk
        at hround ⊢
      have hpos := hround.pos
      have hle := hround.le
      split
      · exact ih (by omega) (by omega)
      · split
        · exact .inl rfl
        · exact ih (by omega) (by omega)
    next hge =>
      obtain rfl : total = count := by omega
      exact .inr rfl

end PureCOS.Ext2
