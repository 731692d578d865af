import PureCOS.Lib.Bytes

/-!
# A mounted ext2 volume

`fs/ext2/super.c`, `fs/ext2/block.c` and the inode access of `fs/ext2/inode.c`: the
parameters of a volume are read from its superblock, and blocks are read by number.

The block device does not fail here.  A volume is a map from block numbers to blocks:
`ext2_read_block` refuses every number whose sectors are not sectors of their own, so
two blocks never share a sector.  Arithmetic is on 32 bits where the numbers come from
the disk.
-/

namespace PureCOS.Ext2

/-- `struct ext2_volume`, once mounted. -/
structure Volume where
  partitionLba : Nat
  blockSize : Nat
  blocksPerGroup : Nat
  inodesPerGroup : Nat
  totalBlocks : Nat
  totalInodes : Nat
  groupsCount : Nat
  inodesPerBlock : Nat
  inodeSize : Nat

/-- What mounting guarantees about the parameters. -/
structure Mounted (v : Volume) : Prop where
  lba_lt : v.partitionLba < 2 ^ 32
  blockSize : v.blockSize = 1024 ∨ v.blockSize = 2048 ∨ v.blockSize = 4096
  blocksPerGroup_pos : 0 < v.blocksPerGroup
  blocksPerGroup_lt : v.blocksPerGroup < 2 ^ 32
  inodesPerGroup_pos : 0 < v.inodesPerGroup
  inodesPerGroup_lt : v.inodesPerGroup < 2 ^ 32
  totalBlocks_pos : 0 < v.totalBlocks
  totalBlocks_lt : v.totalBlocks < 2 ^ 32
  totalInodes_lt : v.totalInodes < 2 ^ 32
  groupsCount : v.groupsCount =
    max (u32 (v.totalBlocks + v.blocksPerGroup - 1) / v.blocksPerGroup) 1
  groupsCount_le : v.groupsCount ≤ 300000
  inodesPerBlock : v.inodesPerBlock = max (v.blockSize / v.inodeSize) 1
  inodeSize_pos : 0 < v.inodeSize

/--
A mounted volume whose inode records hold the block numbers and fit the buffers of
256 bytes they are copied to.
-/
structure Usable (v : Volume) : Prop extends Mounted v where
  record_lo : 100 ≤ v.inodeSize
  record_hi : v.inodeSize ≤ 256

theorem Mounted.blockSize_pos {v : Volume} (hv : Mounted v) : 0 < v.blockSize := by
  rcases hv.blockSize with h | h | h <;> omega

theorem Mounted.inodesPerBlock_pos {v : Volume} (hv : Mounted v) : 0 < v.inodesPerBlock := by
  rw [hv.inodesPerBlock]
  exact Nat.le_max_right _ _

/-- The records of one block fit it. -/
theorem Usable.records_le {v : Volume} (hv : Usable v) :
    v.inodesPerBlock * v.inodeSize ≤ v.blockSize := by
  have hpos : 1 ≤ v.blockSize / v.inodeSize := by
    rw [Nat.one_le_div_iff hv.inodeSize_pos]
    have := hv.record_hi
    rcases hv.blockSize with h | h | h <;> omega
  rw [hv.inodesPerBlock, Nat.max_eq_left hpos]
  exact Nat.div_mul_le_self _ _

/-- A small volume of one group. -/
def smallVolume : Volume where
  partitionLba := 0
  blockSize := 1024
  blocksPerGroup := 8192
  inodesPerGroup := 16
  totalBlocks := 64
  totalInodes := 16
  groupsCount := 1
  inodesPerBlock := 8
  inodeSize := 128

theorem smallVolume_usable : Usable smallVolume := by
  constructor
  · constructor <;> decide
  · decide
  · decide

/-! ## Blocks -/

/-- The blocks of a volume. -/
abbrev Disk := Nat → Buffer

/-- The first `n` bytes of a buffer. -/
def clip (n : Nat) (b : Buffer) : Buffer := fun i => if i < n then b i else 0

variable (v : Volume)

def blockNumberValid (block : Nat) : Bool :=
  block < v.totalBlocks && 0 < v.blockSize / 512 &&
    block * (v.blockSize / 512) ≤ 0xFFFFFFFF - v.partitionLba

def readBlock (d : Disk) (block : Nat) : Option Buffer :=
  if blockNumberValid v block then some (d block) else none

theorem readBlock_eq_some {v : Volume} {d : Disk} {block : Nat} {blk : Buffer} :
    readBlock v d block = some blk ↔ blockNumberValid v block = true ∧ d block = blk := by
  unfold readBlock
  split
  next h => simp [h]
  next h => simp [h]

/-! ## Group descriptors and inodes -/

/-- Block of the descriptor table that holds the descriptor of a group. -/
def descBlock (group : Nat) : Nat :=
  (if v.blockSize = 1024 then 2 else 1) + group / (v.blockSize / 32)

/-- Offset of the descriptor in its block. -/
def descOffset (group : Nat) : Nat := group % (v.blockSize / 32) * 32

def groupDescRead (d : Disk) (group : Nat) : Option Buffer :=
  (readBlock v d (descBlock v group)).map fun tmp i => tmp (descOffset v group + i)

/-- Group and index of an inode. -/
def inodeGroup (ino : Nat) : Nat := (ino - 1) / v.inodesPerGroup

def inodeIndex (ino : Nat) : Nat := (ino - 1) % v.inodesPerGroup

/-- Offset of an inode in its block of the inode table. -/
def inodeOffset (ino : Nat) : Nat :=
  inodeIndex v ino % v.inodesPerBlock * v.inodeSize

/-- Block that holds an inode, in the table that starts at `table`. -/
def inodeBlock (table ino : Nat) : Nat :=
  u32 (table + inodeIndex v ino / v.inodesPerBlock)

/-- The record of an inode in its block; what the record does not hold reads as zero. -/
def inodeRecord (blk : Buffer) (ino : Nat) : Buffer :=
  clip v.inodeSize fun i => blk (inodeOffset v ino + i)

/-- A record lies in its block. -/
theorem inodeOffset_lt {v : Volume} (hv : Usable v) {ino i : Nat} (hi : i < v.inodeSize) :
    inodeOffset v ino + i < v.blockSize := by
  have hmod : inodeIndex v ino % v.inodesPerBlock < v.inodesPerBlock :=
    Nat.mod_lt _ hv.inodesPerBlock_pos
  have hmul := Nat.mul_le_mul_right v.inodeSize (Nat.succ_le_of_lt hmod)
  rw [Nat.succ_mul] at hmul
  have := hv.records_le
  unfold inodeOffset
  omega

/-- A descriptor lies in its block. -/
theorem descOffset_add_le {v : Volume} (hv : Mounted v) (group : Nat) :
    descOffset v group + 32 ≤ v.blockSize := by
  unfold descOffset
  rcases hv.blockSize with h | h | h <;> rw [h] <;> omega

def inodeRead (d : Disk) (ino : Nat) : Option Buffer :=
  if ino = 0 ∨ v.totalInodes < ino then
    none
  else
    match groupDescRead v d (inodeGroup v ino) with
    | none => none
    | some gd =>
      (readBlock v d (inodeBlock v (gd.readU32 8) ino)).map fun blk => inodeRecord v blk ino

end PureCOS.Ext2
