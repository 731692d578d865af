import PureCOS.Lib.Bytes
import PureCOS.Lib.Proc

/-!
# Making an ext2 volume

`fs/ext2/format.c`: `ext2_format_at` writes superblock, group descriptors, bitmaps,
inode tables and the root directory of a volume with blocks of 1024 bytes to the
sectors of a partition.

The block device is a map from sectors to their contents.  Whether a transfer succeeds
is up to the environment (`ioOk`); the writes that were made are kept in a log.
Sector numbers are computed in 32 bits.
-/

namespace PureCOS.Ext2

open Buffer

/-- A block device: contents, the writes made so far, and the outcome of each transfer. -/
structure Device where
  sectors : Nat → Buffer
  log : List (Nat × Nat)
  transfers : Nat
  ioOk : Nat → Bool

/-- A write of `count` sectors from `lba` on. -/
structure Write where
  lba : Nat
  count : Nat
  data : Buffer

/-- The sector is one of those written. -/
def Write.Covers (w : Write) (x : Nat) : Prop := w.lba ≤ x ∧ x < w.lba + w.count

instance (w : Write) (x : Nat) : Decidable (w.Covers x) := inferInstanceAs (Decidable (_ ∧ _))

/-- What the write leaves in a sector it covers. -/
def Write.sector (w : Write) (x : Nat) : Buffer := fun i => w.data ((x - w.lba) * 512 + i)

/-- Effect of a write on the contents of the device. -/
def Write.apply (w : Write) (sectors : Nat → Buffer) : Nat → Buffer := fun x =>
  if w.Covers x then w.sector x else sectors x

def blockDeviceWriteSectors (lba : Nat) (data : Buffer) (count : Nat) : Proc Device Unit := fun d =>
  if d.ioOk d.transfers then
    ({ d with
        sectors := Write.apply ⟨lba, count, data⟩ d.sectors
        log := d.log ++ [(lba, count)]
        transfers := d.transfers + 1 }, some ())
  else
    ({ d with transfers := d.transfers + 1 }, none)

def blockDeviceFlush : Proc Device Unit := fun d =>
  ({ d with transfers := d.transfers + 1 }, if d.ioOk d.transfers then some () else none)

/-- Sector number in 32 bits. -/
def lba32 (lba : Nat) : Nat := lba % 2 ^ 32

/-- `write_zero_sectors`; every round writes at least one sector. -/
def writeZeroSectors : Nat → Nat → Nat → Proc Device Unit
  | 0, _, _ => pure ()
  | rounds + 1, lba, count =>
    if count = 0 then
      pure ()
    else do
      let n := min count 32
      blockDeviceWriteSectors lba zero n
      writeZeroSectors rounds (lba32 (lba + n)) (count - n)

/-! ## Layout -/

/-- `blocks_per_group` of a new volume. -/
def blocksPerGroup : Nat := 8192

/-- `inodes_per_group` of a new volume. -/
def inodesPerGroup : Nat := 1024

def totalBlocks (partSectors : Nat) : Nat := min (min partSectors 0xFFFFFF00 / 2) 0x7FFFFFFF

/-- `groups` -/
def groupCount (total : Nat) : Nat :=
  min (max ((total + blocksPerGroup - 1) / blocksPerGroup) 1) 300000

def gdBlocks (groups : Nat) : Nat := (groups * 32 + 1023) / 1024

def bmb0 (groups : Nat) : Nat := 2 + gdBlocks groups

def imb0 (groups : Nat) : Nat := bmb0 groups + 1

def itb0 (groups : Nat) : Nat := imb0 groups + 1

/-- `meta_g0`, `root_data_block` -/
def rootDataBlock (groups : Nat) : Nat := 2 + gdBlocks groups + 1 + 1 + 128

def metaG0Alloc (groups : Nat) : Nat := rootDataBlock groups + 1

def metaBlocksOther : Nat := 130

/-- `grp_blocks`: the last group may be shorter. -/
def grpBlocks (total groups g : Nat) : Nat :=
  if g = groups - 1 ∧ total % blocksPerGroup ≠ 0 then total % blocksPerGroup else blocksPerGroup

/-- `free_blocks_tmp`, over the first `n` groups. -/
def freeBlocks (total groups : Nat) : Nat → Nat
  | 0 => 0
  | n + 1 =>
    freeBlocks total groups n +
      (grpBlocks total groups n - (if n = 0 then metaG0Alloc groups else metaBlocksOther))

/-- A group descriptor as it is written. -/
structure Descriptor where
  bmb : Nat
  imb : Nat
  itb : Nat
  freeB : Nat
  freeI : Nat
  usedDirs : Nat

/-- The descriptor of a group. -/
def descriptor (total groups g : Nat) : Descriptor :=
  if g = 0 then
    { bmb := bmb0 groups
      imb := imb0 groups
      itb := itb0 groups
      freeB := (blocksPerGroup - metaG0Alloc groups) % 65536
      freeI := inodesPerGroup - 11
      usedDirs := 2 }
  else
    { bmb := g * blocksPerGroup
      imb := g * blocksPerGroup + 1
      itb := g * blocksPerGroup + 2
      freeB := (grpBlocks total groups g - metaBlocksOther) % 65536
      freeI := inodesPerGroup
      usedDirs := 0 }

/-! ## Contents -/

/-- The superblock. -/
def superBlock (total groups : Nat) : Buffer :=
  let sb := zero
  let sb := sb.writeU32 0 (inodesPerGroup * groups)
  let sb := sb.writeU32 4 total
  let sb := sb.writeU32 12 (min (freeBlocks total groups groups) (2 ^ 32 - 1))
  let sb := sb.writeU32 16 (inodesPerGroup * groups - 11)
  let sb := sb.writeU32 20 1
  let sb := sb.writeU32 24 0
  let sb := sb.writeU32 32 blocksPerGroup
  let sb := sb.writeU32 36 8192
  let sb := sb.writeU32 40 inodesPerGroup
  let sb := sb.writeU16 56 0xEF53
  let sb := sb.writeU16 58 1
  let sb := sb.writeU16 88 128
  sb.writeU32 92 1

/-- A descriptor written at its place in a block. -/
def putDescriptor (blk : Buffer) (i : Nat) (d : Descriptor) : Buffer :=
  let blk := blk.writeU32 (i * 32) d.bmb
  let blk := blk.writeU32 (i * 32 + 4) d.imb
  let blk := blk.writeU32 (i * 32 + 8) d.itb
  let blk := blk.writeU16 (i * 32 + 12) d.freeB
  let blk := blk.writeU16 (i * 32 + 14) d.freeI
  blk.writeU16 (i * 32 + 16) d.usedDirs

/-- Block `b` of the descriptor table, up to its `n`-th entry. -/
def descriptorBlock (total groups b : Nat) : Nat → Buffer
  | 0 => zero
  | n + 1 =>
    if b * 32 + n < groups then
      putDescriptor (descriptorBlock total groups b n) n (descriptor total groups (b * 32 + n))
    else
      descriptorBlock total groups b n

/-- First block of the inode table: inode 2 is the root directory. -/
def rootInodeBlock (groups : Nat) : Buffer :=
  let blk := zero
  let blk := blk.writeU16 128 0x41ED
  let blk := blk.writeU32 (128 + 4) 1024
  let blk := blk.writeU32 (128 + 28) 2
  let blk := blk.writeU32 (128 + 40) (rootDataBlock groups)
  blk.writeU16 (128 + 26) 2

/-- The root directory: entries `.` and `..`. -/
def rootDirectory : Buffer :=
  let blk := zero
  let blk := blk.writeU32 0 2
  let blk := blk.writeU16 4 12
  let blk := blk.splice 6 3 (fun i => [1, 2, 0x2E].getD i 0)
  let blk := blk.writeU32 12 2
  let blk := blk.writeU16 16 1012
  blk.splice 18 4 (fun i => [2, 2, 0x2E, 0x2E].getD i 0)

/-! ## The program -/

/-- Write one block of the volume. -/
def writeFsBlock (partLba block : Nat) (data : Buffer) : Proc Device Unit :=
  blockDeviceWriteSectors (lba32 (partLba + block * 2)) data 2

/-- The descriptor table, from block `b` on. -/
def writeDescriptors (partLba total groups : Nat) : Nat → Nat → Proc Device Unit
  | 0, _ => pure ()
  | n + 1, b => do
    blockDeviceWriteSectors (lba32 (partLba + 4 + b * 2)) (descriptorBlock total groups b 32) 2
    writeDescriptors partLba total groups n (b + 1)

/-- Bitmaps and inode tables of the groups after the first. -/
def writeGroups (partLba : Nat) : Nat → Nat → Proc Device Unit
  | 0, _ => pure ()
  | n + 1, g => do
    let bmb := g * blocksPerGroup
    writeFsBlock partLba bmb (setFirst metaBlocksOther)
    writeZeroSectors ((1 + 128) * 2) (lba32 (partLba + (bmb + 1) * 2)) ((1 + 128) * 2)
    writeGroups partLba n (g + 1)

/-- All writes of `ext2_format_at`. -/
def formatWrites (partLba total : Nat) : Proc Device Unit := do
  let groups := groupCount total
  blockDeviceWriteSectors (lba32 (partLba + 2)) (superBlock total groups) 2
  writeDescriptors partLba total groups (gdBlocks groups) 0
  writeFsBlock partLba (bmb0 groups) (setFirst (metaG0Alloc groups))
  writeFsBlock partLba (imb0 groups) (setFirst 11)
  writeFsBlock partLba (itb0 groups) (rootInodeBlock groups)
  writeZeroSectors (127 * 2) (lba32 (partLba + (itb0 groups + 1) * 2)) (127 * 2)
  writeFsBlock partLba (rootDataBlock groups) rootDirectory
  writeGroups partLba (groups - 1) 1
  blockDeviceFlush

def ext2FormatAt (partLba partSectors : Nat) (d : Device) : Device × Int :=
  if totalBlocks partSectors < 128 then
    (d, -13)
  else
    match formatWrites partLba (totalBlocks partSectors) d with
    | (d, some ()) => (d, 0)
    | (d, none) => (d, -1)

end PureCOS.Ext2
